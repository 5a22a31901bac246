import TracedText.Text

/-!
# UTF-8, leniently

`decode` reads any octets as text. It keeps what it has read of a character that is not complete,
and with it the range that the next octet must lie in; so overlong forms, surrogates and characters
past the last one are refused at their second octet. Whenever no character can go on as the octets
do, what was kept becomes one replacement character and reading starts anew at the offending octet.
-/
namespace TracedText.Utf8

def encode (t : Text) : List UInt8 := t.flatMap String.utf8EncodeChar

def replacement : Char := '\uFFFD'

/-- A character of which `missing + 1` octets are still to come. The next lies in `lo` to `hi`. -/
structure Pending where
  bits : Nat
  missing : Nat
  lo : Nat
  hi : Nat
deriving DecidableEq

def lead (b : Nat) : Text × Option Pending :=
  if b < 0x80 then ([Char.ofNat b], none)
  else if b < 0xC2 then ([replacement], none)
  else if b < 0xE0 then ([], some ⟨b - 0xC0, 0, 0x80, 0xBF⟩)
  else if b < 0xF0 then
    ([], some ⟨b - 0xE0, 1, if b = 0xE0 then 0xA0 else 0x80, if b = 0xED then 0x9F else 0xBF⟩)
  else if b < 0xF5 then
    ([], some ⟨b - 0xF0, 2, if b = 0xF0 then 0x90 else 0x80, if b = 0xF4 then 0x8F else 0xBF⟩)
  else ([replacement], none)

def follow (p : Pending) (b : Nat) : Text × Option Pending :=
  if p.lo ≤ b ∧ b ≤ p.hi then
    let bits := p.bits * 64 + (b - 0x80)
    match p.missing with
    | 0 => ([Char.ofNat bits], none)
    | n + 1 => ([], some ⟨bits, n, 0x80, 0xBF⟩)
  else (replacement :: (lead b).1, (lead b).2)

def step (state : Option Pending) (b : UInt8) : Text × Option Pending :=
  state.elim (lead b.toNat) (follow · b.toNat)

def decodeFrom : Option Pending → List UInt8 → Text
  | none, [] => []
  | some _, [] => [replacement]
  | state, b :: bs => (step state b).1 ++ decodeFrom (step state b).2 bs

def decode (bs : List UInt8) : Text := decodeFrom none bs

/-- A first octet is a character of its own, or one is pending after it. -/
theorem length_lead (b : Nat) : (lead b).1.length + (lead b).2.isSome.toNat = 1 := by
  unfold lead
  repeat' split
  all_goals rfl

/-- A further octet ends what is pending, and may be a first one besides. -/
theorem length_follow_le (p : Pending) (b : Nat) :
    (follow p b).1.length + (follow p b).2.isSome.toNat ≤ 2 := by
  have hlead := length_lead b
  unfold follow
  split
  · cases p.missing <;> exact Nat.le_succ 1
  · change (lead b).1.length + 1 + (lead b).2.isSome.toNat ≤ 2
    omega

theorem length_step_le (state : Option Pending) (b : UInt8) :
    (step state b).1.length + (step state b).2.isSome.toNat ≤ state.isSome.toNat + 1 := by
  cases state with
  | none => exact Nat.le_of_eq (length_lead b.toNat)
  | some p => exact length_follow_le p b.toNat

theorem decodeFrom_cons (state : Option Pending) (b : UInt8) (bs : List UInt8) :
    decodeFrom state (b :: bs) = (step state b).1 ++ decodeFrom (step state b).2 bs := by
  cases state <;> rfl

theorem length_decodeFrom_le (state : Option Pending) (bs : List UInt8) :
    (decodeFrom state bs).length ≤ state.isSome.toNat + bs.length := by
  induction bs generalizing state with
  | nil => cases state <;> exact Nat.le_refl _
  | cons b bs ih =>
    have hstep := length_step_le state b
    have hrest := ih (step state b).2
    rw [decodeFrom_cons, List.length_append, List.length_cons]
    omega

/-- No octet makes for more than one character. -/
theorem length_decode_le (bs : List UInt8) : (decode bs).length ≤ bs.length :=
  Nat.le_trans (length_decodeFrom_le none bs) (Nat.le_of_eq (Nat.zero_add _))

end TracedText.Utf8
