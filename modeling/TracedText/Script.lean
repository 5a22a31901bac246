import TracedText.Buffer
import TracedText.Utf8

/-!
# Edit scripts

A script is an initial text and a list of requests, written as octets. A number takes two of them,
the low one first; a number that counts stands for its remainder by one more than the greatest
count allowed. Past the end of the octets all numbers are zero, and texts are cut short. A script
without requests is no script.

A request names its stretch relative to the length of the text it is carried out on, and so
always lies within it. A replay carries out the requests of a script on a buffer and on a plain
text. Octets are read as a session: the replay that is about to begin, and its requests.
-/
namespace TracedText

variable {δ : Type}

structure Request where
  anchor : UInt16
  delete : UInt16
  insert : List UInt8
  located : Bool
deriving DecidableEq

/-- The piece that the request at position `index` of its script puts in. -/
def Request.piece (q : Request) (index : Nat) : Piece δ :=
  let t := Utf8.decode q.insert
  if q.located then .located ⟨t, none, .offset (10000 + index), none⟩ else .bare t

/-- The edit that a request becomes on a text of `n` characters. -/
def Request.edit (q : Request) (n index : Nat) : Edit δ :=
  let start := q.anchor.toNat % (n + 1)
  ⟨start, start + q.delete.toNat % (n - start + 1), [q.piece index]⟩

structure Script where
  initial : Text
  requests : List Request
deriving DecidableEq

namespace Script

def mostInitial : Nat := 4096

def mostRequests : Nat := 128

def mostInsert : Nat := 64

abbrev Reader := StateM (List UInt8)

namespace Reader

def octet : Reader UInt8 := fun bs => (bs.headD 0, bs.tail)

def octets (n : Nat) : Reader (List UInt8) := fun bs => (bs.take n, bs.drop n)

def word : Reader UInt16 := do
  let low ← octet
  let high ← octet
  pure (UInt16.ofNat (low.toNat + 256 * high.toNat))

/-- A number of at most `most`. -/
def count (most : Nat) : Reader Nat := do
  let w ← word
  pure (w.toNat % (most + 1))

theorem count_le (most : Nat) (bs : List UInt8) : ((count most).run bs).1 ≤ most :=
  Nat.le_of_lt_succ (Nat.mod_lt _ (Nat.succ_pos most))

def request : Reader Request := do
  let anchor ← word
  let delete ← word
  let flags ← octet
  let insert ← octets (← count mostInsert)
  pure ⟨anchor, delete, insert, flags.toNat % 2 = 1⟩

def requests : Nat → Reader (List Request)
  | 0 => pure []
  | n + 1 => do
    let q ← request
    let qs ← requests n
    pure (q :: qs)

def script : Reader Script := do
  let initial ← octets (← count mostInitial)
  let qs ← requests (← count mostRequests)
  pure ⟨Utf8.decode initial, qs⟩

end Reader

def decode? (bs : List UInt8) : Option Script :=
  let s := (Reader.script.run bs).1
  if s.requests.isEmpty then none else some s

theorem length_initial_le {bs : List UInt8} {s : Script} (h : decode? bs = some s) :
    s.initial.length ≤ mostInitial := by
  obtain ⟨n, octets, hn, hinitial⟩ : ∃ n octets, n ≤ mostInitial ∧
      (Reader.script.run bs).1.initial = Utf8.decode (List.take n octets) :=
    ⟨_, _, Reader.count_le mostInitial bs, rfl⟩
  simp only [decode?] at h
  split at h
  · cases h
  · obtain rfl := Option.some.inj h
    rw [hinitial]
    exact Nat.le_trans (Utf8.length_decode_le _) (Nat.le_trans (List.length_take_le n octets) hn)

def encodeWord (n : Nat) : List UInt8 := [UInt8.ofNat (n % 256), UInt8.ofNat (n / 256 % 256)]

def encodeRequest (q : Request) : List UInt8 :=
  encodeWord q.anchor.toNat ++ encodeWord q.delete.toNat ++ [if q.located then 1 else 0] ++
    encodeWord q.insert.length ++ q.insert

def encode (s : Script) : List UInt8 :=
  encodeWord (octetLength s.initial) ++ Utf8.encode s.initial ++
    encodeWord s.requests.length ++ s.requests.flatMap encodeRequest

end Script

/-- A buffer and a plain text that are given the same edits. -/
structure Replay (δ : Type) where
  buffer : Buffer δ
  model : Text
deriving DecidableEq

namespace Replay

def ofText (t : Text) : Replay δ := ⟨.ofSource t none, t⟩

/-- Carries out the request at position `index` on both. -/
def step (r : Replay δ) (index : Nat) (q : Request) : Except RangeError (Replay δ) :=
  let e := q.edit r.model.length index
  (r.buffer.tryApply e).map fun b => ⟨b, e.applyToText r.model⟩

/-- Carries out requests, of which the first is at position `index`. -/
def run (r : Replay δ) (index : Nat) : List Request → Except RangeError (Replay δ)
  | [] => .ok r
  | q :: qs => (r.step index q).bind fun r => r.run (index + 1) qs

end Replay

/-- A replay with the requests that are still to be carried out. -/
structure Session (δ : Type) extends Replay δ where
  requests : List Request
deriving DecidableEq

namespace Session

def ofScript (s : Script) : Session δ := { Replay.ofText s.initial with requests := s.requests }

def decode? (bs : List UInt8) : Option (Session δ) := (Script.decode? bs).map ofScript

end Session

end TracedText
