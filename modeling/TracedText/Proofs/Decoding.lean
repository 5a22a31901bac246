import Mathlib.Data.List.Forall2
import Mathlib.Data.Nat.ModEq
import TracedText.Script
import TracedText.Proofs.Boundary

/-!
# Octets that are read back as what they were written for

The octets of a text are read as this text, one character after the other. The same holds of edit
scripts, which can be written in more than one way: a number that counts may be any word with the
right remainder, only one bit of the flags is looked at, and anything may follow the last request.
Each reader takes just the octets of its own part and leaves the rest to the next one.
-/
namespace TracedText

variable {δ : Type}

namespace Utf8

theorem decodeFrom_lead {b : Nat} (h : b < 256) (bs : List UInt8) :
    decodeFrom none (UInt8.ofNat b :: bs) = (lead b).1 ++ decodeFrom (lead b).2 bs := by
  rw [decodeFrom_cons, step, Option.elim_none, UInt8.toNat_ofNat_of_lt' h]

/-- A further octet, with the six bits `w`, that what is pending can go on with. -/
theorem decodeFrom_follow (p : Pending) {w : Nat} (hw : w < 64) (hlo : p.lo ≤ w + 0x80)
    (hhi : w + 0x80 ≤ p.hi) (bs : List UInt8) :
    decodeFrom (some p) (UInt8.ofNat (w + 0x80) :: bs) =
      match p.missing with
      | 0 => Char.ofNat (p.bits * 64 + w) :: decodeFrom none bs
      | n + 1 => decodeFrom (some ⟨p.bits * 64 + w, n, 0x80, 0xBF⟩) bs := by
  have hb : (UInt8.ofNat (w + 0x80)).toNat = w + 0x80 :=
    UInt8.toNat_ofNat_of_lt' (show w + 0x80 < 256 by omega)
  rw [decodeFrom_cons, step, Option.elim_some, hb, follow, if_pos ⟨hlo, hhi⟩, Nat.add_sub_cancel]
  cases p.missing <;> rfl

theorem lead_two {v : Nat} (h : 2 ≤ v) (hv : v < 32) :
    lead (v + 0xC0) = ([], some ⟨v, 0, 0x80, 0xBF⟩) := by
  unfold lead
  rw [if_neg (by omega), if_neg (by omega), if_pos (by omega), Nat.add_sub_cancel]

theorem lead_three {v : Nat} (hv : v < 16) : lead (v + 0xE0) =
    ([], some ⟨v, 1, if v = 0 then 0xA0 else 0x80, if v = 0xD then 0x9F else 0xBF⟩) := by
  have hfirst : v + 0xE0 = 0xE0 ↔ v = 0 := by omega
  have hlast : v + 0xE0 = 0xED ↔ v = 0xD := by omega
  unfold lead
  rw [if_neg (by omega), if_neg (by omega), if_neg (by omega), if_pos (by omega),
    Nat.add_sub_cancel]
  simp only [hfirst, hlast]

theorem lead_four {v : Nat} (hv : v < 5) : lead (v + 0xF0) =
    ([], some ⟨v, 2, if v = 0 then 0x90 else 0x80, if v = 4 then 0x8F else 0xBF⟩) := by
  have hfirst : v + 0xF0 = 0xF0 ↔ v = 0 := by omega
  have hlast : v + 0xF0 = 0xF4 ↔ v = 4 := by omega
  unfold lead
  rw [if_neg (by omega), if_neg (by omega), if_neg (by omega), if_neg (by omega),
    if_pos (by omega), Nat.add_sub_cancel]
  simp only [hfirst, hlast]

theorem decodeFrom_one {n : Nat} (h : n < 0x80) (bs : List UInt8) :
    decodeFrom none (UInt8.ofNat n :: bs) = Char.ofNat n :: decodeFrom none bs := by
  rw [decodeFrom_lead (by omega), lead, if_pos h]
  rfl

theorem decodeFrom_two {n : Nat} (h : 0x80 ≤ n) (hn : n < 0x800) (bs : List UInt8) :
    decodeFrom none (UInt8.ofNat (n / 64 % 32 + 0xC0) :: UInt8.ofNat (n % 64 + 0x80) :: bs) =
      Char.ofNat n :: decodeFrom none bs := by
  have hbits : n / 64 % 32 * 64 + n % 64 = n := by omega
  rw [decodeFrom_lead (by omega), lead_two (by omega) (by omega), List.nil_append,
    decodeFrom_follow _ (by omega) (Nat.le_add_left ..) (by dsimp only; omega)]
  simp only [hbits]

/-- The number is no surrogate, so the second octet lies in the range that the first one sets. -/
theorem decodeFrom_three {n : Nat} (h : 0x800 ≤ n) (hn : n < 0x10000)
    (hvalid : n < 0xD800 ∨ 0xDFFF < n) (bs : List UInt8) :
    decodeFrom none (UInt8.ofNat (n / 4096 % 16 + 0xE0) :: UInt8.ofNat (n / 64 % 64 + 0x80) ::
      UInt8.ofNat (n % 64 + 0x80) :: bs) = Char.ofNat n :: decodeFrom none bs := by
  have hbits : (n / 4096 % 16 * 64 + n / 64 % 64) * 64 + n % 64 = n := by omega
  rw [decodeFrom_lead (by omega), lead_three (by omega), List.nil_append,
    decodeFrom_follow _ (by omega) (by dsimp only; split <;> omega)
      (by dsimp only; split <;> omega)]
  dsimp only
  rw [decodeFrom_follow _ (by omega) (Nat.le_add_left ..) (by dsimp only; omega)]
  simp only [hbits]

theorem decodeFrom_four {n : Nat} (h : 0x10000 ≤ n) (hn : n < 0x110000) (bs : List UInt8) :
    decodeFrom none (UInt8.ofNat (n / 262144 % 8 + 0xF0) :: UInt8.ofNat (n / 4096 % 64 + 0x80) ::
      UInt8.ofNat (n / 64 % 64 + 0x80) :: UInt8.ofNat (n % 64 + 0x80) :: bs) =
      Char.ofNat n :: decodeFrom none bs := by
  have hbits : ((n / 262144 % 8 * 64 + n / 4096 % 64) * 64 + n / 64 % 64) * 64 + n % 64 = n := by
    omega
  rw [decodeFrom_lead (by omega), lead_four (by omega), List.nil_append,
    decodeFrom_follow _ (by omega) (by dsimp only; split <;> omega)
      (by dsimp only; split <;> omega)]
  dsimp only
  rw [decodeFrom_follow _ (by omega) (Nat.le_add_left ..) (by dsimp only; omega)]
  dsimp only
  rw [decodeFrom_follow _ (by omega) (Nat.le_add_left ..) (by dsimp only; omega)]
  simp only [hbits]

/-- The octets of a character are read as this character, whatever follows them. -/
theorem decodeFrom_encodeChar (c : Char) (bs : List UInt8) :
    decodeFrom none (String.utf8EncodeChar c ++ bs) = c :: decodeFrom none bs := by
  have hvalid : c.val.toNat < 0xD800 ∨ 0xDFFF < c.val.toNat ∧ c.val.toNat < 0x110000 := c.valid
  have hc : Char.ofNat c.val.toNat = c := c.ofNat_toNat
  unfold String.utf8EncodeChar
  dsimp only
  split
  · exact (decodeFrom_one (by omega) bs).trans (by rw [hc])
  split
  · exact (decodeFrom_two (by omega) (by omega) bs).trans (by rw [hc])
  split
  · exact (decodeFrom_three (by omega) (by omega) (by omega) bs).trans (by rw [hc])
  · exact (decodeFrom_four (by omega) (by omega) bs).trans (by rw [hc])

theorem decode_encode (t : Text) : decode (encode t) = t := by
  induction t with
  | nil => rfl
  | cons c t ih =>
    have hcons : encode (c :: t) = String.utf8EncodeChar c ++ encode t := List.flatMap_cons
    rw [decode, hcons, decodeFrom_encodeChar]
    exact congrArg (c :: ·) ih

end Utf8

open Script

/-- The ways to write a request. Of the flags only the lowest bit counts, and of the word before the
octets to put in only the remainder. -/
inductive Request.SpelledBy (q : Request) : List UInt8 → Prop
  | intro (flags : UInt8) (size : UInt16) (hflags : q.located = decide (flags.toNat % 2 = 1))
      (hsize : size.toNat ≡ q.insert.length [MOD mostInsert + 1]) :
      q.SpelledBy (encodeWord q.anchor.toNat ++ encodeWord q.delete.toNat ++ [flags] ++
        encodeWord size.toNat ++ q.insert)

namespace Script

/-- The ways to write a script. -/
inductive SpelledBy (s : Script) : List UInt8 → Prop
  | intro (size count : UInt16) (spellings : List (List UInt8))
      (hsize : size.toNat ≡ octetLength s.initial [MOD mostInitial + 1])
      (hcount : count.toNat ≡ s.requests.length [MOD mostRequests + 1])
      (hrequests : List.Forall₂ Request.SpelledBy s.requests spellings) :
      s.SpelledBy (encodeWord size.toNat ++ Utf8.encode s.initial ++ encodeWord count.toNat ++
        spellings.flatten)

/-- There are requests, and nothing is longer than its number can say. -/
structure Fits (s : Script) : Prop where
  initial : octetLength s.initial ≤ mostInitial
  nonempty : s.requests ≠ []
  requests : s.requests.length ≤ mostRequests
  inserts : ∀ q ∈ s.requests, q.insert.length ≤ mostInsert

namespace Reader

variable {most n : Nat} {w : UInt16} {q : Request} {bs : List UInt8}

theorem word_encodeWord (w : UInt16) (bs : List UInt8) :
    word (encodeWord w.toNat ++ bs) = (w, bs) := by
  have hlow : (UInt8.ofNat (w.toNat % 256)).toNat = w.toNat % 256 :=
    UInt8.toNat_ofNat_of_lt' (Nat.mod_lt _ (by decide))
  have hhigh : (UInt8.ofNat (w.toNat / 256 % 256)).toNat = w.toNat / 256 % 256 :=
    UInt8.toNat_ofNat_of_lt' (Nat.mod_lt _ (by decide))
  have hlt : w.toNat < 65536 := w.toNat_lt
  have hsum : w.toNat % 256 + 256 * (w.toNat / 256 % 256) = w.toNat := by omega
  change (UInt16.ofNat ((UInt8.ofNat _).toNat + 256 * (UInt8.ofNat _).toNat), bs) = (w, bs)
  rw [hlow, hhigh, hsum, UInt16.ofNat_toNat]

theorem count_encodeWord (hw : w.toNat ≡ n [MOD most + 1]) (hn : n ≤ most) (bs : List UInt8) :
    count most (encodeWord w.toNat ++ bs) = (n, bs) := by
  have hsame : w.toNat % (most + 1) = n % (most + 1) := hw
  have hmod : w.toNat % (most + 1) = n := hsame.trans (Nat.mod_eq_of_lt (Nat.lt_succ_of_le hn))
  have hcount (bs : List UInt8) :
      count most bs = ((word bs).1.toNat % (most + 1), (word bs).2) := rfl
  rw [hcount, word_encodeWord, hmod]

theorem octets_append (xs bs : List UInt8) : octets xs.length (xs ++ bs) = (xs, bs) := by
  rw [octets, List.take_left, List.drop_left]

theorem request_eq (bs : List UInt8) :
    request bs =
      let anchor := word bs
      let delete := word anchor.2
      let flags := octet delete.2
      let size := count mostInsert flags.2
      let insert := octets size.1 size.2
      (⟨anchor.1, delete.1, insert.1, flags.1.toNat % 2 = 1⟩, insert.2) := rfl

theorem request_append (h : q.SpelledBy bs) (hq : q.insert.length ≤ mostInsert)
    (rest : List UInt8) : request (bs ++ rest) = (q, rest) := by
  obtain ⟨flags, size, hflags, hsize⟩ := h
  have hflag (bs : List UInt8) : octet (flags :: bs) = (flags, bs) := rfl
  simp only [List.append_assoc, List.cons_append, List.nil_append, request_eq, word_encodeWord,
    hflag, count_encodeWord hsize hq, octets_append, ← hflags]

theorem requests_append {qs : List Request} {spellings : List (List UInt8)}
    (h : List.Forall₂ Request.SpelledBy qs spellings) (hqs : ∀ q ∈ qs, q.insert.length ≤ mostInsert)
    (rest : List UInt8) : requests qs.length (spellings.flatten ++ rest) = (qs, rest) := by
  induction h with
  | nil => rfl
  | @cons q bs qs spellings hq _ ih =>
    obtain ⟨hinsert, hinserts⟩ := List.forall_mem_cons.mp hqs
    have hstep (n : Nat) (bs : List UInt8) : requests (n + 1) bs =
      ((request bs).1 :: (requests n (request bs).2).1, (requests n (request bs).2).2) := rfl
    rw [List.flatten_cons, List.append_assoc, List.length_cons, hstep, request_append hq hinsert,
      ih hinserts]

theorem script_eq (bs : List UInt8) :
    script bs =
      let size := count mostInitial bs
      let initial := octets size.1 size.2
      let number := count mostRequests initial.2
      let qs := requests number.1 number.2
      (⟨Utf8.decode initial.1, qs.1⟩, qs.2) := rfl

theorem script_append {s : Script} (hs : s.Fits) (h : s.SpelledBy bs) (rest : List UInt8) :
    script (bs ++ rest) = (s, rest) := by
  obtain ⟨size, count, spellings, hsize, hcount, hrequests⟩ := h
  have hinitial (bs : List UInt8) : octets (octetLength s.initial) (Utf8.encode s.initial ++ bs) =
      (Utf8.encode s.initial, bs) := by
    rw [← Utf8.length_encode, octets_append]
  simp only [List.append_assoc, script_eq, count_encodeWord hsize hs.initial, hinitial,
    count_encodeWord hcount hs.requests, requests_append hrequests hs.inserts, Utf8.decode_encode]

end Reader

end Script

theorem Request.spelledBy_encodeRequest (q : Request) (hq : q.insert.length ≤ mostInsert) :
    q.SpelledBy (encodeRequest q) := by
  have hsize : (UInt16.ofNat q.insert.length).toNat = q.insert.length :=
    UInt16.toNat_ofNat_of_lt' (Nat.lt_of_le_of_lt hq (by decide))
  have h : q.SpelledBy (encodeWord q.anchor.toNat ++ encodeWord q.delete.toNat ++
      [if q.located then 1 else 0] ++
      encodeWord (UInt16.ofNat q.insert.length).toNat ++ q.insert) := by
    refine .intro _ _ ?_ (by rw [hsize])
    cases q.located <;> rfl
  rwa [hsize] at h

namespace Script

theorem spelledBy_encode {s : Script} (hs : s.Fits) : s.SpelledBy s.encode := by
  have hsize : (UInt16.ofNat (octetLength s.initial)).toNat = octetLength s.initial :=
    UInt16.toNat_ofNat_of_lt' (Nat.lt_of_le_of_lt hs.initial (by decide))
  have hcount : (UInt16.ofNat s.requests.length).toNat = s.requests.length :=
    UInt16.toNat_ofNat_of_lt' (Nat.lt_of_le_of_lt hs.requests (by decide))
  have hrequests : List.Forall₂ Request.SpelledBy s.requests (s.requests.map encodeRequest) := by
    rw [List.forall₂_map_right_iff, List.forall₂_same]
    exact fun q hq => q.spelledBy_encodeRequest (hs.inserts q hq)
  have h := SpelledBy.intro (s := s) (UInt16.ofNat (octetLength s.initial))
    (UInt16.ofNat s.requests.length) _ (by rw [hsize]) (by rw [hcount]) hrequests
  rwa [hsize, hcount] at h

/-- Octets that spell a script are read as this script, and what follows them is not looked at.
The session they are read as has its requests, and starts from its text on both sides. To encode
a script is one way to spell it; each of its counting numbers can be written as any word with
the same remainder instead. -/
theorem decode?_spelled {s : Script} (hs : s.Fits) :
    s.SpelledBy s.encode ∧ ∀ bs rest, s.SpelledBy bs →
      decode? (bs ++ rest) = some s ∧
      ∃ x : Session δ, Session.decode? (bs ++ rest) = some x ∧ x.requests = s.requests ∧
        x.model = s.initial ∧ x.buffer = .ofSource s.initial none := by
  refine ⟨spelledBy_encode hs, fun bs rest h => ?_⟩
  have hread : (Reader.script.run (bs ++ rest)).1 = s :=
    congrArg Prod.fst (Reader.script_append hs h rest)
  have hsome : s.requests.isEmpty = false := List.isEmpty_eq_false_iff.mpr hs.nonempty
  have hdecode : decode? (bs ++ rest) = some s := by
    simp only [decode?, hread, hsome, Bool.false_eq_true, if_false]
  refine ⟨hdecode, .ofScript s, ?_, rfl, rfl, rfl⟩
  rw [Session.decode?, hdecode, Option.map_some]

/-- Each number is larger than need be, the flags have other bits set, and the octets that are
put in are not UTF-8. -/
theorem decode?_spelled_large_words :
    let qs : List Request := [⟨5, 7, [0xC3], true⟩, ⟨0xFFFF, 256, [], false⟩]
    let s : Script := ⟨['ä'], qs⟩
    let bs : List UInt8 := [0x03, 0x10, 0xC3, 0xA4, 131, 0, 5, 0, 7, 0, 0xFF, 66, 0, 0xC3,
      0xFF, 0xFF, 0, 1, 2, 65, 0]
    s.Fits ∧ s.SpelledBy bs ∧ decode? (bs ++ [1, 2]) = some s ∧
      ∃ x : Session Nat, Session.decode? (bs ++ [1, 2]) = some x ∧ x.requests = qs ∧
        x.model = ['ä'] ∧ x.buffer = ⟨[.located ⟨['ä'], none, .offset 0, none⟩]⟩ := by
  intro qs s bs
  have hs : s.Fits := ⟨by decide, by decide, by decide, by decide⟩
  have hfirst : Request.SpelledBy ⟨5, 7, [0xC3], true⟩ [5, 0, 7, 0, 0xFF, 66, 0, 0xC3] :=
    .intro 0xFF 66 rfl rfl
  have hsecond : Request.SpelledBy ⟨0xFFFF, 256, [], false⟩ [0xFF, 0xFF, 0, 1, 2, 65, 0] :=
    .intro 2 65 rfl rfl
  have h : s.SpelledBy bs :=
    SpelledBy.intro (s := s) 4099 131 _ (by decide) (by decide) (.cons hfirst (.cons hsecond .nil))
  obtain ⟨-, hall⟩ := decode?_spelled (δ := Nat) hs
  exact ⟨hs, h, hall bs [1, 2] h⟩

end Script

end TracedText
