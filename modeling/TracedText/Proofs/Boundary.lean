import TracedText.Utf8

/-!
# Octet positions that lie between two characters

A number of octets is a boundary of a text when it is a whole number of its characters. At
boundaries a cut in octets is a cut in characters, at the position `charCount`, and it cuts the
UTF-8 form just there too. A list of matches is well formed when its spans are in order, on
boundaries, and apart from each other.
-/
namespace TracedText

variable {t u : Text} {m n : Nat}

def IsBoundary (t : Text) (n : Nat) : Prop := octetLength (takeOctets n t) = n

instance : Decidable (IsBoundary t n) := instDecidableEqNat _ _

theorem isBoundary_octetLength (t u : Text) : IsBoundary (t ++ u) (octetLength t) :=
  congrArg octetLength (takeOctets_octetLength t u)

theorem isBoundary_iff : IsBoundary t n ↔ ∃ v w, t = v ++ w ∧ n = octetLength v := by
  constructor
  · intro h
    exact ⟨takeOctets n t, dropOctets n t, (takeOctets_append_dropOctets n t).symm, h.symm⟩
  · rintro ⟨v, w, rfl, rfl⟩
    exact isBoundary_octetLength v w

theorem IsBoundary.le_octetLength (h : IsBoundary t n) : n ≤ octetLength t := by
  obtain ⟨v, w, rfl, rfl⟩ := isBoundary_iff.mp h
  rw [octetLength_append]
  exact Nat.le_add_right _ _

/-- The number of characters within the first `n` octets. -/
def charCount (t : Text) (n : Nat) : Nat := (takeOctets n t).length

/-- The span in characters. -/
def Span.inChars (t : Text) (s : Span) : Span := ⟨charCount t s.start, charCount t s.stop⟩

/-- Something lies between the two spans, or they touch and neither is empty. -/
def Span.Clears (s s' : Span) : Prop :=
  s.stop < s'.start ∨ s.start < s.stop ∧ s.stop = s'.start ∧ s'.start < s'.stop

instance (s s' : Span) : Decidable (s.Clears s') := instDecidableOr

theorem Span.Clears.stop_le {s s' : Span} (h : s.Clears s') : s.stop ≤ s'.start :=
  h.elim Nat.le_of_lt fun h' => Nat.le_of_eq h'.2.1

/-- Matches as a search gives them, from left to right. Any of them may be empty. -/
structure IsMatchList (t : Text) (ms : List Span) : Prop where
  ordered : ∀ m ∈ ms, m.start ≤ m.stop
  boundary : ∀ m ∈ ms, IsBoundary t m.start ∧ IsBoundary t m.stop
  apart : ms.Pairwise fun m m' => m.stop ≤ m'.start

theorem IsMatchList.tail {m : Span} {ms : List Span} (h : IsMatchList t (m :: ms)) :
    IsMatchList t ms :=
  ⟨fun m' hm' => h.ordered m' (List.mem_cons_of_mem _ hm'),
    fun m' hm' => h.boundary m' (List.mem_cons_of_mem _ hm'), h.apart.of_cons⟩

theorem IsMatchList.stop_le {m : Span} {ms : List Span} (h : IsMatchList t (m :: ms)) :
    ∀ m' ∈ ms, m.stop ≤ m'.start := (List.pairwise_cons.mp h.apart).1

theorem takeOctets_append (u v : Text) (h : octetLength u ≤ n) :
    takeOctets n (u ++ v) = u ++ takeOctets (n - octetLength u) v := by
  induction u generalizing n with
  | nil => rfl
  | cons c u ih =>
    simp only [octetLength] at h
    have hc : c.utf8Size ≤ n := by omega
    simp only [List.cons_append, takeOctets, octetLength]
    rw [if_pos hc, ih (by omega), Nat.sub_sub]

theorem slice_append (u w v : Text) :
    slice (u ++ w ++ v) ⟨octetLength u, octetLength (u ++ w)⟩ = w := by
  rw [slice, List.append_assoc, dropOctets_octetLength, Span.length, octetLength_append,
    Nat.add_sub_cancel_left, takeOctets_octetLength]

theorem dropOctets_eq_drop (t : Text) (n : Nat) : dropOctets n t = t.drop (charCount t n) := by
  have hsplit := takeOctets_append_dropOctets n t
  calc
    _ = (takeOctets n t ++ dropOctets n t).drop (takeOctets n t).length := List.drop_left.symm
    _ = _ := by rw [hsplit, charCount]

theorem charCount_le_length (t : Text) (n : Nat) : charCount t n ≤ t.length := by
  rw [← takeOctets_append_dropOctets n t, List.length_append, takeOctets_append_dropOctets]
  exact Nat.le_add_right _ _

theorem isBoundary_zero (t : Text) : IsBoundary t 0 := by
  have h := congrArg octetLength (takeOctets_octetLength [] t)
  exact h

theorem charCount_zero (t : Text) : charCount t 0 = 0 := by
  have h := congrArg List.length (takeOctets_octetLength [] t)
  exact h

namespace IsBoundary

variable (hm : IsBoundary t m) (hle : m ≤ n)
include hm hle

/-- What lies before a later position is what lies before the boundary and what lies between. -/
theorem takeOctets_eq : takeOctets n t = takeOctets m t ++ slice t ⟨m, n⟩ := by
  have hlen : octetLength (takeOctets m t) ≤ n := Nat.le_trans (Nat.le_of_eq hm) hle
  have h := takeOctets_append (takeOctets m t) (dropOctets m t) hlen
  rw [takeOctets_append_dropOctets, show octetLength (takeOctets m t) = m from hm] at h
  exact h

theorem charCount_eq : charCount t n = charCount t m + (slice t ⟨m, n⟩).length := by
  rw [charCount, hm.takeOctets_eq hle, List.length_append, charCount]

theorem charCount_le : charCount t m ≤ charCount t n := by
  rw [hm.charCount_eq hle]
  exact Nat.le_add_right _ _

theorem slice_eq :
    slice t ⟨m, n⟩ = (t.drop (charCount t m)).take (charCount t n - charCount t m) := by
  have htake := hm.takeOctets_eq hle
  rw [hm.charCount_eq hle, Nat.add_sub_cancel_left, ← dropOctets_eq_drop]
  have hsplit := takeOctets_append_dropOctets n t
  rw [htake, List.append_assoc] at hsplit
  have hdrop := (hsplit.trans (takeOctets_append_dropOctets m t).symm)
  rw [← List.append_cancel_left hdrop, List.take_left]

end IsBoundary

theorem IsBoundary.charCount_lt (hm : IsBoundary t m) (hn : IsBoundary t n) (hlt : m < n) :
    charCount t m < charCount t n := by
  have hle := Nat.le_of_lt hlt
  refine Nat.lt_of_le_of_ne (hm.charCount_le hle) fun heq => Nat.ne_of_lt hlt ?_
  have hslice : slice t ⟨m, n⟩ = [] := by
    have hcount := hm.charCount_eq hle
    exact List.eq_nil_of_length_eq_zero (by omega)
  have htake := congrArg octetLength (hm.takeOctets_eq hle)
  rw [hslice, List.append_nil] at htake
  exact hm.symm.trans (htake.symm.trans hn)

/-- Counted in characters instead of octets, spans on boundaries clear one another as before. -/
theorem Span.Clears.inChars {s s' : Span} (h : s.Clears s') (hs : IsBoundary t s.start)
    (hs' : IsBoundary t s.stop) (hr : IsBoundary t s'.start) (hr' : IsBoundary t s'.stop) :
    (s.inChars t).Clears (s'.inChars t) := by
  rcases h with hgap | ⟨hne, htouch, hne'⟩
  · exact Or.inl (hs'.charCount_lt hr hgap)
  · exact Or.inr ⟨hs.charCount_lt hs' hne, congrArg (charCount t) htouch, hr.charCount_lt hr' hne'⟩

theorem IsMatchList.take {ms : List Span} (hms : IsMatchList t ms) (k : Nat) :
    IsMatchList t (ms.take k) :=
  ⟨fun m hm => hms.ordered m (List.mem_of_mem_take hm),
    fun m hm => hms.boundary m (List.mem_of_mem_take hm),
    hms.apart.sublist (List.take_sublist k ms)⟩

theorem IsMatchList.ordered_inChars {ms : List Span} (hms : IsMatchList t ms) :
    ∀ s ∈ ms.map (Span.inChars t), s.start ≤ s.stop := by
  intro s hs
  obtain ⟨m, hm, rfl⟩ := List.mem_map.mp hs
  exact (hms.boundary m hm).1.charCount_le (hms.ordered m hm)

theorem IsMatchList.apart_inChars {ms : List Span} (hms : IsMatchList t ms) :
    (ms.map (Span.inChars t)).Pairwise fun s s' => s.stop ≤ s'.start := by
  rw [List.pairwise_map]
  exact hms.apart.imp_of_mem fun hm _ h => (hms.boundary _ hm).2.charCount_le h

namespace Utf8

theorem encode_append (t u : Text) : encode (t ++ u) = encode t ++ encode u := List.flatMap_append

theorem length_encode (t : Text) : (encode t).length = octetLength t := by
  induction t with
  | nil => rfl
  | cons c t ih =>
    have hcons : encode (c :: t) = String.utf8EncodeChar c ++ encode t := List.flatMap_cons
    rw [hcons, List.length_append, String.length_utf8EncodeChar, ih, octetLength]

theorem encode_takeOctets (h : IsBoundary t n) : encode (takeOctets n t) = (encode t).take n := by
  have hsplit := congrArg encode (takeOctets_append_dropOctets n t)
  rw [encode_append] at hsplit
  rw [← hsplit, List.take_left' ((length_encode _).trans h)]

theorem encode_dropOctets (h : IsBoundary t n) : encode (dropOctets n t) = (encode t).drop n := by
  have hsplit := congrArg encode (takeOctets_append_dropOctets n t)
  rw [encode_append] at hsplit
  rw [← hsplit, List.drop_left' ((length_encode _).trans h)]

theorem encode_slice (hm : IsBoundary t m) (hn : IsBoundary t n) (hle : m ≤ n) :
    encode (slice t ⟨m, n⟩) = ((encode t).drop m).take (n - m) := by
  have htake := congrArg encode (hm.takeOctets_eq hle)
  rw [encode_append, encode_takeOctets hn] at htake
  rw [← List.drop_take, htake, List.drop_left' ((length_encode _).trans hm)]

end Utf8

end TracedText
