import TracedText.Proofs.Matches

/-!
# What a search finds and what it leaves out

Matches stand where the matcher says that the rest of the text begins with one. For a literal this
means that each of them is the literal, and that no occurrence is left out but those that overlap a
match which starts before them. A single character cannot overlap itself, so it is found wherever it
stands; the empty literal is found between any two characters and at both ends.
-/
namespace TracedText

variable {t u v w needle : Text} {c : Char} {s : Span} {n pos covered : Nat} {atStart ended : Bool}

namespace Matcher

theorem slice_spanAt (u w : Text) (n : Nat) :
    slice (u ++ w) (spanAt (octetLength u) n w) = w.take n := by
  have h := slice_append u (w.take n) (w.drop n)
  rwa [List.append_assoc, List.take_append_drop, octetLength_append] at h

theorem literal_eq_some_iff : literal needle atStart t = some n ↔
    needle <+: t ∧ n = needle.length := by
  simp only [literal, List.isPrefixOf_iff_prefix]
  split
  · rename_i h
    simp only [h, Option.some.injEq, true_and, eq_comm]
  · rename_i h
    simp only [h, reduceCtorEq, false_and]

theorem octetLength_add_utf8Size (u : Text) (c : Char) :
    octetLength u + c.utf8Size = octetLength (u ++ [c]) := by
  rw [octetLength_append]
  rfl

/-- With `u` gone through and `t` to come. -/
theorem exists_of_mem_allFrom {m : Matcher}
    (h : s ∈ m.allFrom atStart (octetLength u) covered ended t) :
    ∃ v w n first, t = v ++ w ∧ m first w = some n ∧ s = spanAt (octetLength (u ++ v)) n w := by
  induction t generalizing u atStart covered ended with
  | nil =>
    unfold allFrom at h
    cases hmatch : m atStart [] with
    | none =>
      rw [hmatch] at h
      exact absurd h List.not_mem_nil
    | some n =>
      rw [hmatch] at h
      have hs := List.mem_singleton.mp (List.mem_ite_nil_left.mp h).2
      exact ⟨[], [], n, atStart, rfl, hmatch, by rw [hs, List.append_nil]⟩
  | cons c t ih =>
    have here {n : Nat} (hmatch : m atStart (c :: t) = some n)
        (hs : s = spanAt (octetLength u) n (c :: t)) :
        ∃ v w n first, c :: t = v ++ w ∧ m first w = some n ∧
          s = spanAt (octetLength (u ++ v)) n w :=
      ⟨[], c :: t, n, atStart, rfl, hmatch, by rw [hs, List.append_nil]⟩
    have later {k : Nat} {ended : Bool}
        (h : s ∈ m.allFrom false (octetLength u + c.utf8Size) k ended t) :
        ∃ v w n first, c :: t = v ++ w ∧ m first w = some n ∧
          s = spanAt (octetLength (u ++ v)) n w := by
      rw [octetLength_add_utf8Size] at h
      obtain ⟨v, w, n, first, rfl, hmatch, rfl⟩ := ih h
      refine ⟨c :: v, w, n, first, rfl, hmatch, ?_⟩
      rw [List.append_assoc, List.singleton_append]
    cases covered with
    | succ k => exact later h
    | zero =>
      simp only [allFrom] at h
      cases hmatch : m atStart (c :: t) with
      | none =>
        rw [hmatch] at h
        exact later h
      | some n =>
        rw [hmatch] at h
        cases n with
        | zero =>
          rcases List.mem_append.mp h with h | h
          · exact here hmatch (List.mem_singleton.mp (List.mem_ite_nil_left.mp h).2)
          · exact later h
        | succ n =>
          rcases List.mem_cons.mp h with h | h
          · exact here hmatch h
          · exact later h

/-- Each match of a literal is the literal. -/
theorem slice_of_mem_literal
    (h : s ∈ (literal needle).allFrom atStart (octetLength u) covered ended t) :
    slice (u ++ t) s = needle := by
  obtain ⟨v, w, n, first, rfl, hmatch, rfl⟩ := exists_of_mem_allFrom h
  obtain ⟨hfront, rfl⟩ := literal_eq_some_iff.mp hmatch
  rw [← List.append_assoc, slice_spanAt]
  exact (List.prefix_iff_eq_take.mp hfront).symm

theorem octetLength_lt_take (hlt : v.length < n) (hw : w ≠ []) :
    octetLength v < octetLength ((v ++ w).take n) := by
  have htake : (v ++ w).take n = v ++ w.take (n - v.length) := by
    rw [List.take_append, List.take_of_length_le (Nat.le_of_lt hlt)]
  have hpos : 0 < octetLength (w.take (n - v.length)) := by
    apply octetLength_pos
    rw [Ne, List.take_eq_nil_iff]
    exact not_or.mpr ⟨by omega, hw⟩
  rw [htake, octetLength_append]
  omega

/-- An occurrence of a literal is a match, or a match from further to the left reaches into it. With
`u` gone through, the match before all of these may be the one that does. -/
theorem occurrence_covered (u v : Text) (atStart ended : Bool) (covered : Nat)
    (hfront : c :: needle <+: w) :
    v.length < covered ∨
      ∃ s ∈ (literal (c :: needle)).allFrom atStart (octetLength u) covered ended (v ++ w),
        s.start ≤ octetLength (u ++ v) ∧ octetLength (u ++ v) < s.stop := by
  have hw : w ≠ [] := hfront.ne_nil (List.cons_ne_nil c needle)
  have hmatch (first : Bool) : literal (c :: needle) first w = some (needle.length + 1) :=
    literal_eq_some_iff.mpr ⟨hfront, rfl⟩
  induction v generalizing u atStart covered ended with
  | nil =>
    cases covered with
    | succ k => exact Or.inl k.succ_pos
    | zero =>
      obtain ⟨d, w, rfl⟩ := List.exists_cons_of_ne_nil hw
      refine Or.inr ⟨spanAt (octetLength u) (needle.length + 1) (d :: w), ?_, ?_, ?_⟩
      · rw [List.nil_append, allFrom, hmatch]
        exact List.mem_cons_self
      · rw [List.append_nil]
        exact Nat.le_refl _
      · have hlt := octetLength_lt_take (v := []) needle.length.succ_pos hw
        rw [List.append_nil]
        exact Nat.lt_add_of_pos_right hlt
  | cons d v ih =>
    have happend : u ++ d :: v = u ++ [d] ++ v := List.append_cons u d v
    have hnext (k : Nat) (ended : Bool) : v.length < k ∨
        ∃ s ∈ (literal (c :: needle)).allFrom false (octetLength u + d.utf8Size) k ended (v ++ w),
          s.start ≤ octetLength (u ++ d :: v) ∧ octetLength (u ++ d :: v) < s.stop := by
      rw [octetLength_add_utf8Size, happend]
      exact ih (u ++ [d]) false ended k
    rw [List.cons_append]
    cases covered with
    | succ k => exact (hnext k ended).imp_left Nat.succ_lt_succ
    | zero =>
      simp only [allFrom]
      cases hhere : literal (c :: needle) atStart (d :: (v ++ w)) with
      | none => exact Or.inr ((hnext 0 false).resolve_left (Nat.not_lt_zero _))
      | some n =>
        obtain ⟨-, rfl⟩ := literal_eq_some_iff.mp hhere
        rcases hnext needle.length true with hlt | ⟨s, hs, hcover⟩
        · refine Or.inr ⟨_, List.mem_cons_self, ?_, ?_⟩
          · rw [octetLength_append]
            exact Nat.le_add_right _ _
          · have hreach := octetLength_lt_take (v := d :: v) (Nat.succ_lt_succ hlt) hw
            rw [octetLength_append]
            exact Nat.add_lt_add_left hreach _
        · exact Or.inr ⟨s, List.mem_cons_of_mem _ hs, hcover⟩

/-- A match of nothing stands at every boundary. -/
theorem mem_allFrom_empty (atStart : Bool) (pos : Nat) (v w : Text) :
    (⟨pos + octetLength v, pos + octetLength v⟩ : Span) ∈
      (literal []).allFrom atStart pos 0 false (v ++ w) := by
  induction v generalizing atStart pos with
  | nil => cases w <;> exact List.mem_cons_self
  | cons d v ih =>
    have hrest := ih false (pos + d.utf8Size)
    rw [Nat.add_assoc] at hrest
    exact List.mem_cons_of_mem _ hrest

theorem mem_allFrom_singleton (atStart ended : Bool) (pos : Nat) (c : Char) (v w : Text) :
    (⟨pos + octetLength v, pos + octetLength v + c.utf8Size⟩ : Span) ∈
      (literal [c]).allFrom atStart pos 0 ended (v ++ c :: w) := by
  induction v generalizing atStart pos ended with
  | nil =>
    rw [List.nil_append, allFrom, literal_singleton_cons, if_pos rfl]
    exact List.mem_cons_self
  | cons d v ih =>
    have hrest (ended : Bool) := ih false ended (pos + d.utf8Size)
    simp only [Nat.add_assoc] at hrest
    rw [List.cons_append, allFrom, literal_singleton_cons]
    simp only [octetLength, Nat.add_assoc]
    by_cases hd : d = c
    · rw [if_pos hd]
      exact List.mem_cons_of_mem _ (hrest true)
    · rw [if_neg hd]
      exact hrest false

end Matcher

namespace Searcher

theorem slice_of_mem_all_literal (h : s ∈ (literal needle).all t) : slice t s = needle := by
  rw [literal_eq_ofMatcher] at h
  exact Matcher.slice_of_mem_literal (u := []) h

theorem exists_covering_occurrence (hneedle : needle ≠ []) (ht : t = v ++ needle ++ w) :
    ∃ s ∈ (literal needle).all t, s.start ≤ octetLength v ∧ octetLength v < s.stop := by
  obtain ⟨c, needle, rfl⟩ := List.exists_cons_of_ne_nil hneedle
  subst ht
  rw [literal_eq_ofMatcher, List.append_assoc]
  have h := Matcher.occurrence_covered [] v true false 0 (List.prefix_append (c :: needle) w)
  exact h.resolve_left (Nat.not_lt_zero _)

theorem mem_all_empty_iff : s ∈ (literal []).all t ↔ ∃ n, IsBoundary t n ∧ s = ⟨n, n⟩ := by
  rw [literal_eq_ofMatcher]
  constructor
  · intro h
    obtain ⟨v, w, n, first, rfl, hmatch, rfl⟩ := Matcher.exists_of_mem_allFrom (u := []) h
    obtain ⟨-, rfl⟩ := Matcher.literal_eq_some_iff.mp hmatch
    exact ⟨octetLength v, isBoundary_octetLength v w, rfl⟩
  · rintro ⟨n, hn, rfl⟩
    obtain ⟨v, w, rfl, rfl⟩ := isBoundary_iff.mp hn
    have h := Matcher.mem_allFrom_empty true 0 v w
    rwa [Nat.zero_add] at h

theorem mem_all_char_iff : s ∈ (char c).all t ↔
    ∃ v w, t = v ++ c :: w ∧ s = ⟨octetLength v, octetLength v + c.utf8Size⟩ := by
  rw [char_eq_ofMatcher]
  constructor
  · intro h
    obtain ⟨v, w, n, first, rfl, hmatch, rfl⟩ := Matcher.exists_of_mem_allFrom (u := []) h
    obtain ⟨⟨rest, rfl⟩, rfl⟩ := Matcher.literal_eq_some_iff.mp hmatch
    exact ⟨v, rest, rfl, rfl⟩
  · rintro ⟨v, w, rfl, rfl⟩
    have h := Matcher.mem_allFrom_singleton true false 0 c v w
    rwa [Nat.zero_add] at h

end Searcher

end TracedText
