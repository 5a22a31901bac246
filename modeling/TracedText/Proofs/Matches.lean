import Mathlib.Data.List.Chain
import TracedText.Proofs.Iteration
import TracedText.Regex.Matcher

/-!
# The matches that a matcher gives

A search with a matcher goes from match to match as a search for all matches has to, whatever the
matcher says. So do the searches for a text and for a single character: what they find is what a
matcher finds that compares the text with what is searched.
-/
namespace TracedText

variable {t u : Text} {ended : Bool} {last : Option Nat}

theorem octetLength_eq_zero_iff : octetLength t = 0 ↔ t = [] := by
  cases t with
  | nil => simp [octetLength]
  | cons c t =>
    have hc := c.utf8Size_pos
    simp only [octetLength, reduceCtorEq, iff_false]
    omega

theorem octetLength_pos (h : t ≠ []) : 0 < octetLength t :=
  Nat.pos_of_ne_zero fun hzero => h (octetLength_eq_zero_iff.mp hzero)

/-- No character ends inside another one. -/
theorem not_isBoundary_within {c : Char} {p : Nat} (hlt : octetLength u < p)
    (hlt' : p < octetLength u + c.utf8Size) : ¬IsBoundary (u ++ c :: t) p := by
  rw [isBoundary_iff]
  rintro ⟨v, w, htext, rfl⟩
  rcases List.append_eq_append_iff.mp htext with ⟨x, rfl, hx⟩ | ⟨x, rfl, -⟩
  · rw [octetLength_append] at hlt hlt'
    cases x with
    | nil => simp [octetLength] at hlt
    | cons d x =>
      obtain rfl : c = d := (List.cons.inj hx).1
      simp only [octetLength] at hlt'
      omega
  · rw [octetLength_append] at hlt
    omega

namespace Matcher

variable (m : Matcher)

/-- Where the match stops that starts at an octet position, if one does. -/
def stop? (t : Text) (p : Nat) : Option Nat :=
  if IsBoundary t p then
    (m (p == 0) (dropOctets p t)).map fun n => (spanAt p n (dropOctets p t)).stop
  else none

theorem wholeChars_stop? (t : Text) : WholeChars t (m.stop? t) := by
  intro p q h
  rw [stop?, Option.ite_none_right_eq_some, Option.map_eq_some_iff] at h
  obtain ⟨hp, n, -, rfl⟩ := h
  refine ⟨hp, ?_, Nat.le_add_right _ _⟩
  obtain ⟨v, w, rfl, rfl⟩ := isBoundary_iff.mp hp
  have hcut : v ++ w = (v ++ w.take n) ++ w.drop n := by
    rw [List.append_assoc, List.take_append_drop]
  rw [dropOctets_octetLength, spanAt, hcut, ← octetLength_append]
  exact isBoundary_octetLength _ _

theorem stop?_append (u v : Text) : m.stop? (u ++ v) (octetLength u) =
    (m u.isEmpty v).map fun n => (spanAt (octetLength u) n v).stop := by
  have hstart : (octetLength u == 0) = u.isEmpty := by
    rw [Bool.eq_iff_iff, beq_iff_eq, List.isEmpty_iff, octetLength_eq_zero_iff]
  rw [stop?, if_pos (isBoundary_octetLength u v), dropOctets_octetLength, hstart]

theorem stop?_past_end : IsLeftmost (m.stop? t) (octetLength t + 1) none := by
  intro p hp
  refine if_neg fun h => ?_
  have hle := h.le_octetLength
  omega

theorem stop?_within (c : Char) {p : Nat} (hlt : octetLength u < p)
    (hlt' : p < octetLength u + c.utf8Size) : m.stop? (u ++ c :: t) p = none :=
  if_neg (not_isBoundary_within hlt hlt')

/-- A search that is free again within a character matches behind it. -/
theorem iterates_within {c : Char} {ms : List Span}
    (hnew : last ≠ some (octetLength u + c.utf8Size))
    (h : Iterates (m.stop? (u ++ c :: t)) (octetLength u + c.utf8Size) last ms) :
    Iterates (m.stop? (u ++ c :: t)) (octetLength u + 1) last ms :=
  h.of_clear (Nat.add_le_add_left c.utf8Size_pos _) hnew fun _ hp hlt => m.stop?_within c hp hlt

theorem iterates_allFrom_end (u : Text) (covered : Nat)
    (hended : ended = decide (last = some (octetLength u))) :
    Iterates (m.stop? u) (octetLength u) last
      (m.allFrom u.isEmpty (octetLength u) covered ended []) := by
  have hend := m.stop?_past_end (t := u)
  have hstop := m.stop?_append u []
  rw [List.append_nil] at hstop
  rw [allFrom]
  cases hmatch : m u.isEmpty [] with
  | none =>
    rw [hmatch] at hstop
    exact .done (hend.of_none hstop)
  | some n =>
    have hempty : spanAt (octetLength u) n [] = ⟨octetLength u, octetLength u⟩ := by
      simp [spanAt, octetLength]
    rw [hmatch, Option.map_some, hempty] at hstop
    have hrest := Iterates.of_empty hstop hended (.done hend)
    rw [List.append_nil (α := Span), ← hempty] at hrest
    exact hrest

/-- With `u` gone through and `t` to come. The induction is on `t`; a match that covers characters
to come holds the position back from which the search goes on. -/
theorem iterates_allFrom (covered : Nat)
    (hended : ended = decide (last = some (octetLength u + octetLength (t.take covered))))
    (hlast : ∀ l ∈ last, l ≤ octetLength u + octetLength (t.take covered)) :
    Iterates (m.stop? (u ++ t)) (octetLength u + octetLength (t.take covered)) last
      (m.allFrom u.isEmpty (octetLength u) covered ended t) := by
  induction t generalizing u covered ended last with
  | nil =>
    rw [List.take_nil, octetLength, Nat.add_zero] at hended ⊢
    rw [List.append_nil]
    exact m.iterates_allFrom_end u covered hended
  | cons c t ih =>
    have hnext (k : Nat) {ended : Bool} {last : Option Nat}
        (hended : ended =
          decide (last = some (octetLength u + c.utf8Size + octetLength (t.take k))))
        (hlast : ∀ l ∈ last, l ≤ octetLength u + c.utf8Size + octetLength (t.take k)) :
        Iterates (m.stop? (u ++ c :: t)) (octetLength u + c.utf8Size + octetLength (t.take k)) last
          (m.allFrom false (octetLength u + c.utf8Size) k ended t) := by
      have hlength : octetLength (u ++ [c]) = octetLength u + c.utf8Size := octetLength_append u [c]
      have hne : (u ++ [c]).isEmpty = false := by simp
      rw [← hlength] at hended hlast ⊢
      rw [List.append_cons, ← hne]
      exact ih k hended hlast
    cases covered with
    | succ k =>
      simp only [List.take_succ_cons, octetLength, ← Nat.add_assoc] at hended hlast ⊢
      exact hnext k hended hlast
    | zero =>
      rw [List.take_zero, octetLength, Nat.add_zero] at hended hlast ⊢
      have hbehind (last : Option Nat) (hlast : ∀ l ∈ last, l ≤ octetLength u) :
          Iterates (m.stop? (u ++ c :: t)) (octetLength u + 1) last
            (m.allFrom false (octetLength u + c.utf8Size) 0 false t) := by
        have hlt (l : Nat) (hl : l ∈ last) : l < octetLength u + c.utf8Size :=
          Nat.lt_of_le_of_lt (hlast l hl) (Nat.lt_add_of_pos_right c.utf8Size_pos)
        have hnew : last ≠ some (octetLength u + c.utf8Size) :=
          fun h => Nat.lt_irrefl _ (hlt _ h)
        exact m.iterates_within hnew
          (hnext 0 (decide_eq_false hnew).symm fun l hl => Nat.le_of_lt (hlt l hl))
      have hstop := m.stop?_append u (c :: t)
      simp only [allFrom]
      cases hmatch : m u.isEmpty (c :: t) with
      | none =>
        rw [hmatch] at hstop
        exact (hbehind last hlast).of_none (fun h => Nat.not_succ_le_self _ (hlast _ h)) hstop
      | some n =>
        rw [hmatch] at hstop
        cases n with
        | zero =>
          exact .of_empty hstop hended (hbehind _ fun l hl => by cases hl; exact Nat.le_refl _)
        | succ n =>
          have hfar : (spanAt (octetLength u) (n + 1) (c :: t)).stop =
              octetLength u + c.utf8Size + octetLength (t.take n) := (Nat.add_assoc ..).symm
          have hrest := hnext n (decide_eq_true rfl).symm
            fun l hl => by cases hl; exact Nat.le_refl _
          rw [← hfar] at hrest
          exact .of_stop? hstop
            (Nat.lt_add_of_pos_right (octetLength_pos (List.cons_ne_nil c (t.take n)))) hrest

/-- The first match is the first of all, when none has come before. -/
theorem firstFrom_eq_head? {atStart : Bool} (pos : Nat) (t : Text) :
    m.firstFrom atStart pos t = (m.allFrom atStart pos 0 false t).head? := by
  induction t generalizing atStart pos with
  | nil =>
    simp only [firstFrom, allFrom]
    cases m atStart [] <;> rfl
  | cons d t ih =>
    simp only [firstFrom, allFrom]
    cases m atStart (d :: t) with
    | none => exact ih _
    | some n => cases n <;> rfl

theorem literal_singleton_cons {atStart : Bool} (c d : Char) (t : Text) :
    literal [c] atStart (d :: t) = if d = c then some 1 else none := by
  have heq : [c].isPrefixOf (d :: t) = (d == c) := by
    rw [List.isPrefixOf, List.isPrefixOf, Bool.and_true, BEq.comm]
  simp only [literal, heq, beq_iff_eq, List.length_singleton]

theorem spanAt_of_isPrefixOf (pos : Nat) (h : u.isPrefixOf t = true) :
    spanAt pos u.length t = ⟨pos, pos + octetLength u⟩ := by
  rw [spanAt, ← List.prefix_iff_eq_take.mp (List.isPrefixOf_iff_prefix.mp h)]

theorem firstFrom_literal (needle : Text) (atStart : Bool) (pos : Nat) (t : Text) :
    (literal needle).firstFrom atStart pos t =
      (occurrence? needle pos t).map fun start => ⟨start, start + octetLength needle⟩ := by
  induction t generalizing atStart pos with
  | nil =>
    cases needle with
    | nil => rfl
    | cons c needle => rfl
  | cons c t ih =>
    rw [firstFrom, occurrence?, literal]
    by_cases h : needle.isPrefixOf (c :: t) = true
    · rw [if_pos h, if_pos h]
      exact congrArg some (spanAt_of_isPrefixOf pos h)
    · rw [if_neg h, if_neg h]
      exact ih false _

theorem allFrom_literal (needle : Text) (atStart ended : Bool) (pos covered : Nat) (t : Text)
    (hended : needle = [] → ended = false) :
    (literal needle).allFrom atStart pos covered ended t =
      (occurrences needle pos covered t).map fun (start, m) => ⟨start, start + octetLength m⟩ := by
  induction t generalizing atStart ended pos covered with
  | nil =>
    cases needle with
    | nil =>
      obtain rfl := hended rfl
      rfl
    | cons c needle => rfl
  | cons c t ih =>
    cases covered with
    | succ k => exact ih false ended _ k hended
    | zero =>
      simp only [allFrom, occurrences, literal]
      by_cases h : needle.isPrefixOf (c :: t) = true
      · rw [if_pos h, if_pos h, List.map_cons]
        cases needle with
        | nil =>
          obtain rfl := hended rfl
          exact congrArg (List.cons _) (ih false false _ 0 fun _ => rfl)
        | cons d needle =>
          exact congrArg (List.cons _) (ih false true _ needle.length nofun)
      · rw [if_neg h, if_neg h]
        exact ih false false _ 0 fun _ => rfl

theorem firstFrom_singleton (c : Char) (atStart : Bool) (pos : Nat) (t : Text) :
    (literal [c]).firstFrom atStart pos t =
      (charOccurrence? c pos t).map fun start => ⟨start, start + c.utf8Size⟩ := by
  induction t generalizing atStart pos with
  | nil => rfl
  | cons d t ih =>
    rw [firstFrom, charOccurrence?, literal_singleton_cons]
    by_cases h : d = c
    · rw [if_pos h, if_pos h, h]
      rfl
    · rw [if_neg h, if_neg h]
      exact ih false _

theorem allFrom_singleton (c : Char) (atStart ended : Bool) (pos : Nat) (t : Text) :
    (literal [c]).allFrom atStart pos 0 ended t =
      (charOccurrences c pos t).map fun (start, m) => ⟨start, start + octetLength m⟩ := by
  induction t generalizing atStart ended pos with
  | nil => rfl
  | cons d t ih =>
    rw [allFrom, charOccurrences, literal_singleton_cons]
    by_cases h : d = c
    · rw [if_pos h, if_pos h, List.map_cons]
      exact congrArg (List.cons _) (ih false true _)
    · rw [if_neg h, if_neg h]
      exact ih false false _

end Matcher

namespace Searcher

theorem literal_eq_ofMatcher (needle : Text) : literal needle = ofMatcher (.literal needle) := by
  have hfirst (t : Text) := (Matcher.firstFrom_literal needle true 0 t).symm
  have hall (t : Text) := (Matcher.allFrom_literal needle true false 0 0 t fun _ => rfl).symm
  exact congrArg₂ mk (funext hfirst) (funext hall)

theorem char_eq_ofMatcher (c : Char) : char c = ofMatcher (.literal [c]) := by
  have hfirst (t : Text) := (Matcher.firstFrom_singleton c true 0 t).symm
  have hall (t : Text) := (Matcher.allFrom_singleton c true false 0 t).symm
  exact congrArg₂ mk (funext hfirst) (funext hall)

/-- A character and the text of this character alone are searched for in two
ways, which find the same. -/
theorem char_eq_literal (c : Char) : char c = literal [c] :=
  (char_eq_ofMatcher c).trans (literal_eq_ofMatcher [c]).symm

variable (m : Matcher) (t : Text)

theorem iterates_ofMatcher : Iterates (m.stop? t) 0 none ((ofMatcher m).all t) :=
  m.iterates_allFrom (u := []) 0 rfl nofun

theorem first?_ofMatcher : (ofMatcher m).first? t = ((ofMatcher m).all t).head? :=
  m.firstFrom_eq_head? 0 t

theorem isSearchResult_ofMatcher : IsSearchResult t ((ofMatcher m).all t) :=
  (iterates_ofMatcher m t).isSearchResult (m.wholeChars_stop? t)

theorem isMatchList_ofMatcher : IsMatchList t ((ofMatcher m).all t) :=
  (isSearchResult_ofMatcher m t).wellFormed

theorem clears_ofMatcher : ((ofMatcher m).all t).IsChain Span.Clears :=
  (isSearchResult_ofMatcher m t).clears.isChain

end Searcher

end TracedText
