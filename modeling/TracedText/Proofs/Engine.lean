import TracedText.Proofs.Iteration
import TracedText.Proofs.Matches
import TracedText.Regex.Spelling

/-!
# What an engine for regular expressions promises

The syntax of expressions says which match of an expression is preferred at a position of a text.
An engine that keeps what it documents finds the leftmost of these matches first, and goes on from
match to match. Of the syntax only this is used: the empty expression matches nothing at all, and an
expression that begins with one that stands for a single character matches this character and then
what the rest of it matches.

It follows that all matches are in order and apart, and that an expression that spells a text is
searched for like the text itself.
-/
namespace TracedText

variable {E : RegexEngine} {preferred? : Text → Text → Nat → Option Nat} {t u w : Text} {c : Char}
  {p : Nat} {m : Matcher} {r : CompiledRegex}

/-- What an engine documents, where `preferred? w t p` is the stop of the match of the expression
`w` that is preferred at octet `p` of a text `t`. -/
structure RegexEngine.Documented (E : RegexEngine)
    (preferred? : Text → Text → Nat → Option Nat) : Prop where
  wholeChars {w : Text} {r : CompiledRegex} (h : E.compile? w = some r) (t : Text) :
    WholeChars t (preferred? w t)
  find_leftmost {w : Text} {r : CompiledRegex} (h : E.compile? w = some r) (t : Text) :
    IsLeftmost (preferred? w t) 0 (r.find t)
  findIter_iterates {w : Text} {r : CompiledRegex} (h : E.compile? w = some r) (t : Text) :
    Iterates (preferred? w t) 0 none (r.findIter t)
  preferred?_empty {t : Text} {p : Nat} (hp : IsBoundary t p) : preferred? [] t p = some p
  preferred?_append {c : Char} {t u v w : Text} {p : Nat} (hc : Regex.SpellsChar c v)
    (hu : Regex.Spells u w) (hp : IsBoundary t p) :
    preferred? (v ++ w) t p =
      if (dropOctets p t).head? = some c then preferred? w t (p + c.utf8Size) else none

theorem IsBoundary.add_utf8Size (hp : IsBoundary t p) (h : (dropOctets p t).head? = some c) :
    IsBoundary t (p + c.utf8Size) := by
  obtain ⟨v, w, rfl, rfl⟩ := isBoundary_iff.mp hp
  rw [dropOctets_octetLength] at h
  obtain ⟨w, rfl⟩ := List.head?_eq_some_iff.mp h
  have hnext := isBoundary_octetLength (v ++ [c]) w
  rwa [octetLength_append, ← List.append_cons] at hnext

namespace Matcher

theorem stop?_literal_append (needle u v : Text) :
    (literal needle).stop? (u ++ v) (octetLength u) =
      if needle.isPrefixOf v then some (octetLength u + octetLength needle) else none := by
  rw [stop?_append, literal]
  by_cases h : needle.isPrefixOf v = true
  · rw [if_pos h, if_pos h, Option.map_some, spanAt_of_isPrefixOf _ h]
  · rw [if_neg h, if_neg h, Option.map_none]

theorem stop?_literal_nil (hp : IsBoundary t p) : (literal []).stop? t p = some p := by
  obtain ⟨v, w, rfl, rfl⟩ := isBoundary_iff.mp hp
  rw [stop?_literal_append]
  rfl

theorem stop?_literal_cons (c : Char) (u : Text) (hp : IsBoundary t p) :
    (literal (c :: u)).stop? t p =
      if (dropOctets p t).head? = some c then (literal u).stop? t (p + c.utf8Size) else none := by
  obtain ⟨v, w, rfl, rfl⟩ := isBoundary_iff.mp hp
  rw [dropOctets_octetLength, stop?_literal_append]
  cases w with
  | nil => rfl
  | cons d w =>
    have hrest := stop?_literal_append u (v ++ [d]) w
    rw [← List.append_cons, octetLength_append] at hrest
    by_cases hd : d = c
    · subst hd
      simp only [octetLength, Nat.add_zero] at hrest
      simp only [List.head?_cons, if_true, hrest, List.isPrefixOf_cons_cons, beq_self_eq_true,
        Bool.true_and, octetLength, Nat.add_assoc]
    · have hd' : (c == d) = false := beq_false_of_ne (Ne.symm hd)
      simp only [List.head?_cons, Option.some.injEq, hd, if_false, List.isPrefixOf_cons_cons, hd',
        Bool.false_and, Bool.false_eq_true]

end Matcher

namespace RegexEngine.Documented

variable (hE : E.Documented preferred?)
include hE

/-- An expression that spells a text matches where the text stands. The induction takes one
character after the other from the front of both. -/
theorem preferred?_spelled (h : Regex.Spells u w) (hp : IsBoundary t p) :
    preferred? w t p = (Matcher.literal u).stop? t p := by
  induction h generalizing p with
  | nil => rw [hE.preferred?_empty hp, Matcher.stop?_literal_nil hp]
  | @cons c u v w hc h ih =>
    rw [hE.preferred?_append hc h hp, Matcher.stop?_literal_cons c u hp]
    by_cases hhead : (dropOctets p t).head? = some c
    · rw [if_pos hhead, if_pos hhead, ih (hp.add_utf8Size hhead)]
    · rw [if_neg hhead, if_neg hhead]

theorem preferred?_eq_stop? (hspells : Regex.Spells u w) (h : E.compile? w = some r) (t : Text) :
    preferred? w t = (Matcher.literal u).stop? t := by
  funext p
  by_cases hp : IsBoundary t p
  · exact hE.preferred?_spelled hspells hp
  · have hnone : preferred? w t p = none :=
      Option.eq_none_iff_forall_ne_some.mpr fun q hq => hp (hE.wholeChars h t p q hq).1
    rw [hnone, Matcher.stop?, if_neg hp]

theorem find_eq_head? (h : E.compile? w = some r) (t : Text) :
    r.find t = (r.findIter t).head? :=
  (hE.find_leftmost h t).unique ((hE.findIter_iterates h t).isLeftmost_head? nofun)

theorem isSearchResult (h : E.compile? w = some r) (t : Text) : IsSearchResult t (r.findIter t) :=
  (hE.findIter_iterates h t).isSearchResult (hE.wholeChars h t)

/-- An expression that spells a text is searched for like the text. -/
theorem regex_eq_literal (hspells : Regex.Spells u w) (h : E.compile? w = some r) :
    Searcher.regex r = Searcher.literal u := by
  have hall (t : Text) : r.findIter t = (Searcher.literal u).all t := by
    have hiterates := hE.findIter_iterates h t
    rw [hE.preferred?_eq_stop? hspells h] at hiterates
    rw [Searcher.literal_eq_ofMatcher]
    exact hiterates.unique (Searcher.iterates_ofMatcher (.literal u) t)
  have hfirst (t : Text) : r.find t = (Searcher.literal u).first? t := by
    rw [hE.find_eq_head? h, hall, Searcher.literal_eq_ofMatcher, Searcher.first?_ofMatcher]
  exact congrArg₂ Searcher.mk (funext hfirst) (funext hall)

end RegexEngine.Documented

end TracedText
