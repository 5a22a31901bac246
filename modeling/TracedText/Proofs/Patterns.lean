import TracedText.Proofs.Literals
import TracedText.Proofs.Occurrences

/-!
# Patterns of all kinds

A pattern is a text, as such or as a string, a single character, or a regular expression of an
engine that keeps what it documents; any of them may be borrowed. Each kind has a search of its
own. All of them give well-formed matches, and where patterns of several kinds stand for the
same text they find the same.
-/
namespace TracedText.Searcher

variable {E : RegexEngine} {preferred? : Text → Text → Nat → Option Nat} {s : Searcher}
  {needle : Text}

inductive IsPattern (E : RegexEngine) : Searcher → Prop
  | literal (needle : Text) : IsPattern E (literal needle)
  | string (s : String) : IsPattern E (string s)
  | char (c : Char) : IsPattern E (char c)
  | regex {w : Text} {r : CompiledRegex} (h : E.compile? w = some r) : IsPattern E (regex r)
  | ref {s : Searcher} (h : IsPattern E s) : IsPattern E s.ref

/-- The patterns that stand for a given text. -/
inductive IsLiteral (E : RegexEngine) (needle : Text) : Searcher → Prop
  | literal : IsLiteral E needle (literal needle)
  | string {s : String} (h : s.toList = needle) : IsLiteral E needle (string s)
  | char {c : Char} (h : [c] = needle) : IsLiteral E needle (char c)
  | regex {w : Text} {r : CompiledRegex} (hw : Regex.Spells needle w) (h : E.compile? w = some r) :
    IsLiteral E needle (regex r)
  | ref {s : Searcher} (h : IsLiteral E needle s) : IsLiteral E needle s.ref

theorem eq_literal_of_isLiteral (hE : E.Documented preferred?) (h : IsLiteral E needle s) :
    s = literal needle := by
  induction h with
  | literal => rfl
  | string h => exact congrArg literal h
  | char h => rw [char_eq_literal, h]
  | regex hw h => exact hE.regex_eq_literal hw h
  | ref _ ih => exact ih

theorem literal_wellFormed (needle t : Text) : IsSearchResult t ((literal needle).all t) ∧
    (literal needle).first? t = ((literal needle).all t).head? := by
  rw [literal_eq_ofMatcher]
  exact ⟨isSearchResult_ofMatcher _ t, first?_ofMatcher _ t⟩

theorem IsPattern.wellFormed (hE : E.Documented preferred?) (h : IsPattern E s) (t : Text) :
    IsSearchResult t (s.all t) ∧ s.first? t = (s.all t).head? := by
  induction h with
  | literal needle => exact literal_wellFormed needle t
  | string s => exact literal_wellFormed s.toList t
  | char c =>
    rw [char_eq_literal]
    exact literal_wellFormed [c] t
  | regex h => exact ⟨hE.isSearchResult h t, hE.find_eq_head? h t⟩
  | ref _ ih => exact ih

/-- Whatever the kind of a pattern, what it finds is in order, apart and of whole characters,
and its first match is the first of all. A literal finds only itself, and every occurrence
unless a match from further to the left reaches into it; the empty literal stands at every
boundary, and a single character is found wherever it stands. The patterns that stand for a text
find the same, and every text can be written as an expression. -/
theorem patterns_agree (hE : E.Documented preferred?) (t : Text) :
    (∀ s, IsPattern E s → IsSearchResult t (s.all t) ∧ s.first? t = (s.all t).head?) ∧
    (∀ needle, (∀ m ∈ (literal needle).all t, slice t m = needle) ∧
      (needle ≠ [] → ∀ u v, t = u ++ needle ++ v →
        ∃ m ∈ (literal needle).all t, m.start ≤ octetLength u ∧ octetLength u < m.stop)) ∧
    (∀ m, m ∈ (literal []).all t ↔ ∃ n, IsBoundary t n ∧ m = ⟨n, n⟩) ∧
    (∀ c m, m ∈ (char c).all t ↔
      ∃ u v, t = u ++ c :: v ∧ m = ⟨octetLength u, octetLength u + c.utf8Size⟩) ∧
    ∀ needle, (∃ w, Regex.Spells needle w) ∧ ∀ s, IsLiteral E needle s →
      s.all t = (literal needle).all t ∧ s.first? t = (literal needle).first? t := by
  refine ⟨fun s hs => hs.wellFormed hE t, fun needle => ⟨fun m hm => ?_, fun hneedle u v ht => ?_⟩,
    fun m => mem_all_empty_iff, fun c m => mem_all_char_iff,
    fun needle => ⟨Regex.exists_spells needle, fun s hs => ?_⟩⟩
  · exact slice_of_mem_all_literal hm
  · exact exists_covering_occurrence hneedle ht
  · rw [eq_literal_of_isLiteral hE hs]
    exact ⟨rfl, rfl⟩

/-- The last occurrence is left out, since the second match reaches into it. -/
theorem patterns_agree_on_overlap :
    let t : Text := ['é', 'a', 'a', 'a', 'a', 'a']
    let ms : List Span := [⟨2, 4⟩, ⟨4, 6⟩]
    Regex.engine.Documented Regex.preferred? ∧
      (∃ r, Regex.engine.compile? ['[', 'a', ']', 'a'] = some r ∧
        (regex r).all t = ms ∧ (regex r).first? t = some ⟨2, 4⟩) ∧
      (string "aa").ref.all t = ms ∧ (literal ['a', 'a']).all t = ms ∧ IsSearchResult t ms ∧
      ∃ m ∈ ms, m.start ≤ 5 ∧ 5 < m.stop := by
  intro t ms
  have hE := Regex.engine_documented
  obtain ⟨hpattern, hliteral, -, -, hsame⟩ := patterns_agree hE t
  have hall : (literal ['a', 'a']).all t = ms := by decide
  have hspells : Regex.Spells ['a', 'a'] ['[', 'a', ']', 'a'] :=
    .cons (.inSet (by decide)) (.cons (.plain (by decide)) .nil)
  have hread :
      Regex.engine.compile? ['[', 'a', ']', 'a'] = some (Regex.compiled (.text ['a', 'a'])) :=
    rfl
  have hstring := (hsame ['a', 'a']).2 _ (.ref (.string (s := "aa") rfl))
  have hregex := (hsame ['a', 'a']).2 _ (.regex hspells hread)
  have hfirst : (literal ['a', 'a']).first? t = some ⟨2, 4⟩ := by decide
  rw [hall] at hstring hregex
  refine ⟨hE, ⟨_, hread, hregex.1, hregex.2.trans hfirst⟩, hstring.1, hall, ?_, ?_⟩
  · rw [← hall]
    exact (hpattern _ (.literal ['a', 'a'])).1
  · rw [← hall]
    exact (hliteral ['a', 'a']).2 (by decide) ['é', 'a', 'a', 'a'] [] rfl

end TracedText.Searcher
