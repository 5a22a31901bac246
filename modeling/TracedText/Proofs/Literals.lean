import TracedText.Proofs.Engine
import TracedText.Regex.Reading

/-!
# An engine that keeps its promises

The engine that runs graphs is one that searches as documented. Its searches go from match to
match because a matcher's do. What is left is the syntax. In an expression that spells a text,
symbols, tokens and parts keep the characters apart, until the parts are put side by side and
become one text again.

The states of such an expression form a line. At most one of them waits for a character at any time,
and the last of them accepts, so that running through them compares the text with what is searched.
-/
namespace TracedText

namespace Regex

variable {t u v : Text} {c : Char} {g : Graph} {i n : Nat} {atStart atEnd : Bool}

theorem getElem?_graph_text_eat (u v : Text) (c : Char) :
    (text (u ++ c :: v)).graph[u.length]? = some (.eat (.single c) (u.length + 1)) := by
  simp [graph, states, List.getElem?_append_left]

theorem getElem?_graph_text_pass (t : Text) :
    (text t).graph[t.length]? = some (.pass (t.length + 1)) := by
  simp [graph, states, size]

theorem getElem?_graph_text_accept (t : Text) :
    (text t).graph[t.length + 1]? = some .accept := by
  simp [graph, states]

namespace Graph

theorem enter_nil (fuel : Nat) (entered : Array Bool) (stand : List Nat) :
    g.enter atStart atEnd fuel [] entered stand = stand := by
  cases fuel <;> rfl

/-- A state that has not been entered is entered, and what it leads on to waits first. -/
theorem enter_of_new {entered : Array Bool} (h : entered[i]? = some false) (fuel : Nat)
    (waiting stand : List Nat) :
    g.enter atStart atEnd (fuel + 1) (i :: waiting) entered stand =
      g.enter atStart atEnd fuel (g.onward atStart atEnd i ++ waiting)
        (entered.setIfInBounds i true) (i :: stand) := by
  rw [enter, Array.getD_eq_getD_getElem?, h, Option.getD_some, if_neg Bool.false_ne_true]

theorem reach_of_onward_nil (hi : i < g.size) (h : g.onward atStart atEnd i = []) :
    g.reach atStart atEnd [i] = [i] := by
  have hfresh : (Array.replicate g.size false)[i]? = some false := by
    rw [Array.getElem?_replicate, if_pos hi]
  rw [reach, List.length_singleton, Nat.add_comm, enter_of_new hfresh, h, List.nil_append,
    enter_nil, List.reverse_singleton]

theorem reach_of_onward_singleton (hi : i < g.size) (hn : n < g.size) (hne : i ≠ n)
    (h : g.onward atStart atEnd i = [n]) (h' : g.onward atStart atEnd n = []) :
    g.reach atStart atEnd [i] = [i, n] := by
  have hfresh : (Array.replicate g.size false)[i]? = some false := by
    rw [Array.getElem?_replicate, if_pos hi]
  have hfresh' : ((Array.replicate g.size false).setIfInBounds i true)[n]? = some false := by
    rw [Array.getElem?_setIfInBounds_ne hne, Array.getElem?_replicate, if_pos hn]
  obtain ⟨fuel, hfuel⟩ : ∃ fuel, 2 * g.size = fuel + 1 := Nat.exists_eq_succ_of_ne_zero (by omega)
  rw [reach, List.length_singleton, Nat.add_comm, enter_of_new hfresh, h, List.append_nil, hfuel,
    enter_of_new hfresh', h', List.nil_append, enter_nil]
  rfl

section Text

variable (u v : Text) (c : Char) (t : Text)

theorem reach_text_within (atStart atEnd : Bool) :
    (text (u ++ c :: v)).graph.reach atStart atEnd [u.length] = [u.length] := by
  have hget := getElem?_graph_text_eat u v c
  refine reach_of_onward_nil (Array.getElem?_eq_some_iff.mp hget).1 ?_
  rw [onward, hget]

theorem reach_text_end (atStart atEnd : Bool) :
    (text t).graph.reach atStart atEnd [t.length] = [t.length, t.length + 1] := by
  have hpass := getElem?_graph_text_pass t
  have haccept := getElem?_graph_text_accept t
  refine reach_of_onward_singleton (Array.getElem?_eq_some_iff.mp hpass).1
    (Array.getElem?_eq_some_iff.mp haccept).1 (Nat.ne_of_lt (Nat.lt_succ_self _)) ?_ ?_
  · rw [onward, hpass]
  · rw [onward, haccept]

theorem accepts_text_within : (text (u ++ c :: v)).graph.accepts u.length = false := by
  rw [accepts, getElem?_graph_text_eat]
  rfl

theorem accepts_text_pass : (text t).graph.accepts t.length = false := by
  rw [accepts, getElem?_graph_text_pass]
  rfl

theorem accepts_text_end : (text t).graph.accepts (t.length + 1) = true := by
  rw [accepts, getElem?_graph_text_accept]
  rfl

theorem any_accepts_text_end :
    [t.length, t.length + 1].any (text t).graph.accepts = true := by
  simp only [List.any_cons, accepts_text_end, Bool.true_or, Bool.or_true]

theorem advance_text_end (d : Char) :
    (text t).graph.advance d [t.length, t.length + 1] = [] := by
  have heat : (text t).graph.eat? d t.length = none := by
    rw [eat?, getElem?_graph_text_pass]
  simp [advance, accepts_text_pass, accepts_text_end, heat]

theorem advance_text_within (d : Char) :
    (text (u ++ c :: v)).graph.advance d [u.length] = if c = d then [u.length + 1] else [] := by
  have heat : (text (u ++ c :: v)).graph.eat? d u.length =
      if c = d then some (u.length + 1) else none := by
    rw [eat?, getElem?_graph_text_eat]
    simp only [CharSet.contains_single, decide_eq_true_eq]
  have hwhile : [u.length].takeWhile (!(text (u ++ c :: v)).graph.accepts ·) = [u.length] := by
    rw [List.takeWhile_cons, accepts_text_within]
    rfl
  rw [advance, hwhile, List.filterMap_cons, heat]
  by_cases h : c = d
  · rw [if_pos h, if_pos h]
    rfl
  · rw [if_neg h, if_neg h]
    rfl

end Text

/-- With `u` eaten, a text matches if `v` stands in front of what is to come. -/
theorem run_text (u v w : Text) (atStart : Bool) :
    (text (u ++ v)).graph.run atStart [u.length] u.length none w =
      if v.isPrefixOf w then some (u ++ v).length else none := by
  induction v generalizing u w atStart with
  | nil =>
    rw [List.append_nil]
    cases w with
    | nil =>
      simp only [run, reach_text_end, any_accepts_text_end, if_true, List.isPrefixOf_nil_left]
    | cons d w =>
      simp only [run, reach_text_end, any_accepts_text_end, advance_text_end, if_true,
        List.isPrefixOf_nil_left]
  | cons c v ih =>
    have hany : [u.length].any (text (u ++ c :: v)).graph.accepts = false := by
      rw [List.any_cons, accepts_text_within]
      rfl
    cases w with
    | nil =>
      rw [run, reach_text_within, hany]
      rfl
    | cons d w =>
      have hrest := ih (u ++ [c]) w false
      rw [List.append_assoc, List.singleton_append, List.length_append,
        List.length_singleton] at hrest
      simp only [run, reach_text_within, hany, advance_text_within, List.isPrefixOf_cons_cons,
        Bool.false_eq_true, if_false]
      by_cases h : c = d
      · subst h
        simp only [if_true, hrest, beq_self_eq_true, Bool.true_and]
      · simp only [h, if_false, beq_iff_eq, Bool.and_eq_true, false_and]

theorem matcher_text (t : Text) : (text t).graph.matcher = Matcher.literal t := by
  funext atStart w
  exact run_text [] t w atStart

end Graph

namespace Symbol

theorem ofText?_plain (hc : c ≠ '\\') (t : Text) :
    ofText? (c :: t) = (ofText? t).map (plain c :: ·) := by
  cases t with
  | nil => exact if_neg hc
  | cons d t => exact if_neg hc

theorem ofText?_escaped {d : Char} (h : escaped? d = some c) (t : Text) :
    ofText? ('\\' :: d :: t) = (ofText? t).map (escaped c :: ·) := by
  rw [ofText?, if_pos rfl, ofEscape?, h, Option.map_some, Option.bind_some]

end Symbol

namespace Token

/-- A symbol that completes nothing is only remembered. -/
theorem ofSymbols?_of_step_nil {m m' : Mode} {s : Symbol} (h : m.step s = some ([], m'))
    (rest : List Symbol) : ofSymbols? m (s :: rest) = ofSymbols? m' rest := by
  rw [ofSymbols?, h, Option.bind_some]
  exact Option.map_id'

theorem ofSymbols?_of_step_singleton {m m' : Mode} {s : Symbol} {k : Token}
    (h : m.step s = some ([k], m')) (rest : List Symbol) :
    ofSymbols? m (s :: rest) = (ofSymbols? m' rest).map (k :: ·) := by
  rw [ofSymbols?, h, Option.bind_some]
  rfl

theorem stepOutside_plain (hc : c ∉ signs) :
    Mode.stepOutside (.plain c) = ([.char c], .outside) := by
  simp only [signs, List.mem_cons, List.not_mem_nil, or_false, not_or] at hc
  simp only [Mode.stepOutside]
  split <;> simp_all

theorem ofSet_singleton (c : Char) : ofSet (.ofIntervals [⟨c.toNat, c.toNat⟩]) = text [c] := by
  have hsingle : (CharSet.ofIntervals [⟨c.toNat, c.toNat⟩]).single? = some (Char.ofNat c.toNat) :=
    if_pos rfl
  rw [ofSet, hsingle, Char.ofNat_toNat]

/-- Whatever the only member of a set is, it stands for itself, unless it opens a set or negates. -/
theorem exists_step_setStart {s : Symbol} (hopen : s ≠ .plain '[') (hnot : s ≠ .plain '^') :
    ∃ m, Mode.step s .setStart = some ([], m) ∧
      m.step (.plain ']') = some ([.atom (text [s.char]) 1], .outside) := by
  have hsingle := ofSet_singleton s.char
  have hstart : Mode.step s .setStart = Mode.stepFront false [] s := if_neg hnot
  have hfront : Mode.stepInside false [s.interval s] [] (.plain ']') =
      some ([.atom (text [s.char]) 1], .outside) :=
    congrArg (fun r => some ([Token.atom r 1], Mode.outside)) hsingle
  rw [hstart]
  by_cases hdash : s = .plain '-'
  · subst hdash
    exact ⟨.setFront false [Symbol.interval (.plain '-') (.plain '-')], rfl, hfront⟩
  by_cases hbracket : s = .plain ']'
  · subst hbracket
    exact ⟨.setInside false [Symbol.interval (.plain ']') (.plain ']')] [], rfl, hfront⟩
  · refine ⟨.setInside false [] [s], ?_, ?_⟩
    · have hcondition : ¬(decide (s = .plain ']') && ([] : List Interval).isEmpty) = true := by
        simp only [hbracket, decide_false, Bool.false_and, Bool.false_eq_true, not_false_eq_true]
      rw [Mode.stepFront, if_neg hdash, if_neg hcondition, Mode.stepInside, if_neg hbracket]
    · have hmember : Symbol.intervals? [s] = some [s.interval s] := if_neg hopen
      rw [Mode.step, Mode.stepInside, if_pos rfl, ofSet?, List.reverse_singleton, hmember]
      exact hfront

theorem ofSymbols?_set {s : Symbol} (hopen : s ≠ .plain '[') (hnot : s ≠ .plain '^')
    (rest : List Symbol) :
    ofSymbols? .outside (.plain '[' :: s :: .plain ']' :: rest) =
      (ofSymbols? .outside rest).map (.atom (text [s.char]) 1 :: ·) := by
  obtain ⟨m, hmember, hclose⟩ := exists_step_setStart hopen hnot
  have hbracket : Mode.step (.plain '[') .outside = some ([], .setStart) := rfl
  rw [ofSymbols?_of_step_nil hbracket, ofSymbols?_of_step_nil hmember,
    ofSymbols?_of_step_singleton hclose]

/-- What is read as symbols that make one token is read as that token. -/
theorem ofText?_append {w : Text} (symbols : List Symbol) {k : Token}
    (hsymbols : ∀ rest, Symbol.ofText? (w ++ rest) = (Symbol.ofText? rest).map (symbols ++ ·))
    (htoken : ∀ rest, ofSymbols? .outside (symbols ++ rest) =
      (ofSymbols? .outside rest).map (k :: ·)) (rest : Text) :
    ofText? (w ++ rest) = (ofText? rest).map (k :: ·) := by
  rw [ofText?, hsymbols, ofText?]
  cases Symbol.ofText? rest with
  | none => rfl
  | some _ => exact htoken _

end Token

/-- However a character is written, it becomes one token. -/
theorem SpellsChar.ofText? {c : Char} {w : Text} (h : SpellsChar c w) :
    ∃ depth, ∀ rest : Text, Token.ofText? (w ++ rest) =
      (Token.ofText? rest).map (.atom (text [c]) depth :: ·) := by
  have hopening := Symbol.ofText?_plain (c := '[') (by decide)
  have hclosing := Symbol.ofText?_plain (c := ']') (by decide)
  cases h with
  | plain h =>
    have hc : c ≠ '\\' := fun heq => h (heq ▸ List.mem_cons_self)
    have hstep : Token.Mode.step (.plain c) .outside = some ([.char c], .outside) :=
      congrArg some (Token.stepOutside_plain h)
    exact ⟨0, Token.ofText?_append [.plain c] (Symbol.ofText?_plain hc)
      (Token.ofSymbols?_of_step_singleton hstep)⟩
  | escaped h =>
    exact ⟨0, Token.ofText?_append [.escaped c] (Symbol.ofText?_escaped h) fun _ => rfl⟩
  | inSet h =>
    obtain ⟨hbackslash, hopen, hnot⟩ := h
    have hmember := Symbol.ofText?_plain hbackslash
    refine ⟨1, Token.ofText?_append [.plain '[', .plain c, .plain ']'] (fun rest => ?_)
      (Token.ofSymbols?_set (s := .plain c) (by simpa using hopen) (by simpa using hnot))⟩
    simp only [List.cons_append, List.nil_append, hopening, hmember, hclosing, Option.map_map]
    rfl
  | escapedInSet h =>
    have hmember := Symbol.ofText?_escaped h
    refine ⟨1, Token.ofText?_append [.plain '[', .escaped c, .plain ']'] (fun rest => ?_)
      (Token.ofSymbols?_set (s := .escaped c) Symbol.noConfusion Symbol.noConfusion)⟩
    simp only [List.cons_append, List.nil_append, hopening, hmember, hclosing, Option.map_map]
    rfl

/-- The parts that a text is read as, each of its characters by itself. -/
theorem Spells.tokens {t w : Text} (h : Spells t w) :
    ∃ xs : List Nested, xs.map Nested.regex = t.map (fun c => text [c]) ∧
      Token.ofText? w = some (xs.map fun x => .atom x.regex x.depth) := by
  induction h with
  | nil => exact ⟨[], rfl, rfl⟩
  | @cons c t v w hc _ ih =>
    obtain ⟨depth, hread⟩ := hc.ofText?
    obtain ⟨xs, hregex, htokens⟩ := ih
    refine ⟨⟨text [c], depth⟩ :: xs, ?_, ?_⟩
    · rw [List.map_cons, hregex, List.map_cons]
    · rw [hread, htokens]
      rfl

theorem ofTokens?_atoms (groups : Nat) (l : Level) (xs : List Nested) :
    ofTokens? groups l [] (xs.map fun x => .atom x.regex x.depth) =
      some { l with parts := xs.reverse ++ l.parts }.toNested := by
  induction xs generalizing l with
  | nil => rfl
  | cons x xs ih =>
    rw [List.map_cons, ofTokens?, ih, Level.add, List.reverse_cons, List.append_assoc,
      List.singleton_append]

/-- However a text is written, it is read as itself. -/
theorem Spells.ofText? {t w : Text} (h : Spells t w) :
    ∃ depth, Nested.ofText? w = some ⟨text t, depth⟩ := by
  obtain ⟨xs, hregex, htokens⟩ := h.tokens
  have hconcat : concat (xs.reverse.reverse.map Nested.regex) = text t := by
    rw [List.reverse_reverse, hregex, concat_chars]
    rfl
  refine ⟨Nested.listDepth xs, ?_⟩
  rw [Nested.ofText?, htokens, Option.bind_some, ofTokens?_atoms, Level.new, List.append_nil,
    Level.toNested, Level.branch, Nested.concat, List.reverse_singleton, Nested.alternation,
    hconcat, List.reverse_reverse]
  rfl

/-- Where the preferred match of a written expression stops, whether it is refused or not. -/
def preferred? (w t : Text) (p : Nat) : Option Nat :=
  (Nested.ofText? w).bind fun x => x.regex.graph.matcher.stop? t p

theorem preferred?_of_spells {t w : Text} (h : Spells t w) :
    preferred? w = (Matcher.literal t).stop? := by
  obtain ⟨depth, hread⟩ := h.ofText?
  funext u p
  rw [preferred?, hread, Option.bind_some, Graph.matcher_text]

theorem exists_of_compile? {w : Text} {r : CompiledRegex} (h : engine.compile? w = some r) :
    ∃ x, r = compiled x ∧ preferred? w = x.graph.matcher.stop? := by
  obtain ⟨x, hx, rfl⟩ := Option.map_eq_some_iff.mp h
  refine ⟨x.regex, rfl, ?_⟩
  funext u p
  rw [preferred?, (Option.filter_eq_some_iff.mp hx).1, Option.bind_some]

theorem engine_documented : engine.Documented preferred? where
  wholeChars h t := by
    obtain ⟨x, -, hx⟩ := exists_of_compile? h
    rw [hx]
    exact x.graph.matcher.wholeChars_stop? t
  find_leftmost h t := by
    obtain ⟨x, rfl, hx⟩ := exists_of_compile? h
    have hfirst : x.compiled.find t = (x.compiled.findIter t).head? :=
      Searcher.first?_ofMatcher x.graph.matcher t
    rw [hx, hfirst]
    exact (Searcher.iterates_ofMatcher x.graph.matcher t).isLeftmost_head? nofun
  findIter_iterates h t := by
    obtain ⟨x, rfl, hx⟩ := exists_of_compile? h
    rw [hx]
    exact Searcher.iterates_ofMatcher x.graph.matcher t
  preferred?_empty hp := by
    rw [preferred?_of_spells .nil, Matcher.stop?_literal_nil hp]
  preferred?_append hc hu hp := by
    rw [preferred?_of_spells (.cons hc hu), preferred?_of_spells hu,
      Matcher.stop?_literal_cons _ _ hp]

end Regex

end TracedText
