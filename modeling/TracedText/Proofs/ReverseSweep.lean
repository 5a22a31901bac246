import Mathlib.Data.List.Chain
import TracedText.Proofs.Commute
import TracedText.Proofs.Matches
import TracedText.Proofs.SweepTrace

/-!
# A sweep from the last match to the first

A sweep carries its edits out from left to right, each moved by as much as the ones before it have
made the text grow. From right to left no edit has to be moved, since the text before it is still
the old one. Both ways leave the same stretches of the old list, with the new pieces between them,
as long as neither of two matches that touch is empty.

An invariant belongs to each of the two: going to the right, the old list lies behind the last edit
untouched, and going to the left, before it.
-/
namespace TracedText

variable {σ δ : Type}

structure Spaced (n : Nat) (ss : List Span) : Prop where
  ordered : ∀ s ∈ ss, s.start ≤ s.stop
  within : ∀ s ∈ ss, s.stop ≤ n
  clears : ss.IsChain Span.Clears

theorem Spaced.tail {n : Nat} {s : Span} {ss : List Span} (h : Spaced n (s :: ss)) : Spaced n ss :=
  ⟨fun s' hs' => h.ordered s' (List.mem_cons_of_mem s hs'),
    fun s' hs' => h.within s' (List.mem_cons_of_mem s hs'), h.clears.tail⟩

theorem IsMatchList.spaced {t : Text} {ms : List Span} (hms : IsMatchList t ms)
    (hclears : ms.IsChain Span.Clears) : Spaced t.length (ms.map (Span.inChars t)) := by
  refine ⟨hms.ordered_inChars, ?_, ?_⟩
  · intro s hs
    obtain ⟨m, hm, rfl⟩ := List.mem_map.mp hs
    exact charCount_le_length t m.stop
  · rw [List.isChain_map]
    refine hclears.imp_of_mem_imp fun m m' hm hm' h => ?_
    obtain ⟨hstart, hstop⟩ := hms.boundary m hm
    obtain ⟨hstart', hstop'⟩ := hms.boundary m' hm'
    exact h.inChars hstart hstop hstart' hstop'

namespace Edit

def replacing (s : Span) (p : Piece δ) : Edit δ := ⟨s.start, s.stop, [p]⟩

/-- Edits of one and the same text, each moved by as much as the ones before it make it grow. -/
def shifted : Int → List (Edit δ) → List (Edit δ)
  | _, [] => []
  | k, e :: es => e.moveBy k :: shifted (k + e.growth) es

/-- What follows the new pieces of an edit when others are carried out after it in the text: the
stretches of the list that they leave, with their new pieces between them. -/
def rest (ps : List (Piece δ)) : Edit δ → List (Edit δ) → List (Piece δ)
  | e, [] => onward (e.start = e.stop) e.stop ps
  | e, e' :: es =>
    onward (e.start = e.stop) e.stop (upTo e'.start ps) ++ atoms e'.new ++ rest ps e' es

theorem map_span_zipWith_replacing {ss : List Span} {ps : List (Piece δ)}
    (h : ps.length = ss.length) : (List.zipWith replacing ss ps).map span = ss := by
  induction ss generalizing ps with
  | nil => rfl
  | cons s ss ih =>
    cases ps with
    | nil => cases h
    | cons p ps => exact congrArg (s :: ·) (ih (Nat.succ.inj h))

theorem map_edit_layTurns {t : Text} {ms : List Span} (hms : IsMatchList t ms) (ps : List (Piece δ))
    {c : Cursor} (hc : c.Marks t) (hle : ∀ m ∈ ms, c.octet ≤ m.start) (k : Int) :
    (layTurns t c k (ms.zip ps)).map Turn.edit =
      shifted k (List.zipWith replacing (ms.map (Span.inChars t)) ps) := by
  induction ms generalizing ps c k with
  | nil => rfl
  | cons m ms ih =>
    cases ps with
    | nil => rfl
    | cons p ps =>
      have hstop := (hms.boundary m List.mem_cons_self).2
      have hrest := ih hms.tail ps (c := ⟨m.stop, charCount t m.stop⟩) ⟨hstop, rfl⟩ hms.stop_le
      rw [List.zip_cons_cons, layTurns_cons hms hc (hle m List.mem_cons_self)]
      exact congrArg (_ :: ·) (hrest _)

end Edit

namespace Buffer

open Edit

variable {b : Buffer δ} {e : Edit δ} {es : List (Edit δ)}

theorem applyAll_concat (b : Buffer δ) (es : List (Edit δ)) (e : Edit δ) :
    b.applyAll (es ++ [e]) = (b.applyAll es).apply e := List.foldl_concat ..

theorem atoms_applyAll_shifted {ps done : List (Piece δ)} {k : Int} (hb : Coalesced b.pieces)
    (h : Spaced (totalLength ps) ((e :: es).map span))
    (hatoms : atoms b.pieces = done ++ onward (e.start = e.stop) e.stop ps)
    (hdone : (totalLength done : Int) = e.stop + k) :
    atoms (b.applyAll (shifted k es)).pieces = done ++ rest ps e es := by
  -- the old list lies behind the last edit, moved by `k`
  induction es generalizing b e done k with
  | nil => exact hatoms
  | cons e' es ih =>
    have hclears : e.span.Clears e'.span := (List.isChain_cons_cons.mp h.clears).1
    have hord : e'.start ≤ e'.stop := h.tail.ordered e'.span List.mem_cons_self
    have hwithin : e'.stop ≤ totalLength ps := h.tail.within e'.span List.mem_cons_self
    have hlt := stop_lt_stop_of_clears hclears hord
    have hpos : 0 < totalLength b.pieces := by
      rw [← totalLength_atoms, hatoms, totalLength_append, totalLength_onward]
      omega
    have hstep := (e'.moveBy k).atoms_applyTo (ordered_moveBy hord k) hpos fun p =>
      hb.isEmptyBare_eq_false
    rw [hatoms, onAtoms_append_onward hclears hord hwithin hdone] at hstep
    have hdone' : (totalLength (done ++ onward (e.start = e.stop) e.stop (upTo e'.start ps) ++
        atoms e'.new) : Int) = e'.stop + (k + e'.growth) := by
      have hbetween : e.stop ≤ e'.start := hclears.stop_le
      simp only [totalLength_append, totalLength_onward, totalLength_upTo, totalLength_atoms,
        growth]
      omega
    have hrest := ih (((e'.moveBy k).noWorse_applyTo b.pieces).coalesced hb) h.tail hstep hdone'
    refine hrest.trans ?_
    simp only [rest, List.append_assoc]

theorem atoms_applyAll_reverse (hb : Coalesced b.pieces) (hpos : 0 < b.length)
    (h : Spaced b.length ((e :: es).map span)) :
    atoms (b.applyAll (e :: es).reverse).pieces =
      upTo e.start (atoms b.pieces) ++ (atoms e.new ++ rest (atoms b.pieces) e es) := by
  -- the old list lies before the last edit, as it was
  induction es generalizing e with
  | nil =>
    have hord : e.start ≤ e.stop := h.ordered e.span List.mem_cons_self
    exact (e.atoms_applyTo hord hpos fun p => hb.isEmptyBare_eq_false).trans (List.append_assoc ..)
  | cons e' es ih =>
    have hclears : e.span.Clears e'.span := (List.isChain_cons_cons.mp h.clears).1
    have hord : e.start ≤ e.stop := h.ordered e.span List.mem_cons_self
    have hwithin : e'.start ≤ totalLength (atoms b.pieces) := by
      rw [totalLength_atoms]
      exact Nat.le_trans (h.tail.ordered e'.span List.mem_cons_self)
        (h.tail.within e'.span List.mem_cons_self)
    have hlater := ih h.tail
    have hlaterPos : 0 < totalLength (b.applyAll (e' :: es).reverse).pieces := by
      have hlt := start_lt_start_of_clears hclears hord
      rw [← totalLength_atoms, hlater, totalLength_append, totalLength_upTo]
      omega
    have hlaterCoalesced := (b.noWorse_applyAll (e' :: es).reverse).coalesced hb
    have hstep := e.atoms_applyTo hord hlaterPos fun p => hlaterCoalesced.isEmptyBare_eq_false
    rw [hlater, onAtoms_upTo_append hclears hord hwithin] at hstep
    rw [List.reverse_cons, applyAll_concat]
    refine hstep.trans ?_
    simp only [rest, List.append_assoc]

/-- Edits that clear one another have the same outcome from left to right, each moved by what the
ones before it have done, as from right to left. -/
theorem applyAll_shifted_eq_reverse (hb : Coalesced b.pieces) (h : Spaced b.length (es.map span)) :
    b.applyAll (shifted 0 es) = b.applyAll es.reverse := by
  cases es with
  | nil => rfl
  | cons e es =>
    have hord : e.start ≤ e.stop := h.ordered e.span List.mem_cons_self
    have hwithin : e.stop ≤ b.length := h.within e.span List.mem_cons_self
    have hshift :
        b.applyAll (shifted 0 (e :: es)) = (b.apply e).applyAll (shifted e.growth es) := by
      have hgrowth : 0 + e.growth = e.growth := Int.zero_add _
      rw [shifted, hgrowth]
      rfl
    rw [hshift]
    cases es with
    | nil => rfl
    | cons e' es =>
      have hpos : 0 < b.length := by
        have hclears : e.span.Clears e'.span := (List.isChain_cons_cons.mp h.clears).1
        have hord' : e'.start ≤ e'.stop := h.tail.ordered e'.span List.mem_cons_self
        have hwithin' : e'.stop ≤ b.length := h.tail.within e'.span List.mem_cons_self
        have hlt := stop_lt_stop_of_clears hclears hord'
        omega
      have hsame : totalLength (atoms b.pieces) = b.length := totalLength_atoms b.pieces
      have hfirst : Coalesced (b.apply e).pieces := (e.noWorse_applyTo b.pieces).coalesced hb
      have hright := atoms_applyAll_shifted hfirst (hsame.symm ▸ h)
        (e.atoms_applyTo hord hpos fun p => hb.isEmptyBare_eq_false)
        (totalLength_front_atoms hord (by omega))
      have hleft := atoms_applyAll_reverse hb hpos h
      refine congrArg Buffer.mk (Coalesced.eq_of_atoms ?_ ?_ ?_)
      · exact ((b.apply e).noWorse_applyAll (shifted e.growth (e' :: es))).coalesced hfirst
      · exact (b.noWorse_applyAll _).coalesced hb
      · exact hright.trans ((List.append_assoc ..).trans hleft.symm)

/-- The matches replaced from the last one to the first, each where it was found. The pieces for
them are asked for from left to right. -/
def replaceAllBackward (b : Buffer δ) (s : Searcher) (r : Replacer σ δ) : StateM σ (Buffer δ) := do
  let ms := s.all b.text
  let ps ← r.answers (ms.map (slice b.text))
  pure (b.applyAll (List.zipWith replacing (ms.map (Span.inChars b.text)) ps).reverse)

theorem replaceAll_eq_of_clears (hb : Coalesced b.pieces) {s : Searcher} (r : Replacer σ δ) (a : σ)
    (hms : IsMatchList b.text (s.all b.text)) (hclears : (s.all b.text).IsChain Span.Clears) :
    (b.replaceAll s r a).1.2 = (b.replaceAllBackward s r a).1 := by
  let given := (r.answers ((s.all b.text).map (slice b.text)) a).1
  have hgiven : given.length = ((s.all b.text).map (Span.inChars b.text)).length := by
    rw [Replacer.length_answers, List.length_map, List.length_map]
  have hspaced : Spaced b.length
      ((List.zipWith replacing ((s.all b.text).map (Span.inChars b.text)) given).map span) := by
    rw [map_span_zipWith_replacing hgiven, ← b.length_text]
    exact hms.spaced hclears
  have hmarks : Cursor.Marks ⟨0, 0⟩ b.text := ⟨isBoundary_zero b.text, (charCount_zero b.text).symm⟩
  have hturns := map_edit_layTurns hms given hmarks (fun m _ => Nat.zero_le m.start) 0
  rw [replaceAll_eq]
  exact (congrArg b.applyAll hturns).trans (applyAll_shifted_eq_reverse hb hspaced)

/-- On a coalesced buffer a sweep gives, piece by piece, what the same replacements give from the
last match to the first, where none of them is moved. Of two matches that touch, neither may be
empty; matches that a search gives are never like that. -/
theorem replaceAll_eq_backward (hb : Coalesced b.pieces) (r : Replacer σ δ) (a : σ) :
    (∀ s : Searcher, IsMatchList b.text (s.all b.text) → (s.all b.text).IsChain Span.Clears →
      (b.replaceAll s r a).1.2 = (b.replaceAllBackward s r a).1) ∧
    ∀ m : Matcher,
      (b.replaceAll (.ofMatcher m) r a).1.2 = (b.replaceAllBackward (.ofMatcher m) r a).1 :=
  ⟨fun _ hms hclears => replaceAll_eq_of_clears hb r a hms hclears, fun m =>
    replaceAll_eq_of_clears hb r a (Searcher.isMatchList_ofMatcher m b.text)
      (Searcher.clears_ofMatcher m b.text)⟩

/-- Two of the matches touch where an empty piece stands; one of these gives way to an empty bare
piece, the other to an empty located one. -/
theorem replaceAll_eq_backward_touching :
    let b : Buffer Nat := ⟨[.located ⟨['a', 'b'], none, .offset 3, none⟩,
      .located ⟨[], none, .offset 9, some 4⟩, .bare ['b', 'c'],
      .located ⟨['b', 'd'], some "s", .range 2 9, none⟩]⟩
    let r : Replacer Nat Nat := fun _ n =>
      ([.bare [], .located ⟨[], none, .offset 7, none⟩][n]?.getD (.bare ['x', 'y']), n + 1)
    Coalesced b.pieces ∧ (Searcher.char 'b').all b.text = [⟨1, 2⟩, ⟨2, 3⟩, ⟨4, 5⟩] ∧
      IsMatchList b.text ((Searcher.char 'b').all b.text) ∧
      ((Searcher.char 'b').all b.text).IsChain Span.Clears ∧
      (b.replaceAll (.char 'b') r 0).1.2 = ⟨[.located ⟨['a'], none, .offset 3, none⟩,
        .located ⟨[], none, .offset 9, some 4⟩, .located ⟨[], none, .offset 7, none⟩,
        .bare ['c', 'x', 'y'], .located ⟨['d'], some "s", .range 3 9, none⟩]⟩ := by
  intro b r
  have hb : Coalesced b.pieces := by decide
  have hms : IsMatchList b.text ((Searcher.char 'b').all b.text) :=
    ⟨by decide, by decide, by decide⟩
  have hclears : ((Searcher.char 'b').all b.text).IsChain Span.Clears := by decide
  have hsame := (replaceAll_eq_backward hb r 0).1 (.char 'b') hms hclears
  exact ⟨hb, by decide, hms, hclears, hsame.trans (by decide)⟩

end Buffer

end TracedText
