import TracedText.Proofs.NormalForm

/-!
# Edits whose positions are not checked

Whatever the positions of an edit are, the two searches find pieces of the list, and the splice that
they lead to lies within it, also when it takes in bare pieces on both sides.

When the start is after the stop, nothing is lost. Either the edit starts and stops in one
piece, which is taken out, and the head and the tail that are kept of it overlap. Or it stops in
a piece before the one it starts in, and then no piece is taken out. In both cases what stands
twice afterwards lay between the two positions.
-/
namespace TracedText

variable {δ : Type} {ps : List (Piece δ)}

namespace Splice

theorem past_widen_le {s : Splice δ} (h : s.past ≤ ps.length) : (s.widen ps).past ≤ ps.length := by
  rw [widen, widenRight]
  split
  next t hi => exact (List.getElem?_eq_some_iff.mp hi).1
  next => rwa [past_widenLeft]

theorem Fits.widen {s : Splice δ} (h : s.Fits ps.length) : (s.widen ps).Fits ps.length :=
  ⟨Nat.le_trans s.first_widen_le (Nat.le_trans h.1 s.le_past_widen), past_widen_le h.2⟩

end Splice

namespace Edit

variable (e : Edit δ)

theorem offset_first_le (h : ps ≠ []) :
    ∃ o, (offsets ps)[e.firstIndex ps]? = some o ∧ o ≤ e.start := by
  obtain ⟨p, hp⟩ := e.exists_first h
  refine ⟨lengthBefore ps (e.firstIndex ps), ?_, lengthBefore_indexAt_le e.start⟩
  rw [getElem?_offsets, hp]
  rfl

theorem traced_back_of_lastIndex_lt {p : Piece δ} (hp : ps[e.lastIndex ps]? = some p)
    (hindex : e.lastIndex ps < e.firstIndex ps) :
    traced (e.back ps) = (p.drop (e.stop - lengthBefore ps (e.lastIndex ps))).traced ++
      (traced ps).drop (lengthBefore ps (e.firstIndex ps)) := by
  have hle : lengthBefore ps (e.lastIndex ps) ≤ e.stop := lengthBefore_indexBefore_le e.stop
  rw [back, traced_append, getElem?_placed, hp, Option.map_some, Option.elim_some,
    Nat.max_eq_left hindex, traced_drop_pieces]
  exact congrArg (· ++ _) (traced_kept_back p (by omega))

theorem traced_back_of_inverted (hinv : e.stop < e.start) (h : ps ≠ []) :
    ∃ again, traced (e.back ps) = again ++ (traced ps).drop e.start ∧
      again.Sublist (((traced ps).drop e.stop).take (e.start - e.stop)) := by
  have hbetween := drop_eq_take_append_drop (traced ps) (Nat.le_of_lt hinv)
  by_cases hindex : e.firstIndex ps ≤ e.lastIndex ps
  · exact ⟨_, (e.traced_back_of_firstIndex_le h hindex).trans hbetween, List.Sublist.refl _⟩
  obtain ⟨p, hp⟩ := e.exists_last h
  have hlast : lengthBefore ps (e.lastIndex ps) ≤ e.stop := lengthBefore_indexBefore_le e.stop
  have hfirst : lengthBefore ps (e.firstIndex ps) ≤ e.start := lengthBefore_indexAt_le e.start
  have hback := e.traced_back_of_lastIndex_lt hp (Nat.lt_of_not_le hindex)
  -- The pieces between the two that the edit finds are not in the tail.
  have hsub : (traced (e.back ps)).Sublist ((traced ps).drop e.stop) := by
    have hmono := lengthBefore_mono ps (show e.lastIndex ps + 1 ≤ e.firstIndex ps by omega)
    rw [hback, traced_drop_within hp hlast e.stop_within_last, traced_drop_pieces]
    exact (List.drop_sublist_drop_left _ hmono).append_left _
  rw [drop_eq_take_append_drop (traced ps) hfirst, ← List.append_assoc] at hback
  rw [hback, hbetween] at hsub
  exact ⟨_, hback, (List.append_sublist_append_right _).mp hsub⟩

/-- An inverted edit puts the traced characters of its new pieces after those before
its start. All from the start on follow, but some of those between its positions come
before them once more. -/
theorem traced_applyTo_of_inverted (hinv : e.stop < e.start) (ps : List (Piece δ)) :
    ∃ again, traced (e.applyTo ps) =
        (traced ps).take e.start ++ traced e.new ++ (again ++ (traced ps).drop e.start) ∧
      again.Sublist (((traced ps).drop e.stop).take (e.start - e.stop)) := by
  by_cases h : ps = []
  · subst h
    have hnil : traced ([] : List (Piece δ)) = [] := rfl
    refine ⟨[], ?_, List.nil_sublist _⟩
    rw [hnil, List.take_nil, List.drop_nil, List.nil_append, List.append_nil, List.append_nil]
    exact e.flatMap_applyTo_nil seamless_traced
  · obtain ⟨again, hback, hagain⟩ := e.traced_back_of_inverted hinv h
    refine ⟨again, ?_, hagain⟩
    rw [← e.traced_front h, ← hback]
    exact e.flatMap_applyTo seamless_traced h

end Edit

namespace Buffer

/-- Whatever its positions are, an edit finds pieces of the buffer, the first of which starts at
or before its start, and the splice lies within the list, before and after it is widened. When
the positions are inverted, all traced characters of the buffer are still there in their order,
and those of the new pieces stand together among them. Any others come from between the two
positions and stand twice. -/
theorem unchecked_edit_in_bounds (b : Buffer δ) (e : Edit δ) :
    (e.splice b.pieces).Fits b.pieces.length ∧
    ((e.splice b.pieces).widen b.pieces).Fits b.pieces.length ∧
    (b.pieces ≠ [] → e.firstIndex b.pieces < b.pieces.length ∧
      e.lastIndex b.pieces < b.pieces.length ∧
      ∃ o, b.offsets[e.firstIndex b.pieces]? = some o ∧ o ≤ e.start) ∧
    (e.stop < e.start → b.traced.Sublist (b.apply e).traced ∧
      ∃ again, (b.apply e).traced =
          b.traced.take e.start ++ TracedText.traced e.new ++ (again ++ b.traced.drop e.start) ∧
        again.Sublist ((b.traced.drop e.stop).take (e.start - e.stop))) := by
  refine ⟨e.fits_splice b.pieces, (e.fits_splice b.pieces).widen, fun h => ?_, fun hinv => ?_⟩
  · exact ⟨indexAt_lt_length e.start h, indexBefore_lt_length e.stop h, e.offset_first_le h⟩
  · obtain ⟨again, htraced, hagain⟩ := e.traced_applyTo_of_inverted hinv b.pieces
    refine ⟨?_, again, htraced, hagain⟩
    have hfront : (b.traced.take e.start).Sublist
        (b.traced.take e.start ++ TracedText.traced e.new) := List.sublist_append_left _ _
    have hback : (b.traced.drop e.start).Sublist (again ++ b.traced.drop e.start) :=
      List.sublist_append_right _ _
    have hall := hfront.append hback
    rw [List.take_append_drop] at hall
    rw [show (b.apply e).traced = _ from htraced]
    exact hall

/-- The edit stops in the first piece and starts in the third one. The tail of the one and the
head of the other stand twice in the outcome, and the piece between them does not. -/
theorem unchecked_edit_in_bounds_inverted :
    let b : Buffer Nat := ⟨[.located ⟨['a', 'b'], some "s", .range 3 1, none⟩,
      .located ⟨['c'], none, .offset 9, some 5⟩, .bare ['d', 'e']]⟩
    let e : Edit Nat := ⟨4, 1, [.bare ['X']]⟩
    b.pieces ≠ [] ∧ e.stop < e.start ∧ e.firstIndex b.pieces = 2 ∧ e.lastIndex b.pieces = 0 ∧
      (∃ o, b.offsets[e.firstIndex b.pieces]? = some o ∧ o ≤ e.start) ∧
      b.traced.Sublist (b.apply e).traced ∧
      (b.apply e).text = ['a', 'b', 'c', 'd', 'X', 'b', 'd', 'e'] := by
  intro b e
  have hne : b.pieces ≠ [] := List.cons_ne_nil _ _
  have hinv : e.stop < e.start := by decide
  obtain ⟨-, -, hindex, hlost⟩ := b.unchecked_edit_in_bounds e
  exact ⟨hne, hinv, by decide, by decide, (hindex hne).2.2, (hlost hinv).1, by decide⟩

end Buffer

end TracedText
