import TracedText.Buffer
import TracedText.Proofs.Cut
import TracedText.Proofs.Layout
import TracedText.Proofs.View

/-!
# What an edit does to the traced characters

The front of an edit is what stays before its new pieces and the back is what stays after them.
The front always holds the characters before the start. The back holds those from the stop on, as
long as the stop is not before the start: then either the piece the edit stops in is not before the
one it starts in, or both positions are the border right before the latter and nothing is taken out.
-/
namespace TracedText

variable {δ : Type} {ps : List (Piece δ)}

theorem traced_take_pieces (ps : List (Piece δ)) (i : Nat) :
    traced (ps.take i) = (traced ps).take (lengthBefore ps i) := by
  have hsplit := traced_append (ps.take i) (ps.drop i)
  rw [List.take_append_drop] at hsplit
  rw [hsplit, lengthBefore, ← length_traced, List.take_left]

theorem traced_drop_pieces (ps : List (Piece δ)) (i : Nat) :
    traced (ps.drop i) = (traced ps).drop (lengthBefore ps i) := by
  have hsplit := traced_append (ps.take i) (ps.drop i)
  rw [List.take_append_drop] at hsplit
  rw [hsplit, lengthBefore, ← length_traced, List.drop_left]

theorem traced_drop_of_getElem? {i : Nat} {p : Piece δ} (hp : ps[i]? = some p) :
    (traced ps).drop (lengthBefore ps i) = p.traced ++ traced (ps.drop (i + 1)) := by
  rw [← traced_drop_pieces, List.drop_eq_getElem?_toList_append, hp]
  rfl

/-- A position that no later piece starts before lies in the piece, unless this is the last one. -/
theorem le_lengthBefore_succ_or_drop_eq_nil {i pos : Nat}
    (h : i + 1 < ps.length → pos ≤ lengthBefore ps (i + 1)) :
    pos ≤ lengthBefore ps (i + 1) ∨ ps.drop (i + 1) = [] := by
  by_cases hi : i + 1 < ps.length
  · exact Or.inl (h hi)
  · exact Or.inr (List.drop_eq_nil_of_le (by omega))

/-- The characters up to a position in a piece are those before the piece and a part of it. -/
theorem traced_take_within {i pos : Nat} {p : Piece δ} (hp : ps[i]? = some p)
    (hle : lengthBefore ps i ≤ pos)
    (hpos : pos ≤ lengthBefore ps (i + 1) ∨ ps.drop (i + 1) = []) :
    (traced ps).take pos = traced (ps.take i) ++ (p.take (pos - lengthBefore ps i)).traced := by
  have hrest :
      (traced (ps.drop (i + 1))).take (pos - lengthBefore ps i - p.traced.length) = [] := by
    rcases hpos with hin | hlast
    · rw [lengthBefore_succ hp, ← p.length_traced] at hin
      rw [show pos - lengthBefore ps i - p.traced.length = 0 by omega, List.take_zero]
    · rw [hlast]
      exact List.take_nil
  calc
    _ = (traced ps).take (lengthBefore ps i + (pos - lengthBefore ps i)) := by
      rw [Nat.add_sub_cancel' hle]
    _ = traced (ps.take i) ++
        (p.traced ++ traced (ps.drop (i + 1))).take (pos - lengthBefore ps i) := by
      rw [List.take_add, ← traced_take_pieces, traced_drop_of_getElem? hp]
    _ = _ := by rw [List.take_append, hrest, List.append_nil, Piece.traced_take]

/-- The characters from a position in a piece on are a part of the piece and those after it. -/
theorem traced_drop_within {i pos : Nat} {p : Piece δ} (hp : ps[i]? = some p)
    (hle : lengthBefore ps i ≤ pos)
    (hpos : pos ≤ lengthBefore ps (i + 1) ∨ ps.drop (i + 1) = []) :
    (traced ps).drop pos =
      (p.drop (pos - lengthBefore ps i)).traced ++ traced (ps.drop (i + 1)) := by
  have hrest : (traced (ps.drop (i + 1))).drop (pos - lengthBefore ps i - p.traced.length) =
      traced (ps.drop (i + 1)) := by
    rcases hpos with hin | hlast
    · rw [lengthBefore_succ hp, ← p.length_traced] at hin
      rw [show pos - lengthBefore ps i - p.traced.length = 0 by omega, List.drop_zero]
    · rw [hlast]
      exact List.drop_nil
  calc
    _ = (traced ps).drop (lengthBefore ps i + (pos - lengthBefore ps i)) := by
      rw [Nat.add_sub_cancel' hle]
    _ = (p.traced ++ traced (ps.drop (i + 1))).drop (pos - lengthBefore ps i) := by
      rw [← List.drop_drop, traced_drop_of_getElem? hp]
    _ = _ := by rw [List.drop_append, hrest, Piece.traced_drop]

theorem traced_kept_front (p : Piece δ) (offset start : Nat) :
    traced (if offset < start then [p.take (start - offset)] else []) =
      (p.take (start - offset)).traced := by
  by_cases hlt : offset < start
  · rw [if_pos hlt]
    exact List.append_nil _
  · rw [if_neg hlt, Nat.sub_eq_zero_of_le (by omega), Piece.traced_take, List.take_zero]
    rfl

theorem traced_kept_back (p : Piece δ) {n : Nat} {kept : Prop} [Decidable kept]
    (h : ¬ kept → p.length ≤ n) :
    traced (if kept then [p.drop n] else []) = (p.drop n).traced := by
  by_cases hkept : kept
  · rw [if_pos hkept]
    exact List.append_nil _
  · rw [if_neg hkept, Piece.traced_drop, List.drop_eq_nil_of_le (p.length_traced ▸ h hkept)]
    rfl

namespace Edit

variable (e : Edit δ)

/-- The pieces that stay before the new ones. -/
def front (ps : List (Piece δ)) : List (Piece δ) :=
  ps.take (e.firstIndex ps) ++ (placed ps)[e.firstIndex ps]?.elim [] e.head

/-- The pieces that stay after the new ones. -/
def back (ps : List (Piece δ)) : List (Piece δ) :=
  (placed ps)[e.lastIndex ps]?.elim [] e.tail ++
    ps.drop (max (e.firstIndex ps) (e.lastIndex ps + 1))

theorem exists_first (h : ps ≠ []) : ∃ p, ps[e.firstIndex ps]? = some p :=
  ⟨_, List.getElem?_eq_getElem (indexAt_lt_length e.start h)⟩

theorem exists_last (h : ps ≠ []) : ∃ p, ps[e.lastIndex ps]? = some p :=
  ⟨_, List.getElem?_eq_getElem (indexBefore_lt_length e.stop h)⟩

theorem start_within_first :
    e.start ≤ lengthBefore ps (e.firstIndex ps + 1) ∨ ps.drop (e.firstIndex ps + 1) = [] :=
  le_lengthBefore_succ_or_drop_eq_nil fun hi =>
    Nat.le_of_lt (lt_lengthBefore_of_indexAt_lt e.start (Nat.lt_succ_self _) hi)

theorem start_lt_or_drop_eq_nil {p : Piece δ} (hp : ps[e.firstIndex ps]? = some p) :
    e.start < lengthBefore ps (e.firstIndex ps) + p.length ∨
      ps.drop (e.firstIndex ps + 1) = [] := by
  by_cases hi : e.firstIndex ps + 1 < ps.length
  · refine Or.inl ?_
    rw [← lengthBefore_succ hp]
    exact lt_lengthBefore_of_indexAt_lt e.start (Nat.lt_succ_self _) hi
  · exact Or.inr (List.drop_eq_nil_of_le (by omega))

theorem stop_within_last :
    e.stop ≤ lengthBefore ps (e.lastIndex ps + 1) ∨ ps.drop (e.lastIndex ps + 1) = [] :=
  le_lengthBefore_succ_or_drop_eq_nil
    (le_lengthBefore_of_indexBefore_lt e.stop (Nat.lt_succ_self _))

theorem traced_front (h : ps ≠ []) : traced (e.front ps) = (traced ps).take e.start := by
  obtain ⟨p, hp⟩ := e.exists_first h
  have hle : lengthBefore ps (e.firstIndex ps) ≤ e.start := lengthBefore_indexAt_le e.start
  rw [front, traced_append, getElem?_placed, hp, traced_take_within hp hle e.start_within_first]
  exact congrArg _ (traced_kept_front p _ _)

/-- When the edit stops in a piece before the one it starts in, both positions are the border
right before the latter. -/
theorem eq_border_of_lastIndex_lt (hord : e.start ≤ e.stop) (h : ps ≠ [])
    (hlt : e.lastIndex ps < e.firstIndex ps) :
    e.start = lengthBefore ps (e.firstIndex ps) ∧ e.stop = lengthBefore ps (e.firstIndex ps) :=
  eq_border_of_indexBefore_lt hord h hlt

theorem tail_eq_nil_of_lastIndex_lt {p : Piece δ} (hord : e.start ≤ e.stop) (h : ps ≠ [])
    (hp : ps[e.lastIndex ps]? = some p) (hlt : e.lastIndex ps < e.firstIndex ps) :
    e.tail (lengthBefore ps (e.lastIndex ps), p) = [] := by
  have hmono := lengthBefore_mono ps (show e.lastIndex ps + 1 ≤ e.firstIndex ps from hlt)
  have hstop := (e.eq_border_of_lastIndex_lt hord h hlt).2
  rw [lengthBefore_succ hp] at hmono
  rw [tail, if_neg (by omega)]

theorem head_eq_nil_of_lastIndex_lt {p : Piece δ} (hord : e.start ≤ e.stop) (h : ps ≠ [])
    (hlt : e.lastIndex ps < e.firstIndex ps) :
    e.head (lengthBefore ps (e.firstIndex ps), p) = [] := by
  have hstart := (e.eq_border_of_lastIndex_lt hord h hlt).1
  rw [head, if_neg (by omega)]

/-- As long as the edit does not stop in a piece before the one it starts in, the order of its
positions does not matter to the back. -/
theorem traced_back_of_firstIndex_le (h : ps ≠ []) (hindex : e.firstIndex ps ≤ e.lastIndex ps) :
    traced (e.back ps) = (traced ps).drop e.stop := by
  obtain ⟨p, hp⟩ := e.exists_last h
  have hle : lengthBefore ps (e.lastIndex ps) ≤ e.stop := lengthBefore_indexBefore_le e.stop
  rw [back, traced_append, getElem?_placed, hp, Option.map_some, Option.elim_some,
    Nat.max_eq_right (by omega), traced_drop_within hp hle e.stop_within_last]
  exact congrArg (· ++ _) (traced_kept_back p (by omega))

theorem traced_back (hord : e.start ≤ e.stop) (h : ps ≠ []) :
    traced (e.back ps) = (traced ps).drop e.stop := by
  by_cases hlt : e.lastIndex ps < e.firstIndex ps
  · obtain ⟨p, hp⟩ := e.exists_last h
    rw [back, traced_append, getElem?_placed, hp, Option.map_some, Option.elim_some,
      e.tail_eq_nil_of_lastIndex_lt hord h hp hlt, Nat.max_eq_left hlt, traced_drop_pieces,
      ← (e.eq_border_of_lastIndex_lt hord h hlt).2]
    rfl
  · exact e.traced_back_of_firstIndex_le h (Nat.le_of_not_lt hlt)

theorem flatMap_applyTo {α : Type} {view : Piece δ → List α} (hview : Seamless view)
    (h : ps ≠ []) :
    (e.applyTo ps).flatMap view =
      (e.front ps).flatMap view ++ e.new.flatMap view ++ (e.back ps).flatMap view := by
  have hne : ps.isEmpty = false := List.isEmpty_eq_false_iff.mpr h
  rw [applyTo, Splice.flatMap_applyTo hview]
  simp only [splice, hne, Bool.false_eq_true, if_false, pieces, front, back, List.flatMap_append,
    List.append_assoc]

theorem flatMap_applyTo_nil {α : Type} {view : Piece δ → List α} (hview : Seamless view) :
    (e.applyTo []).flatMap view = e.new.flatMap view := by
  rw [applyTo, Splice.flatMap_applyTo hview]
  simp only [splice, List.isEmpty_nil, if_true, List.take_nil, List.drop_nil, List.flatMap_nil,
    List.nil_append, List.append_nil]

/-- An edit in order puts the traced characters of its new pieces between those before its start
and those from its stop on. -/
theorem traced_applyTo (hord : e.start ≤ e.stop) (ps : List (Piece δ)) :
    traced (e.applyTo ps) =
      (traced ps).take e.start ++ traced e.new ++ (traced ps).drop e.stop := by
  by_cases h : ps = []
  · subst h
    have hnil : traced ([] : List (Piece δ)) = [] := rfl
    rw [hnil, List.take_nil, List.drop_nil, List.nil_append, List.append_nil]
    exact e.flatMap_applyTo_nil seamless_traced
  · rw [← e.traced_front h, ← e.traced_back hord h]
    exact e.flatMap_applyTo seamless_traced h

/-- The text that an edit in order leads to does not depend on the pieces that
the old one is made of. -/
theorem flatten_applyTo (hord : e.start ≤ e.stop) (ps : List (Piece δ)) :
    flatten (e.applyTo ps) = e.applyToText (flatten ps) := by
  have h := congrArg (List.map TracedChar.char) (e.traced_applyTo hord ps)
  simp only [map_char_traced, List.map_append, List.map_take, List.map_drop] at h
  exact h

theorem check_eq_inverted_iff (n s t : Nat) :
    e.check n = .error (.inverted s t) ↔ e.stop < e.start ∧ s = e.start ∧ t = e.stop := by
  by_cases hinv : e.stop < e.start
  · simp [check, hinv, eq_comm]
  · by_cases hout : n < e.stop <;> simp [check, hinv, hout]

theorem check_eq_outOfBounds_iff (n s t m : Nat) :
    e.check n = .error (.outOfBounds s t m) ↔
      (e.start ≤ e.stop ∧ n < e.stop) ∧ s = e.start ∧ t = e.stop ∧ m = n := by
  by_cases hinv : e.stop < e.start
  · simp [check, hinv, Nat.not_le.mpr hinv]
  · by_cases hout : n < e.stop
    · simp [check, hinv, hout, Nat.not_lt.mp hinv, eq_comm]
    · simp [check, hinv, hout]

end Edit

namespace Buffer

theorem tryApply_eq_ok_iff (b b' : Buffer δ) (e : Edit δ) :
    b.tryApply e = .ok b' ↔ e.start ≤ e.stop ∧ e.stop ≤ b.length ∧ b' = b.apply e := by
  rw [← and_assoc, ← e.check_eq_ok_iff]
  unfold tryApply
  cases e.check b.length with
  | ok u => simp only [Except.map, Except.ok.injEq, true_and, eq_comm]
  | error err => simp only [Except.map, reduceCtorEq, false_and]

theorem tryApply_eq_error_iff (b : Buffer δ) (e : Edit δ) (err : RangeError) :
    b.tryApply e = .error err ↔ e.check b.length = .error err := by
  unfold tryApply
  cases e.check b.length <;> simp only [Except.map, reduceCtorEq, Except.error.injEq]

/-- An edit in order splices the traced characters, also where it stops past the end, and a checked
edit does just this or says what is wrong with its positions. -/
theorem edit_splices_traced (b : Buffer δ) (e : Edit δ) :
    (e.start ≤ e.stop →
      (b.apply e).traced = b.traced.take e.start ++ TracedText.traced e.new ++
        b.traced.drop e.stop) ∧
    (∀ p : Piece δ, e.start ≤ e.stop →
      (b.apply ⟨e.start, e.stop, [p]⟩).traced =
        b.traced.take e.start ++ p.traced ++ b.traced.drop e.stop) ∧
    (∀ b' : Buffer δ,
      b.tryApply e = .ok b' ↔ e.start ≤ e.stop ∧ e.stop ≤ b.length ∧ b' = b.apply e) ∧
    (∀ s t, b.tryApply e = .error (.inverted s t) ↔
      e.stop < e.start ∧ s = e.start ∧ t = e.stop) ∧
    (∀ s t n, b.tryApply e = .error (.outOfBounds s t n) ↔
      (e.start ≤ e.stop ∧ b.length < e.stop) ∧ s = e.start ∧ t = e.stop ∧ n = b.length) := by
  refine ⟨fun hord => e.traced_applyTo hord b.pieces, fun p hord => ?_,
    fun b' => b.tryApply_eq_ok_iff b' e, fun s t => ?_, fun s t n => ?_⟩
  · have hone : TracedText.traced [p] = p.traced := List.append_nil _
    rw [← hone]
    exact Edit.traced_applyTo ⟨e.start, e.stop, [p]⟩ hord b.pieces
  · exact (b.tryApply_eq_error_iff e _).trans (e.check_eq_inverted_iff b.length s t)
  · exact (b.tryApply_eq_error_iff e _).trans (e.check_eq_outOfBounds_iff b.length s t n)

/-- The edit starts in bare text, takes out an empty piece and stops past the end in a range whose
end has been cut down to zero. -/
theorem edit_splices_traced_past_end :
    let b : Buffer Nat := ⟨[.bare ['a', 'b'], .located ⟨[], none, .offset 7, none⟩, .bare [],
      .located ⟨['c', 'd'], some "s", .range 3 1, some 5⟩]⟩
    let e : Edit Nat := ⟨1, 9, [.located ⟨['x', 'y'], none, .range 4 1, none⟩, .bare ['z']]⟩
    1 ≤ 9 ∧ (b.apply e).traced =
      [⟨'a', none⟩, ⟨'x', some ⟨none, none, .range 4 0⟩⟩, ⟨'y', some ⟨none, none, .range 5 1⟩⟩,
        ⟨'z', none⟩] := by
  intro b e
  exact ⟨by decide, ((edit_splices_traced b e).1 (by decide)).trans (by decide)⟩

end Buffer

end TracedText
