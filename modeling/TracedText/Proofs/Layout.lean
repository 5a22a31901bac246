import TracedText.Layout

/-!
# Where the pieces of a list start

`lengthBefore ps i` is the number of characters in front of piece `i`. It is what the table of
offsets holds at `i`, and it only grows with `i`. The two searches are stated in these terms: the
piece found starts at or before the position, and every later piece starts after it, or not before
it in the case of `indexBefore`.
-/
namespace TracedText

variable {δ : Type}

/-- The number of characters in front of piece `i`. -/
def lengthBefore (ps : List (Piece δ)) (i : Nat) : Nat := totalLength (ps.take i)

@[simp] theorem lengthBefore_zero (ps : List (Piece δ)) : lengthBefore ps 0 = 0 := rfl

theorem lengthBefore_succ {ps : List (Piece δ)} {i : Nat} {p : Piece δ} (h : ps[i]? = some p) :
    lengthBefore ps (i + 1) = lengthBefore ps i + p.length := by
  simp only [lengthBefore, List.take_add_one, h, totalLength_append, Option.toList_some,
    totalLength, Nat.add_zero]

theorem lengthBefore_mono (ps : List (Piece δ)) {i j : Nat} (h : i ≤ j) :
    lengthBefore ps i ≤ lengthBefore ps j := by
  have hsplit := List.take_append_drop i (ps.take j)
  rw [List.take_take, Nat.min_eq_left h] at hsplit
  unfold lengthBefore
  rw [← hsplit, totalLength_append]
  exact Nat.le_add_right _ _

theorem lengthBefore_le_totalLength (ps : List (Piece δ)) (i : Nat) :
    lengthBefore ps i ≤ totalLength ps := by
  have hsplit := congrArg totalLength (List.take_append_drop i ps)
  rw [totalLength_append] at hsplit
  exact Nat.le.intro hsplit

theorem lengthBefore_of_length_le {ps : List (Piece δ)} {i : Nat} (h : ps.length ≤ i) :
    lengthBefore ps i = totalLength ps := by
  rw [lengthBefore, List.take_of_length_le h]

theorem eq_take_append_cons_drop {α : Type} {xs : List α} {i : Nat} {x : α} (hx : xs[i]? = some x) :
    xs = xs.take i ++ x :: xs.drop (i + 1) := by
  have hdrop := List.drop_eq_getElem?_toList_append (l := xs) (i := i)
  rw [hx] at hdrop
  exact (List.take_append_drop i xs).symm.trans (congrArg _ hdrop)

theorem drop_eq_take_append_drop {α : Type} (xs : List α) {i j : Nat} (h : i ≤ j) :
    xs.drop i = (xs.drop i).take (j - i) ++ xs.drop j := by
  have hrest : (xs.drop i).drop (j - i) = xs.drop j := by
    rw [List.drop_drop, Nat.add_sub_cancel' h]
  rw [← hrest, List.take_append_drop]

theorem getElem?_offsetsFrom (start : Nat) (ps : List (Piece δ)) (i : Nat) :
    (offsetsFrom start ps)[i]? = ps[i]?.map fun _ => start + lengthBefore ps i := by
  induction ps generalizing start i with
  | nil => rfl
  | cons p ps ih =>
    cases i with
    | zero => rfl
    | succ i =>
      simp only [offsetsFrom, List.getElem?_cons_succ, ih, lengthBefore, List.take_succ_cons,
        totalLength, Nat.add_assoc]

theorem getElem?_offsets (ps : List (Piece δ)) (i : Nat) :
    (offsets ps)[i]? = ps[i]?.map fun _ => lengthBefore ps i := by
  simp only [offsets, getElem?_offsetsFrom, Nat.zero_add]

theorem getElem?_placed (ps : List (Piece δ)) (i : Nat) :
    (placed ps)[i]? = ps[i]?.map fun p => (lengthBefore ps i, p) := by
  simp only [placed, List.zip, List.getElem?_zipWith, getElem?_offsets]
  cases ps[i]? <;> rfl

theorem getElem_offsets (ps : List (Piece δ)) {i : Nat} (h : i < (offsets ps).length) :
    (offsets ps)[i] = lengthBefore ps i := by
  have hi : i < ps.length := by rwa [length_offsets] at h
  have hget := getElem?_offsets ps i
  rw [List.getElem?_eq_getElem h, List.getElem?_eq_getElem hi] at hget
  exact Option.some.inj hget

section Search

variable {ps : List (Piece δ)} {test : Nat → Bool} {i : Nat}

theorem findIdx_offsets_le : (offsets ps).findIdx test ≤ ps.length := by
  rw [← length_offsets ps]
  exact List.findIdx_le_length

theorem not_of_lt_findIdx_offsets (h : i < (offsets ps).findIdx test) :
    test (lengthBefore ps i) = false := by
  have hi : i < (offsets ps).length := Nat.lt_of_lt_of_le h List.findIdx_le_length
  rw [← getElem_offsets ps hi]
  exact List.not_of_lt_findIdx h

theorem of_findIdx_offsets_lt (h : (offsets ps).findIdx test < ps.length) :
    test (lengthBefore ps ((offsets ps).findIdx test)) = true := by
  have hi : (offsets ps).findIdx test < (offsets ps).length := by rwa [length_offsets]
  rw [← getElem_offsets ps hi]
  exact List.findIdx_getElem

end Search

section Index

variable {ps : List (Piece δ)} (pos : Nat)

theorem indexAt_lt_length (h : ps ≠ []) : indexAt (offsets ps) pos < ps.length := by
  have hle : (offsets ps).findIdx (pos < ·) ≤ ps.length := findIdx_offsets_le
  have hpos := List.length_pos_iff.mpr h
  unfold indexAt
  omega

theorem indexBefore_lt_length (h : ps ≠ []) : indexBefore (offsets ps) pos < ps.length := by
  have hle : (offsets ps).findIdx (pos ≤ ·) ≤ ps.length := findIdx_offsets_le
  have hpos := List.length_pos_iff.mpr h
  unfold indexBefore
  omega

theorem lengthBefore_indexAt_le : lengthBefore ps (indexAt (offsets ps) pos) ≤ pos := by
  by_cases hz : indexAt (offsets ps) pos = 0
  · rw [hz, lengthBefore_zero]
    exact Nat.zero_le pos
  · have hlt : indexAt (offsets ps) pos < (offsets ps).findIdx (pos < ·) := by
      simp only [indexAt] at hz ⊢
      omega
    have hnot := not_of_lt_findIdx_offsets hlt
    simpa only [decide_eq_false_iff_not, Nat.not_lt] using hnot

theorem lt_lengthBefore_of_indexAt_lt {i : Nat} (h : indexAt (offsets ps) pos < i)
    (hi : i < ps.length) : pos < lengthBefore ps i := by
  have hle : (offsets ps).findIdx (pos < ·) ≤ i := by
    simp only [indexAt] at h
    omega
  have hfound := of_findIdx_offsets_lt (Nat.lt_of_le_of_lt hle hi)
  exact Nat.lt_of_lt_of_le (of_decide_eq_true hfound) (lengthBefore_mono ps hle)

theorem indexBefore_eq_zero_or_lt (ps : List (Piece δ)) :
    indexBefore (offsets ps) pos = 0 ∨ lengthBefore ps (indexBefore (offsets ps) pos) < pos := by
  by_cases hz : indexBefore (offsets ps) pos = 0
  · exact Or.inl hz
  · have hlt : indexBefore (offsets ps) pos < (offsets ps).findIdx (pos ≤ ·) := by
      simp only [indexBefore] at hz ⊢
      omega
    have hnot := not_of_lt_findIdx_offsets hlt
    exact Or.inr (by simpa only [decide_eq_false_iff_not, Nat.not_le] using hnot)

theorem lengthBefore_indexBefore_le : lengthBefore ps (indexBefore (offsets ps) pos) ≤ pos := by
  rcases indexBefore_eq_zero_or_lt pos ps with hz | hlt
  · rw [hz, lengthBefore_zero]
    exact Nat.zero_le pos
  · exact Nat.le_of_lt hlt

theorem le_lengthBefore_of_indexBefore_lt {i : Nat} (h : indexBefore (offsets ps) pos < i)
    (hi : i < ps.length) : pos ≤ lengthBefore ps i := by
  have hle : (offsets ps).findIdx (pos ≤ ·) ≤ i := by
    simp only [indexBefore] at h
    omega
  have hfound := of_findIdx_offsets_lt (Nat.lt_of_le_of_lt hle hi)
  exact Nat.le_trans (of_decide_eq_true hfound) (lengthBefore_mono ps hle)

/-- The piece found goes on behind the position, unless it is the last one. -/
theorem lt_lengthBefore_succ_indexAt (ps : List (Piece δ)) :
    pos < lengthBefore ps (indexAt (offsets ps) pos + 1) ∨
      lengthBefore ps (indexAt (offsets ps) pos + 1) = totalLength ps := by
  by_cases hnext : indexAt (offsets ps) pos + 1 < ps.length
  · exact Or.inl (lt_lengthBefore_of_indexAt_lt pos (Nat.lt_succ_self _) hnext)
  · exact Or.inr (lengthBefore_of_length_le (Nat.le_of_not_lt hnext))

variable {pos} {i : Nat}

theorem le_lengthBefore_succ_indexBefore (hpos : pos ≤ totalLength ps) :
    pos ≤ lengthBefore ps (indexBefore (offsets ps) pos + 1) := by
  by_cases hnext : indexBefore (offsets ps) pos + 1 < ps.length
  · exact le_lengthBefore_of_indexBefore_lt pos (Nat.lt_succ_self _) hnext
  · rwa [lengthBefore_of_length_le (Nat.le_of_not_lt hnext)]

/-- The searches for two positions in order find pieces in the wrong order only when both positions
are the border right before the latter piece. -/
theorem eq_border_of_indexBefore_lt {start stop : Nat} (hord : start ≤ stop) (h : ps ≠ [])
    (hlt : indexBefore (offsets ps) stop < indexAt (offsets ps) start) :
    start = lengthBefore ps (indexAt (offsets ps) start) ∧
      stop = lengthBefore ps (indexAt (offsets ps) start) := by
  have hle : lengthBefore ps (indexAt (offsets ps) start) ≤ start := lengthBefore_indexAt_le start
  have hge := le_lengthBefore_of_indexBefore_lt stop hlt (indexAt_lt_length start h)
  omega

theorem indexAt_eq (hi : i < ps.length) (hle : lengthBefore ps i ≤ pos)
    (hlt : i + 1 < ps.length → pos < lengthBefore ps (i + 1)) : indexAt (offsets ps) pos = i := by
  rcases Nat.lt_trichotomy (indexAt (offsets ps) pos) i with h | h | h
  · have hbefore := lt_lengthBefore_of_indexAt_lt pos h hi
    omega
  · exact h
  · have hat : lengthBefore ps (indexAt (offsets ps) pos) ≤ pos := lengthBefore_indexAt_le pos
    have hbound := indexAt_lt_length pos (List.ne_nil_of_length_pos (Nat.zero_lt_of_lt hi))
    have hnext := hlt (by omega)
    have hmono := lengthBefore_mono ps (show i + 1 ≤ indexAt (offsets ps) pos from h)
    omega

theorem indexBefore_eq (hi : i < ps.length) (hlt : i = 0 ∨ lengthBefore ps i < pos)
    (hle : i + 1 < ps.length → pos ≤ lengthBefore ps (i + 1)) :
    indexBefore (offsets ps) pos = i := by
  rcases Nat.lt_trichotomy (indexBefore (offsets ps) pos) i with h | h | h
  · have hbefore := le_lengthBefore_of_indexBefore_lt pos h hi
    omega
  · exact h
  · have hat := indexBefore_eq_zero_or_lt pos ps
    have hbound := indexBefore_lt_length pos (List.ne_nil_of_length_pos (Nat.zero_lt_of_lt hi))
    have hnext := hle (by omega)
    have hmono := lengthBefore_mono ps (show i + 1 ≤ indexBefore (offsets ps) pos from h)
    omega

end Index

end TracedText
