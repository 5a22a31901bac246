import TracedText.Proofs.Layout

/-!
# The two searches enclose a stretch of the text

A search by halving finds the place where a table falls in two. The table of offsets ascends, so
it falls in two at just one place for either search, and the piece found is the one before this
place, or the first piece where nothing is before it.

For a stretch of the text that lies within it, the two pieces found are the ones that it starts
and stops in, and nothing of it lies in a piece outside of them. They come in the wrong order
only for an empty stretch on a border. Then one piece stops there, the other starts there, and
what is between them is empty.
-/
namespace TracedText

variable {δ : Type} {ps : List (Piece δ)} {table : List Nat} {test : Nat → Bool} {k m : Nat}

section Partition

/-- The table falls in two at `k`: the test holds of what is before it and fails from there on. -/
structure IsPartitionPoint (table : List Nat) (test : Nat → Bool) (k : Nat) : Prop where
  le_length : k ≤ table.length
  before : ∀ i x, i < k → table[i]? = some x → test x = true
  after : ∀ i x, k ≤ i → table[i]? = some x → test x = false

theorem IsPartitionPoint.le (hk : IsPartitionPoint table test k)
    (hm : IsPartitionPoint table test m) : k ≤ m := by
  refine Nat.le_of_not_lt fun hlt => ?_
  have hget := List.getElem?_eq_getElem (Nat.lt_of_lt_of_le hlt hk.le_length)
  have htrue := hk.before m _ hlt hget
  have hfalse := hm.after m _ (Nat.le_refl m) hget
  exact absurd (htrue.symm.trans hfalse) Bool.true_eq_false.mp

/-- An ascending table falls in two for a test that small numbers pass. -/
theorem isPartitionPoint_findIdx (htable : table.Pairwise (· ≤ ·))
    (htest : ∀ x y, x ≤ y → test y = true → test x = true) :
    IsPartitionPoint table test (table.findIdx (!test ·)) where
  le_length := List.findIdx_le_length
  before i x hi hx := by
    obtain ⟨hlt, rfl⟩ := List.getElem?_eq_some_iff.mp hx
    have hnot := List.not_of_lt_findIdx hi
    simpa only [Bool.not_eq_false'] using hnot
  after i x hi hx := by
    obtain ⟨hlt, rfl⟩ := List.getElem?_eq_some_iff.mp hx
    have hfound := List.findIdx_getElem (w := Nat.lt_of_le_of_lt hi hlt)
    have hle : table[table.findIdx (!test ·)] ≤ table[i] := by
      rcases Nat.eq_or_lt_of_le hi with heq | hbefore
      · simp only [heq, Nat.le_refl]
      · exact List.pairwise_iff_getElem.mp htable _ _ _ hlt hbefore
    cases hi : test table[i] with
    | false => rfl
    | true =>
      rw [htest _ _ hle hi] at hfound
      cases hfound

theorem isPartitionPoint_iff (htable : table.Pairwise (· ≤ ·))
    (htest : ∀ x y, x ≤ y → test y = true → test x = true) :
    IsPartitionPoint table test k ↔ k = table.findIdx (!test ·) := by
  have hfind := isPartitionPoint_findIdx htable htest
  constructor
  · intro hk
    exact Nat.le_antisymm (hk.le hfind) (hfind.le hk)
  · rintro rfl
    exact hfind

theorem exists_partitionPoint_indexAt (htable : table.Pairwise (· ≤ ·)) (pos : Nat) :
    ∃ k, (∀ m, IsPartitionPoint table (· ≤ pos) m ↔ m = k) ∧ indexAt table pos = k - 1 := by
  have htest (x y : Nat) (hxy : x ≤ y) (hy : decide (y ≤ pos) = true) : decide (x ≤ pos) = true :=
    decide_eq_true (Nat.le_trans hxy (of_decide_eq_true hy))
  refine ⟨_, fun m => isPartitionPoint_iff htable htest, ?_⟩
  simp only [indexAt, ← decide_not, Nat.not_le]

theorem exists_partitionPoint_indexBefore (htable : table.Pairwise (· ≤ ·)) (pos : Nat) :
    ∃ k, (∀ m, IsPartitionPoint table (· < pos) m ↔ m = k) ∧ indexBefore table pos = k - 1 := by
  have htest (x y : Nat) (hxy : x ≤ y) (hy : decide (y < pos) = true) : decide (x < pos) = true :=
    decide_eq_true (Nat.lt_of_le_of_lt hxy (of_decide_eq_true hy))
  refine ⟨_, fun m => isPartitionPoint_iff htable htest, ?_⟩
  simp only [indexBefore, ← decide_not, Nat.not_lt]

theorem pairwise_offsets (ps : List (Piece δ)) : (offsets ps).Pairwise (· ≤ ·) := by
  rw [List.pairwise_iff_getElem]
  intro i j hi hj hij
  rw [getElem_offsets, getElem_offsets]
  exact lengthBefore_mono ps (Nat.le_of_lt hij)

end Partition

theorem getElem?_placed_eq_some {i o : Nat} {p : Piece δ} :
    (placed ps)[i]? = some (o, p) ↔ ps[i]? = some p ∧ o = lengthBefore ps i := by
  rw [getElem?_placed]
  cases ps[i]? with
  | none => simp only [Option.map_none, reduceCtorEq, false_and]
  | some q => simp only [Option.map_some, Option.some.injEq, Prod.mk.injEq, eq_comm, and_comm]

/-- The stretch from `start` to `stop` begins in piece `i` and ends in piece `j`. -/
structure Encloses (ps : List (Piece δ)) (start stop i j : Nat) : Prop where
  first : ∃ o p, (placed ps)[i]? = some (o, p) ∧ o ≤ start ∧ start ≤ o + p.length ∧
    (start ≠ totalLength ps → start < o + p.length)
  last : ∃ o p, (placed ps)[j]? = some (o, p) ∧ (0 < stop → o < stop ∧ stop ≤ o + p.length)
  between : ∀ k o p, (placed ps)[k]? = some (o, p) →
    (∃ pos, start ≤ pos ∧ pos < stop ∧ o ≤ pos ∧ pos < o + p.length) → i ≤ k ∧ k ≤ j
  crossed : j < i → start = stop ∧ (offsets ps)[i]? = some start ∧
    (∀ k p, j < k → k < i → ps[k]? = some p → p.length = 0) ∧
    ∃ o p, (placed ps)[j]? = some (o, p) ∧ o + p.length = start

section Search

variable {start stop : Nat} {p : Piece δ}

theorem exists_placed_indexAt (h : ps ≠ []) (hstart : start ≤ totalLength ps) :
    ∃ o p, (placed ps)[indexAt (offsets ps) start]? = some (o, p) ∧ o ≤ start ∧
      start ≤ o + p.length ∧ (start ≠ totalLength ps → start < o + p.length) := by
  have hp := List.getElem?_eq_getElem (indexAt_lt_length start h)
  have hreach := lt_lengthBefore_succ_indexAt start ps
  rw [lengthBefore_succ hp] at hreach
  exact ⟨_, _, getElem?_placed_eq_some.mpr ⟨hp, rfl⟩, lengthBefore_indexAt_le start, by omega,
    fun _ => by omega⟩

theorem exists_placed_indexBefore (h : ps ≠ []) (hstop : stop ≤ totalLength ps) :
    ∃ o p, (placed ps)[indexBefore (offsets ps) stop]? = some (o, p) ∧
      (0 < stop → o < stop ∧ stop ≤ o + p.length) := by
  have hp := List.getElem?_eq_getElem (indexBefore_lt_length stop h)
  have hreach := le_lengthBefore_succ_indexBefore hstop
  rw [lengthBefore_succ hp] at hreach
  refine ⟨_, _, getElem?_placed_eq_some.mpr ⟨hp, rfl⟩, fun hpos => ⟨?_, hreach⟩⟩
  rcases indexBefore_eq_zero_or_lt stop ps with hzero | hlt
  · rwa [hzero, lengthBefore_zero]
  · exact hlt

theorem index_between (hp : ps[k]? = some p) {pos : Nat} (hstart : start ≤ pos) (hstop : pos < stop)
    (hle : lengthBefore ps k ≤ pos) (hlt : pos < lengthBefore ps k + p.length) :
    indexAt (offsets ps) start ≤ k ∧ k ≤ indexBefore (offsets ps) stop := by
  have hk := (List.getElem?_eq_some_iff.mp hp).1
  constructor
  · refine Nat.le_of_not_lt fun hbefore => ?_
    have hmono := lengthBefore_mono ps (show k + 1 ≤ indexAt (offsets ps) start from hbefore)
    have hat : lengthBefore ps (indexAt (offsets ps) start) ≤ start := lengthBefore_indexAt_le start
    rw [lengthBefore_succ hp] at hmono
    omega
  · refine Nat.le_of_not_lt fun hafter => ?_
    have hlast := le_lengthBefore_of_indexBefore_lt stop hafter hk
    omega

/-- Between a piece that stops on the border and one that starts there, every piece is empty. -/
theorem length_eq_zero_of_between (hle : start ≤ stop) (h : ps ≠ []) (hp : ps[k]? = some p)
    (hbefore : indexBefore (offsets ps) stop < k) (hafter : k < indexAt (offsets ps) start) :
    p.length = 0 := by
  have hborder := (eq_border_of_indexBefore_lt hle h (Nat.lt_trans hbefore hafter)).2
  have hk := (List.getElem?_eq_some_iff.mp hp).1
  have hlast := le_lengthBefore_of_indexBefore_lt stop hbefore hk
  have hmono := lengthBefore_mono ps (show k + 1 ≤ indexAt (offsets ps) start from hafter)
  rw [lengthBefore_succ hp] at hmono
  omega

theorem exists_placed_border (hle : start ≤ stop) (hstop : stop ≤ totalLength ps) (h : ps ≠ [])
    (hindex : indexBefore (offsets ps) stop < indexAt (offsets ps) start) :
    ∃ o p, (placed ps)[indexBefore (offsets ps) stop]? = some (o, p) ∧ o + p.length = start := by
  obtain ⟨hstart, hend⟩ := eq_border_of_indexBefore_lt hle h hindex
  have hp := List.getElem?_eq_getElem (indexBefore_lt_length stop h)
  have hreach := le_lengthBefore_succ_indexBefore hstop
  have hmono := lengthBefore_mono ps
    (show indexBefore (offsets ps) stop + 1 ≤ indexAt (offsets ps) start from hindex)
  rw [lengthBefore_succ hp] at hreach hmono
  exact ⟨_, _, getElem?_placed_eq_some.mpr ⟨hp, rfl⟩, by omega⟩

theorem encloses_search (hne : ps ≠ []) (hle : start ≤ stop) (hstop : stop ≤ totalLength ps) :
    Encloses ps start stop (indexAt (offsets ps) start) (indexBefore (offsets ps) stop) where
  first := exists_placed_indexAt hne (Nat.le_trans hle hstop)
  last := exists_placed_indexBefore hne hstop
  between k o p hplaced hin := by
    obtain ⟨pos, hstart, hpos, hle, hlt⟩ := hin
    obtain ⟨hp, rfl⟩ := getElem?_placed_eq_some.mp hplaced
    exact index_between hp hstart hpos hle hlt
  crossed hindex := by
    obtain ⟨hstart, hend⟩ := eq_border_of_indexBefore_lt hle hne hindex
    refine ⟨hstart.trans hend.symm, ?_, fun k p hbefore hafter hp => ?_,
      exists_placed_border hle hstop hne hindex⟩
    · rw [getElem?_offsets, List.getElem?_eq_getElem (indexAt_lt_length start hne), Option.map_some,
        ← hstart]
    · exact length_eq_zero_of_between hle hne hp hbefore hafter

end Search

/-- The table of offsets ascends and falls in two at one place for either search, which gives
the index before it. For a stretch within the text the two pieces that they find enclose it. -/
theorem searches_enclose_stretch {start stop : Nat} (hne : ps ≠ []) (hle : start ≤ stop)
    (hstop : stop ≤ totalLength ps) :
    (offsets ps).Pairwise (· ≤ ·) ∧
    (∃ k, (∀ m, IsPartitionPoint (offsets ps) (· ≤ start) m ↔ m = k) ∧
      indexAt (offsets ps) start = k - 1) ∧
    (∃ k, (∀ m, IsPartitionPoint (offsets ps) (· < stop) m ↔ m = k) ∧
      indexBefore (offsets ps) stop = k - 1) ∧
    Encloses ps start stop (indexAt (offsets ps) start) (indexBefore (offsets ps) stop) :=
  ⟨pairwise_offsets ps, exists_partitionPoint_indexAt (pairwise_offsets ps) start,
    exists_partitionPoint_indexBefore (pairwise_offsets ps) stop, encloses_search hne hle hstop⟩

/-- Two empty pieces stand on the border between two others. What is found for the end of an empty
stretch there is the piece in front of them, and for its start the one behind them. -/
theorem searches_enclose_stretch_on_border :
    let ps : List (Piece Nat) := [.located ⟨['a', 'b', 'c'], none, .offset 0, none⟩, .bare [],
      .located ⟨[], some "s", .range 4 2, some 1⟩, .bare ['d', 'e']]
    ps ≠ [] ∧ 3 ≤ totalLength ps ∧ indexAt (offsets ps) 3 = 3 ∧ indexBefore (offsets ps) 3 = 0 ∧
      (offsets ps).Pairwise (· ≤ ·) ∧
      (∃ o p, (placed ps)[3]? = some (o, p) ∧ o ≤ 3 ∧ 3 < o + p.length) ∧
      (∃ o p, (placed ps)[0]? = some (o, p) ∧ o < 3 ∧ o + p.length = 3) ∧
      ∀ k p, 0 < k → k < 3 → ps[k]? = some p → p.length = 0 := by
  intro ps
  have hne : ps ≠ [] := List.cons_ne_nil _ _
  have hstop : 3 ≤ totalLength ps := by decide
  have hat : indexAt (offsets ps) 3 = 3 := by decide
  have hbefore : indexBefore (offsets ps) 3 = 0 := by decide
  obtain ⟨htable, -, -, hfirst, hlast, -, hcrossed⟩ :=
    searches_enclose_stretch hne (Nat.le_refl 3) hstop
  rw [hat, hbefore] at hcrossed
  rw [hat] at hfirst
  rw [hbefore] at hlast
  obtain ⟨o, p, hp, hle, -, hlt⟩ := hfirst
  obtain ⟨o', p', hp', hin⟩ := hlast
  obtain ⟨-, -, hempty, o'', p'', hp'', hend⟩ := hcrossed (by decide)
  obtain ⟨rfl, rfl⟩ := Prod.mk.inj (Option.some.inj (hp'.symm.trans hp''))
  exact ⟨hne, hstop, hat, hbefore, htable, ⟨o, p, hp, hle, hlt (by decide)⟩,
    ⟨o', p', hp', (hin (by decide)).1, hend⟩, hempty⟩

end TracedText
