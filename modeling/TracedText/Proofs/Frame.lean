import TracedText.Proofs.EditTrace

/-!
# What an edit leaves of each piece

A piece that lies at or before the start of an edit, or at or after its stop, stays as it is. Of
any other piece there stays the part before the start, when the start lies inside of it, and the
part after the stop, when the stop does. What stands before the new pieces and after them is
just this for one piece after the other, so empty pieces on the border are kept as well, and no
empty part is made. The one exception is a list of a single empty piece. There both searches end
up at this piece, and the edit takes it out.
-/
namespace TracedText

variable {δ : Type} {ps : List (Piece δ)} {p : Piece δ} {q : Nat × Piece δ} {i j : Nat}

/-- There are characters of the piece on both sides of the position. -/
def Inside (pos : Nat) (q : Nat × Piece δ) : Prop := q.1 < pos ∧ pos < q.1 + q.2.length

instance (pos : Nat) (q : Nat × Piece δ) : Decidable (Inside pos q) := instDecidableAnd

section Placed

theorem map_snd_placed (ps : List (Piece δ)) : (placed ps).map Prod.snd = ps :=
  List.map_snd_zip (Nat.le_of_eq (length_offsets ps).symm)

theorem exists_of_mem_take_placed (h : q ∈ (placed ps).take i) :
    ∃ k < i, ps[k]? = some q.2 ∧ q.1 = lengthBefore ps k := by
  obtain ⟨k, hk⟩ := List.getElem?_of_mem h
  have hki : k < i := by
    refine Nat.lt_of_not_le fun hle => ?_
    rw [List.getElem?_take, if_neg (Nat.not_lt.mpr hle)] at hk
    cases hk
  rw [List.getElem?_take_of_lt hki, getElem?_placed, Option.map_eq_some_iff] at hk
  obtain ⟨p, hp, rfl⟩ := hk
  exact ⟨k, hki, hp, rfl⟩

theorem exists_of_mem_drop_placed (h : q ∈ (placed ps).drop i) :
    ∃ k, i ≤ k ∧ ps[k]? = some q.2 ∧ q.1 = lengthBefore ps k := by
  obtain ⟨k, hk⟩ := List.getElem?_of_mem h
  rw [List.getElem?_drop, getElem?_placed, Option.map_eq_some_iff] at hk
  obtain ⟨p, hp, rfl⟩ := hk
  exact ⟨i + k, Nat.le_add_right i k, hp, rfl⟩

theorem stop_le_of_mem_take_placed (h : q ∈ (placed ps).take i) :
    q.1 + q.2.length ≤ lengthBefore ps i := by
  obtain ⟨k, hk, hq, hoffset⟩ := exists_of_mem_take_placed h
  rw [hoffset, ← lengthBefore_succ hq]
  exact lengthBefore_mono ps hk

theorem le_start_of_mem_drop_placed (h : q ∈ (placed ps).drop i) : lengthBefore ps i ≤ q.1 := by
  obtain ⟨k, hk, -, hoffset⟩ := exists_of_mem_drop_placed h
  rw [hoffset]
  exact lengthBefore_mono ps hk

theorem flatMap_eq_map_snd {f : Nat × Piece δ → List (Piece δ)} {qs : List (Nat × Piece δ)}
    (h : ∀ q ∈ qs, f q = [q.2]) : qs.flatMap f = qs.map Prod.snd := by
  rw [List.map_eq_flatMap]
  exact List.flatMap_congr h

theorem placed_split (hp : ps[i]? = some p) :
    placed ps = (placed ps).take i ++ (lengthBefore ps i, p) :: (placed ps).drop (i + 1) := by
  apply eq_take_append_cons_drop
  rw [getElem?_placed, hp, Option.map_some]

theorem take_placed_split (hp : ps[i]? = some p) (hij : i < j) :
    (placed ps).take j = (placed ps).take i ++
      (lengthBefore ps i, p) :: ((placed ps).take j).drop (i + 1) := by
  have hget : ((placed ps).take j)[i]? = some (lengthBefore ps i, p) := by
    rw [List.getElem?_take_of_lt hij, getElem?_placed, hp, Option.map_some]
  have hsplit := eq_take_append_cons_drop hget
  rwa [List.take_take, Nat.min_eq_left (Nat.le_of_lt hij)] at hsplit

theorem countP_inside_le_one (pos : Nat) (ps : List (Piece δ)) :
    (placed ps).countP (Inside pos ·) ≤ 1 := by
  have key (start : Nat) (ps : List (Piece δ)) :
      ((offsetsFrom start ps).zip ps).countP (Inside pos ·) ≤ if start < pos then 1 else 0 := by
    induction ps generalizing start with
    | nil => exact Nat.zero_le _
    | cons p ps ih =>
      have hrest := ih (start + p.length)
      rw [offsetsFrom, List.zip_cons_cons, List.countP_cons]
      by_cases hin : Inside pos (start, p)
      · -- Every later piece starts after the position.
        have hstart : start < pos := hin.1
        have hstop : pos < start + p.length := hin.2
        rw [if_neg (by omega)] at hrest
        rw [if_pos (decide_eq_true hin), if_pos hstart]
        omega
      · rw [if_neg (by simpa only [decide_eq_true_eq] using hin)]
        split at hrest <;> split <;> omega
  refine Nat.le_trans (key 0 ps) ?_
  split <;> omega

end Placed

namespace Edit

variable (e : Edit δ)

def leaves (q : Nat × Piece δ) : List (Piece δ) :=
  if q.1 + q.2.length ≤ e.start ∨ e.stop ≤ q.1 then [q.2]
  else (if Inside e.start q then [q.2.take (e.start - q.1)] else []) ++
    (if Inside e.stop q then [q.2.drop (e.stop - q.1)] else [])

/-- The start or the stop lies inside of the piece. -/
def Cuts (q : Nat × Piece δ) : Prop := Inside e.start q ∨ Inside e.stop q

instance (q : Nat × Piece δ) : Decidable (e.Cuts q) := instDecidableOr

theorem countP_cuts_le_two (ps : List (Piece δ)) : (placed ps).countP (e.Cuts ·) ≤ 2 := by
  have hsum (qs : List (Nat × Piece δ)) : qs.countP (e.Cuts ·) ≤
      qs.countP (Inside e.start ·) + qs.countP (Inside e.stop ·) := by
    induction qs with
    | nil => exact Nat.le_refl 0
    | cons q qs ih =>
      simp only [List.countP_cons, decide_eq_true_eq]
      by_cases hcut : e.Cuts q
      · rw [if_pos hcut]
        rcases hcut with hin | hin
        · rw [if_pos hin]
          omega
        · rw [if_pos hin]
          omega
      · rw [if_neg hcut]
        omega
  have hstart := countP_inside_le_one e.start ps
  have hstop := countP_inside_le_one e.stop ps
  have hboth := hsum (placed ps)
  omega

/-- No part is empty, and there is none of a piece that is not cut. -/
theorem eq_or_pos_of_mem_leaves (h : p ∈ e.leaves q) : p = q.2 ∨ 0 < p.length ∧ e.Cuts q := by
  unfold leaves at h
  split at h
  · exact Or.inl (List.mem_singleton.mp h)
  · refine Or.inr ((List.mem_append.mp h).elim (fun h => ?_) fun h => ?_)
    · split at h
      next hin =>
        obtain ⟨hlt, hgt⟩ := hin
        rw [List.mem_singleton.mp h, Piece.length_take]
        exact ⟨by omega, Or.inl ⟨hlt, hgt⟩⟩
      next => cases h
    · split at h
      next hin =>
        obtain ⟨hlt, hgt⟩ := hin
        rw [List.mem_singleton.mp h, Piece.length_drop]
        exact ⟨by omega, Or.inr ⟨hlt, hgt⟩⟩
      next => cases h

theorem leaves_of_outside (h : q.1 + q.2.length ≤ e.start ∨ e.stop ≤ q.1) : e.leaves q = [q.2] :=
  if_pos h

/-- Of a piece that starts after the start and ends before the stop nothing stays. -/
theorem leaves_of_between (hstart : e.start < q.1) (hstop : q.1 + q.2.length < e.stop) :
    e.leaves q = [] := by
  have hnot : ¬ Inside e.start q := fun h => absurd h.1 (Nat.lt_asymm hstart)
  have hnot' : ¬ Inside e.stop q := fun h => absurd h.2 (Nat.lt_asymm hstop)
  rw [leaves, if_neg (by omega), if_neg hnot, if_neg hnot', List.append_nil]

/-- Of a piece that starts at or before the start, the edit leaves its head there. -/
theorem leaves_eq_head (hle : q.1 ≤ e.start) (hlt : e.start < q.1 + q.2.length)
    (hstop : q.1 + q.2.length ≤ e.stop) : e.leaves q = e.head q := by
  have hstart : Inside e.start q ↔ q.1 < e.start := and_iff_left hlt
  have hnot : ¬ Inside e.stop q := fun h => absurd h.2 (Nat.not_lt.mpr hstop)
  rw [leaves, if_neg (by omega), if_neg hnot, List.append_nil, head]
  simp only [hstart]

theorem leaves_eq_tail (hstart : e.start < q.1) (hlt : q.1 < e.stop) : e.leaves q = e.tail q := by
  have hstop : Inside e.stop q ↔ e.stop < q.1 + q.2.length := and_iff_right hlt
  have hnot : ¬ Inside e.start q := fun h => absurd h.1 (Nat.lt_asymm hstart)
  rw [leaves, if_neg (by omega), if_neg hnot, List.nil_append, tail]
  simp only [hstop]

/-- Both ends of the edit belong to one piece, which is not empty. -/
theorem leaves_eq_head_append_tail (hord : e.start ≤ e.stop) (hle : q.1 ≤ e.start)
    (hge : e.stop ≤ q.1 + q.2.length) (hpos : 0 < q.2.length) :
    e.leaves q = e.head q ++ e.tail q := by
  obtain ⟨offset, p⟩ := q
  dsimp only at hle hge hpos
  by_cases hfront : offset + p.length ≤ e.start
  · have hwhole : p.take (e.start - offset) = p := Piece.take_of_length_le (by omega)
    rw [e.leaves_of_outside (Or.inl hfront), head, tail, if_pos (by omega), if_neg (by omega),
      hwhole, List.append_nil]
  by_cases hback : e.stop ≤ offset
  · have hwhole : p.drop (e.stop - offset) = p := by
      rw [Nat.sub_eq_zero_of_le hback, Piece.drop_zero]
    rw [e.leaves_of_outside (Or.inr hback), head, tail, if_neg (by omega), if_pos (by omega),
      hwhole, List.nil_append]
  · have hstart : Inside e.start (offset, p) ↔ offset < e.start :=
      and_iff_left (Nat.lt_of_not_le hfront)
    have hstop : Inside e.stop (offset, p) ↔ e.stop < offset + p.length :=
      and_iff_right (Nat.lt_of_not_le hback)
    rw [leaves, if_neg (not_or.mpr ⟨hfront, hback⟩), head, tail]
    simp only [hstart, hstop]

theorem flatMap_leaves_take (h : lengthBefore ps i ≤ e.start) :
    ((placed ps).take i).flatMap e.leaves = ps.take i := by
  rw [flatMap_eq_map_snd, List.map_take, map_snd_placed]
  intro q hq
  exact e.leaves_of_outside (Or.inl (Nat.le_trans (stop_le_of_mem_take_placed hq) h))

theorem flatMap_leaves_drop (h : e.stop ≤ lengthBefore ps i) :
    ((placed ps).drop i).flatMap e.leaves = ps.drop i := by
  rw [flatMap_eq_map_snd, List.map_drop, map_snd_placed]
  intro q hq
  exact e.leaves_of_outside (Or.inr (Nat.le_trans h (le_start_of_mem_drop_placed hq)))

theorem flatMap_leaves_between (hi : e.start < lengthBefore ps i)
    (hj : lengthBefore ps j < e.stop) : (((placed ps).take j).drop i).flatMap e.leaves = [] := by
  rw [List.flatMap_eq_nil_iff]
  intro q hq
  have hstop := stop_le_of_mem_take_placed (List.mem_of_mem_drop hq)
  rw [List.drop_take] at hq
  have hstart := le_start_of_mem_drop_placed (List.mem_of_mem_take hq)
  exact e.leaves_of_between (by omega) (by omega)

theorem flatMap_leaves_within (hp : ps[i]? = some p) (hord : e.start ≤ e.stop)
    (hle : lengthBefore ps i ≤ e.start) (hge : e.stop ≤ lengthBefore ps (i + 1))
    (hpos : 0 < p.length) :
    (placed ps).flatMap e.leaves =
      ps.take i ++ e.head (lengthBefore ps i, p) ++
        (e.tail (lengthBefore ps i, p) ++ ps.drop (i + 1)) := by
  have hstop := hge
  rw [lengthBefore_succ hp] at hstop
  rw [placed_split hp, List.flatMap_append, List.flatMap_cons, e.flatMap_leaves_take hle,
    e.flatMap_leaves_drop hge, e.leaves_eq_head_append_tail hord hle hstop hpos]
  simp only [List.append_assoc]

/-- The edit starts in piece `i` and stops in a later one. -/
theorem flatMap_leaves_across {p' : Piece δ} (hp : ps[i]? = some p) (hp' : ps[j]? = some p')
    (hij : i < j) (hle : lengthBefore ps i ≤ e.start) (hlt : e.start < lengthBefore ps (i + 1))
    (hlt' : lengthBefore ps j < e.stop) (hge : e.stop ≤ lengthBefore ps (j + 1)) :
    (placed ps).flatMap e.leaves =
      ps.take i ++ e.head (lengthBefore ps i, p) ++
        (e.tail (lengthBefore ps j, p') ++ ps.drop (j + 1)) := by
  have hmono : lengthBefore ps (i + 1) ≤ lengthBefore ps j := lengthBefore_mono ps hij
  have hhead : e.leaves (lengthBefore ps i, p) = e.head (lengthBefore ps i, p) := by
    have hstop := Nat.le_trans hmono (Nat.le_of_lt hlt')
    rw [lengthBefore_succ hp] at hlt hstop
    exact e.leaves_eq_head hle hlt hstop
  have htail : e.leaves (lengthBefore ps j, p') = e.tail (lengthBefore ps j, p') :=
    e.leaves_eq_tail (Nat.lt_of_lt_of_le hlt hmono) hlt'
  rw [placed_split hp', take_placed_split hp hij, List.flatMap_append, List.flatMap_append,
    List.flatMap_cons, List.flatMap_cons, e.flatMap_leaves_take hle, hhead,
    e.flatMap_leaves_between hlt hlt', htail, e.flatMap_leaves_drop hge, List.append_nil]

section Kept

variable {e}

theorem stop_le_lengthBefore_last (hstop : e.stop ≤ totalLength ps) :
    e.stop ≤ lengthBefore ps (e.lastIndex ps + 1) := le_lengthBefore_succ_indexBefore hstop

variable (hstop : e.stop ≤ totalLength ps) (halone : ∀ p, ps = [p] → 0 < p.length)
include hstop halone

/-- Both searches can find an empty piece only where there is no other piece. -/
theorem length_pos_of_lastIndex_eq (hp : ps[e.firstIndex ps]? = some p)
    (hindex : e.lastIndex ps = e.firstIndex ps) : 0 < p.length := by
  refine Nat.pos_of_ne_zero fun hzero => ?_
  have hle : lengthBefore ps (e.firstIndex ps) ≤ e.start := lengthBefore_indexAt_le e.start
  have hge := stop_le_lengthBefore_last hstop
  rw [hindex, lengthBefore_succ hp, hzero, Nat.add_zero] at hge
  have hfirst : e.firstIndex ps = 0 := by
    rw [← hindex]
    refine (indexBefore_eq_zero_or_lt e.stop ps).resolve_right fun hlt => ?_
    rw [show indexBefore (offsets ps) e.stop = e.firstIndex ps from hindex] at hlt
    omega
  rcases e.start_lt_or_drop_eq_nil hp with hlt | hlast
  · omega
  · rw [hfirst] at hp hlast
    have hall := eq_take_append_cons_drop hp
    rw [hlast, List.take_zero, List.nil_append] at hall
    have hpos := halone p hall
    omega

/-- Around its new pieces an edit in order leaves what it leaves of one piece after the other. -/
theorem front_append_back (hord : e.start ≤ e.stop) (hps : ps ≠ []) :
    e.front ps ++ e.back ps = (placed ps).flatMap e.leaves := by
  obtain ⟨p, hp⟩ := e.exists_first hps
  obtain ⟨p', hp'⟩ := e.exists_last hps
  have hle : lengthBefore ps (e.firstIndex ps) ≤ e.start := lengthBefore_indexAt_le e.start
  have hge := stop_le_lengthBefore_last hstop
  simp only [front, back, getElem?_placed, hp, hp', Option.map_some, Option.elim_some]
  rcases Nat.lt_trichotomy (e.lastIndex ps) (e.firstIndex ps) with hlt | heq | hgt
  · -- No piece is taken out.
    have hborder := (e.eq_border_of_lastIndex_lt hord hps hlt).2
    rw [e.head_eq_nil_of_lastIndex_lt hord hps hlt, e.tail_eq_nil_of_lastIndex_lt hord hps hp' hlt,
      Nat.max_eq_left hlt, List.append_nil, List.nil_append, ← e.flatMap_leaves_take hle,
      ← e.flatMap_leaves_drop (Nat.le_of_eq hborder), ← List.flatMap_append, List.take_append_drop]
  · obtain rfl : p = p' := Option.some.inj (hp.symm.trans (heq ▸ hp'))
    have hpos := length_pos_of_lastIndex_eq hstop halone hp heq
    rw [heq] at hge ⊢
    rw [e.flatMap_leaves_within hp hord hle hge hpos, Nat.max_eq_right (Nat.le_succ _)]
  · have hlt : e.start < lengthBefore ps (e.firstIndex ps + 1) :=
      lt_lengthBefore_of_indexAt_lt e.start (Nat.lt_succ_self _)
        (Nat.lt_of_le_of_lt hgt (indexBefore_lt_length e.stop hps))
    have hlt' : lengthBefore ps (e.lastIndex ps) < e.stop :=
      (indexBefore_eq_zero_or_lt e.stop ps).resolve_left (Nat.ne_of_gt (Nat.zero_lt_of_lt hgt))
    rw [e.flatMap_leaves_across hp hp' hgt hle hlt hlt' hge, Nat.max_eq_right (by omega)]

end Kept

theorem totalLength_front (hstart : e.start ≤ totalLength ps) (hps : ps ≠ []) :
    totalLength (e.front ps) = e.start := by
  rw [← length_traced, e.traced_front hps, List.length_take, length_traced, Nat.min_eq_left hstart]

theorem excerpts_applyTo (hps : ps ≠ []) :
    excerpts (e.applyTo ps) =
      excerpts (e.front ps) ++ excerpts e.new ++ excerpts (e.back ps) := by
  simp only [excerpts_eq_flatMap]
  exact e.flatMap_applyTo seamless_excerpt? hps

end Edit

namespace Buffer

/-- An edit within a text that is not empty puts its located pieces between two groups.
Together these are what it leaves of the old pieces, in the old order: those outside of the
edit as they are, empty ones on its border too, and of at most two pieces the parts on the
other side of a position inside of them, none of which is empty. The first group takes up the
text before the start. -/
theorem excerpts_apply (b : Buffer δ) (e : Edit δ) (hpos : 0 < b.length) (hord : e.start ≤ e.stop)
    (hstop : e.stop ≤ b.length) :
    ∃ before after,
      excerpts (b.apply e).pieces = excerpts before ++ excerpts e.new ++ excerpts after ∧
      before ++ after = (placed b.pieces).flatMap e.leaves ∧ totalLength before = e.start ∧
      (∀ q ∈ placed b.pieces, ∀ p ∈ e.leaves q, p = q.2 ∨ 0 < p.length ∧ e.Cuts q) ∧
      (placed b.pieces).countP (e.Cuts ·) ≤ 2 := by
  have hps : b.pieces ≠ [] := by
    intro hnil
    rw [length, hnil] at hpos
    exact absurd hpos (Nat.lt_irrefl 0)
  have halone : ∀ p, b.pieces = [p] → 0 < p.length := by
    intro p hone
    rwa [length, hone] at hpos
  exact ⟨e.front b.pieces, e.back b.pieces, e.excerpts_applyTo hps,
    Edit.front_append_back hstop halone hord hps, e.totalLength_front (Nat.le_trans hord hstop) hps,
    fun q _ p hp => e.eq_or_pos_of_mem_leaves hp, e.countP_cuts_le_two b.pieces⟩

/-- The edit cuts one piece and stops between two others. One empty located piece is inside of
the edit, and one stands where it stops. -/
theorem excerpts_apply_empty_at_stop :
    let void (n : Nat) : Piece Nat := .located ⟨[], some "s", .offset n, none⟩
    let b : Buffer Nat :=
      ⟨[.located ⟨['a', 'b'], none, .range 4 5, none⟩, void 1, .bare ['-'], void 2,
        .located ⟨['c', 'd'], none, .offset 7, none⟩]⟩
    let e : Edit Nat := ⟨1, 3, [void 3, .bare ['X']]⟩
    0 < b.length ∧ e.start ≤ e.stop ∧ e.stop ≤ b.length ∧
      ∃ before after,
        excerpts (b.apply e).pieces =
          excerpts before ++ [⟨[], some "s", .offset 3, none⟩] ++ excerpts after ∧
        before ++ after = [.located ⟨['a'], none, .range 4 4, none⟩, void 2,
          .located ⟨['c', 'd'], none, .offset 7, none⟩] ∧ totalLength before = 1 := by
  intro void b e
  have hpos : 0 < b.length := by decide
  have hord : e.start ≤ e.stop := by decide
  have hstop : e.stop ≤ b.length := by decide
  obtain ⟨before, after, hnew, hleft, hfront, -⟩ := b.excerpts_apply e hpos hord hstop
  exact ⟨hpos, hord, hstop, before, after, hnew, hleft.trans (by decide), hfront⟩

end Buffer

end TracedText
