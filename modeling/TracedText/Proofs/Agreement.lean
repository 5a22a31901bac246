import TracedText.Proofs.NormalForm

/-!
# Both kinds of edit agree

A source edit always puts its target into the splice. An edit by position at the same characters
does not do so when it inserts on a border of the target: there it leaves the target where it
is. The splices differ then, and so do the bare neighbours they take in, but not what they make
of the list. A located piece at either end of a splice may as well be left outside, as nothing
is joined across it.
-/
namespace TracedText

variable {δ : Type} {ps : List (Piece δ)} {i : Nat} {x : Excerpt δ}

def bareAt (ps : List (Piece δ)) (i : Nat) : List (Piece δ) := ps[i]?.toList.filter (!·.isLocated)

def bareBefore (ps : List (Piece δ)) : Nat → List (Piece δ)
  | 0 => []
  | i + 1 => bareAt ps i

theorem bareAt_of_located (h : ps[i]? = some (.located x)) : bareAt ps i = [] := by
  rw [bareAt, h]
  rfl

theorem bareAt_append_drop (ps : List (Piece δ)) (i : Nat) :
    bareAt ps i ++ ps.drop (i + (bareAt ps i).length) = ps.drop i := by
  have hdrop := List.drop_eq_getElem?_toList_append (l := ps) (i := i)
  unfold bareAt
  cases h : ps[i]? with
  | none => rfl
  | some p =>
    rw [h] at hdrop
    cases p with
    | located x => rfl
    | bare t => exact hdrop.symm

theorem take_append_bareBefore (ps : List (Piece δ)) (i : Nat) :
    ps.take (i - (bareBefore ps i).length) ++ bareBefore ps i = ps.take i := by
  cases i with
  | zero => rfl
  | succ i =>
    have htake := List.take_add_one (l := ps) (i := i)
    change ps.take (i + 1 - (bareAt ps i).length) ++ bareAt ps i = ps.take (i + 1)
    unfold bareAt
    cases h : ps[i]? with
    | none => exact List.append_nil _
    | some p =>
      rw [h] at htake
      cases p with
      | located x => exact List.append_nil _
      | bare t => exact htake.symm

/-- At most one piece is taken in on a side, and it is not empty, so it is already joined. -/
theorem coalesce_bareAt (h : ∀ p ∈ ps, p.isEmpty = false) (i : Nat) :
    coalesce (bareAt ps i) = bareAt ps i := by
  unfold bareAt
  cases hi : ps[i]? with
  | none => rfl
  | some p =>
    cases p with
    | located x => rfl
    | bare t =>
      have ht : t ≠ [] := List.isEmpty_eq_false_iff.mp (h _ (List.mem_of_getElem? hi))
      exact Coalesced.coalesce_eq ⟨ht, nofun, trivial⟩

theorem coalesce_bareBefore (h : ∀ p ∈ ps, p.isEmpty = false) (i : Nat) :
    coalesce (bareBefore ps i) = bareBefore ps i := by
  cases i with
  | zero => rfl
  | succ i => exact coalesce_bareAt h i

namespace Splice

theorem widenLeft_eq (s : Splice δ) (ps : List (Piece δ)) :
    s.widenLeft ps = ⟨s.first - (bareBefore ps s.first).length, s.past,
      bareBefore ps s.first ++ s.pieces⟩ := by
  obtain ⟨first, past, pieces⟩ := s
  cases first with
  | zero => rfl
  | succ i =>
    change _ = Splice.mk (i + 1 - (bareAt ps i).length) past (bareAt ps i ++ pieces)
    cases h : ps[i]? with
    | none =>
      simp only [widenLeft, bareAt, h]
      rfl
    | some p =>
      cases p with
      | located x =>
        simp only [widenLeft, bareAt, h]
        rfl
      | bare t =>
        simp only [widenLeft, bareAt, h]
        rfl

theorem widenRight_eq (s : Splice δ) (ps : List (Piece δ)) :
    s.widenRight ps =
      ⟨s.first, s.past + (bareAt ps s.past).length, s.pieces ++ bareAt ps s.past⟩ := by
  cases h : ps[s.past]? with
  | none =>
    simp only [widenRight, bareAt, h, Option.toList_none, List.filter_nil, List.append_nil,
      List.length_nil, Nat.add_zero]
  | some p =>
    cases p with
    | located x =>
      rw [bareAt_of_located h, List.append_nil]
      simp only [widenRight, h, List.length_nil, Nat.add_zero]
    | bare t =>
      simp only [widenRight, bareAt, h]
      rfl

/-- A splice with the bare pieces that it takes in on both sides. -/
theorem applyTo_widen (s : Splice δ) (ps : List (Piece δ)) :
    (s.widen ps).applyTo ps =
      ps.take (s.first - (bareBefore ps s.first).length) ++
        coalesce (bareBefore ps s.first ++ s.pieces ++ bareAt ps s.past) ++
          ps.drop (s.past + (bareAt ps s.past).length) := by
  rw [widen, widenRight_eq, widenLeft_eq]
  rfl

variable (hps : ∀ p ∈ ps, p.isEmpty = false) (hi : ps[i]? = some (.located x))
include hps hi

/-- A located piece that a splice puts back as its last one can be left where it is. -/
theorem applyTo_leave_last (first : Nat) (new : List (Piece δ)) :
    ((⟨first, i + 1, new ++ [.located x]⟩ : Splice δ).widen ps).applyTo ps =
      ((⟨first, i, new⟩ : Splice δ).widen ps).applyTo ps := by
  have hdrop : ps.drop i = .located x :: ps.drop (i + 1) := by
    rw [List.drop_eq_getElem?_toList_append (i := i), hi]
    rfl
  have hjoin : coalesce (bareBefore ps first ++ (new ++ [.located x]) ++ bareAt ps (i + 1)) =
      coalesce (bareBefore ps first ++ new) ++ .located x :: bareAt ps (i + 1) := by
    rw [← List.append_assoc, List.append_assoc _ [_], List.singleton_append,
      coalesce_append_located, coalesce_bareAt hps]
  rw [applyTo_widen, applyTo_widen]
  simp only [hjoin, bareAt_of_located hi, List.append_nil, List.length_nil, Nat.add_zero]
  rw [hdrop, ← bareAt_append_drop ps (i + 1)]
  simp only [List.append_assoc, List.cons_append]

theorem applyTo_leave_first (past : Nat) (new : List (Piece δ)) :
    ((⟨i, past, .located x :: new⟩ : Splice δ).widen ps).applyTo ps =
      ((⟨i + 1, past, new⟩ : Splice δ).widen ps).applyTo ps := by
  have htake : ps.take (i + 1) = ps.take i ++ [.located x] := by
    rw [List.take_add_one, hi]
    rfl
  have hnone : bareBefore ps (i + 1) = [] := bareAt_of_located hi
  have hjoin : coalesce (bareBefore ps i ++ .located x :: new ++ bareAt ps past) =
      bareBefore ps i ++ .located x :: coalesce (new ++ bareAt ps past) := by
    rw [List.append_assoc, List.cons_append, coalesce_append_located, coalesce_bareBefore hps]
  rw [applyTo_widen, applyTo_widen]
  simp only [hjoin, hnone, List.nil_append, List.length_nil, Nat.sub_zero]
  rw [htake, ← take_append_bareBefore ps i]
  simp only [List.append_assoc, List.cons_append, List.nil_append]

end Splice

/-- An edit that inserts on a border takes no piece out and cuts none. -/
theorem Edit.applyTo_of_lastIndex_lt {e : Edit δ} (hord : e.start ≤ e.stop) (hps : ps ≠ [])
    (hlt : e.lastIndex ps < e.firstIndex ps) :
    e.applyTo ps =
      ((⟨e.firstIndex ps, e.firstIndex ps, e.new⟩ : Splice δ).widen ps).applyTo ps := by
  obtain ⟨p, hp⟩ := e.exists_first hps
  obtain ⟨q, hq⟩ := e.exists_last hps
  rw [applyTo, splice, if_neg (by simpa only [List.isEmpty_iff] using hps), Nat.max_eq_left hlt,
    pieces, getElem?_placed, getElem?_placed, hp, hq, Option.map_some, Option.map_some,
    Option.elim_some, Option.elim_some, e.head_eq_nil_of_lastIndex_lt hord hps hlt,
    e.tail_eq_nil_of_lastIndex_lt hord hps hq hlt, List.nil_append, List.append_nil]

namespace SourceEdit

variable {e : SourceEdit δ}

/-- The edit by position that replaces the same characters of a target which starts at `offset`. -/
def placed (e : SourceEdit δ) (offset : Nat) (x : Excerpt δ) : Edit δ :=
  ⟨offset + (e.start - x.span.start), offset + (e.stop - x.span.start), e.new⟩

theorem placed_start_le (hord : e.start ≤ e.stop) (offset : Nat) (x : Excerpt δ) :
    (e.placed offset x).start ≤ (e.placed offset x).stop :=
  Nat.add_le_add_left (Nat.sub_le_sub_right hord _) _

theorem head_placed (e : SourceEdit δ) (offset : Nat) (x : Excerpt δ) :
    (e.placed offset x).head (offset, .located x) = e.head x := by
  simp only [placed, Edit.head, head, Nat.add_sub_cancel_left, Nat.lt_add_right_iff_pos,
    Nat.sub_pos_iff_lt]

section Index

variable (hx : x.IsExact) (hin : e.isWithin x = true) (hi : ps[i]? = some (.located x))
include hx hin hi

theorem firstIndex_placed (h : e.start < x.span.stop ∨ i + 1 = ps.length) :
    (e.placed (lengthBefore ps i) x).firstIndex ps = i := by
  obtain ⟨-, hle, hge⟩ := isWithin_iff.mp hin
  have hstop : x.span.stop = x.span.start + x.length := hx
  have hsucc : lengthBefore ps (i + 1) = lengthBefore ps i + x.length := lengthBefore_succ hi
  have hlen : i < ps.length := (List.getElem?_eq_some_iff.mp hi).1
  refine indexAt_eq hlen (Nat.le_add_right _ _) fun hnext => ?_
  rw [hsucc]
  dsimp only [placed]
  omega

theorem lastIndex_placed (h : x.span.start < e.stop ∨ i = 0) :
    (e.placed (lengthBefore ps i) x).lastIndex ps = i := by
  obtain ⟨-, hle, hge⟩ := isWithin_iff.mp hin
  have hstop : x.span.stop = x.span.start + x.length := hx
  have hsucc : lengthBefore ps (i + 1) = lengthBefore ps i + x.length := lengthBefore_succ hi
  have hlen : i < ps.length := (List.getElem?_eq_some_iff.mp hi).1
  refine indexBefore_eq hlen ?_ fun _ => ?_
  · dsimp only [placed]
    omega
  · rw [hsucc]
    dsimp only [placed]
    omega

end Index

section Exact

variable (hx : x.IsExact) (hin : e.isWithin x = true) (hord : e.start ≤ e.stop)
include hx hin hord

theorem tail_placed (offset : Nat) : (e.placed offset x).tail (offset, .located x) = e.tail x := by
  obtain ⟨-, hle, hge⟩ := isWithin_iff.mp hin
  have hstop : x.span.stop = x.span.start + x.length := hx
  have hlength : (Piece.located x).length = x.length := rfl
  have hiff : offset + (e.stop - x.span.start) < offset + x.length ↔ e.stop < x.span.stop := by
    omega
  simp only [tail_eq hx hin hord, placed, Edit.tail, hlength, hiff, Nat.add_sub_cancel_left]

variable (hi : ps[i]? = some (.located x))
include hi

theorem splice_placed (hfirst : (e.placed (lengthBefore ps i) x).firstIndex ps = i)
    (hlast : (e.placed (lengthBefore ps i) x).lastIndex ps = i) :
    (e.placed (lengthBefore ps i) x).splice ps = e.splice (i, x) := by
  have hne : ¬ ps.isEmpty = true := by
    rw [List.isEmpty_iff]
    rintro rfl
    cases hi
  rw [Edit.splice, if_neg hne, Edit.pieces, hfirst, hlast, getElem?_placed, hi, Option.map_some,
    Option.elim_some, Option.elim_some, head_placed, tail_placed hx hin hord,
    Nat.max_eq_right (Nat.le_succ i)]
  rfl

variable (hps : ∀ p ∈ ps, p.isEmpty = false)
include hps

/-- An insertion in front of the target, which is not the first piece. -/
theorem applyTo_placed_before (hborder : e.stop = x.span.start) (hpos : 0 < i)
    (hlength : 0 < x.length) :
    (e.placed (lengthBefore ps i) x).applyTo ps = ((e.splice (i, x)).widen ps).applyTo ps := by
  obtain ⟨-, hle, -⟩ := isWithin_iff.mp hin
  have hstop : x.span.stop = x.span.start + x.length := hx
  have hne : ps ≠ [] := List.ne_nil_of_mem (List.mem_of_getElem? hi)
  have hfirst := firstIndex_placed hx hin hi (Or.inl (by omega))
  have hlast : (e.placed (lengthBefore ps i) x).lastIndex ps < i := by
    rcases indexBefore_eq_zero_or_lt (e.placed (lengthBefore ps i) x).stop ps with hzero | hlt
    · rwa [Edit.lastIndex, hzero]
    · refine Nat.lt_of_not_le fun hge => ?_
      have hmono := lengthBefore_mono ps hge
      dsimp only [placed, Edit.lastIndex] at hlt hmono
      omega
  have hplaced := Edit.applyTo_of_lastIndex_lt (placed_start_le hord (lengthBefore ps i) x) hne
    (Nat.lt_of_lt_of_eq hlast hfirst.symm)
  have hsplice : e.splice (i, x) = ⟨i, i + 1, e.new ++ [.located x]⟩ := by
    rw [splice, head, if_neg (by omega), tail_eq hx hin hord, if_pos (by omega), hborder,
      Nat.sub_self, Piece.drop_zero, List.nil_append]
  rw [hplaced, hfirst, hsplice, Splice.applyTo_leave_last hps hi]
  rfl

theorem applyTo_placed_after (hborder : e.start = x.span.stop) (hnext : i + 1 < ps.length)
    (hlength : 0 < x.length) :
    (e.placed (lengthBefore ps i) x).applyTo ps = ((e.splice (i, x)).widen ps).applyTo ps := by
  obtain ⟨-, hle, hge⟩ := isWithin_iff.mp hin
  have hstop : x.span.stop = x.span.start + x.length := hx
  have hsucc : lengthBefore ps (i + 1) = lengthBefore ps i + x.length := lengthBefore_succ hi
  have hne : ps ≠ [] := List.ne_nil_of_mem (List.mem_of_getElem? hi)
  have hfirst : (e.placed (lengthBefore ps i) x).firstIndex ps = i + 1 := by
    have hafter := lengthBefore_succ (List.getElem?_eq_getElem hnext)
    have hsome : 0 < ps[i + 1].length := List.length_pos_iff.mpr
      (List.isEmpty_eq_false_iff.mp (hps _ (List.getElem_mem hnext)))
    refine indexAt_eq hnext ?_ fun _ => ?_
    · rw [hsucc]
      dsimp only [placed]
      omega
    · rw [hafter, hsucc]
      dsimp only [placed]
      omega
  have hlast := lastIndex_placed hx hin hi (Or.inl (by omega))
  have hplaced := Edit.applyTo_of_lastIndex_lt (placed_start_le hord (lengthBefore ps i) x) hne
    (by rw [hfirst, hlast]; exact Nat.lt_succ_self i)
  have hwhole : Piece.take (e.start - x.span.start) (.located x) = .located x :=
    congrArg Piece.located (x.take_of_length_le (by omega))
  have hsplice : e.splice (i, x) = ⟨i, i + 1, .located x :: e.new⟩ := by
    rw [splice, head, if_pos (by omega), hwhole, tail_eq hx hin hord, if_neg (by omega),
      List.append_nil, List.singleton_append]
  rw [hplaced, hfirst, hsplice, Splice.applyTo_leave_first hps hi]
  rfl

theorem applyTo_placed :
    (e.placed (lengthBefore ps i) x).applyTo ps = ((e.splice (i, x)).widen ps).applyTo ps := by
  have hlength : 0 < x.length := List.length_pos_iff.mpr
    (List.isEmpty_eq_false_iff.mp (hps _ (List.mem_of_getElem? hi)))
  have hlen : i < ps.length := (List.getElem?_eq_some_iff.mp hi).1
  obtain ⟨-, hle, hge⟩ := isWithin_iff.mp hin
  by_cases hbefore : e.stop = x.span.start ∧ 0 < i
  · exact applyTo_placed_before hx hin hord hi hps hbefore.1 hbefore.2 hlength
  by_cases hafter : e.start = x.span.stop ∧ i + 1 < ps.length
  · exact applyTo_placed_after hx hin hord hi hps hafter.1 hafter.2 hlength
  · have hfirst := firstIndex_placed hx hin hi (by omega)
    have hlast := lastIndex_placed hx hin hi (by omega)
    rw [Edit.applyTo, splice_placed hx hin hord hi hfirst hlast]

end Exact

end SourceEdit

namespace Buffer

variable (b : Buffer δ) (e : SourceEdit δ)

/-- In a buffer without empty pieces, where no range is longer or shorter than its text, a
source edit that is carried out gives the very pieces that an edit by position gives. That
edit starts where the first mapping that holds the source edit puts its start, and takes
out as many characters. -/
theorem replaceSource_eq_apply (hps : ∀ p ∈ b.pieces, p.isEmpty = false)
    (hexact : ∀ x ∈ excerpts b.pieces, x.IsExact) (h : (b.replaceSource e).1 = true) :
    ∃ m, b.mappings.find? (fun m => m.Holds e) = some m ∧
      let p := m.span.start + (e.start - m.sourceSpan.start)
      (b.replaceSource e).2 = b.apply ⟨p, p + (e.stop - e.start), e.new⟩ := by
  obtain ⟨hord, i, x, htarget, hout⟩ := b.replaceSource_of_eq_true e h
  obtain ⟨hi, hin⟩ := SourceEdit.getElem?_of_target? htarget
  have hx := hexact x (mem_excerpts.mpr (List.mem_of_getElem? hi))
  obtain ⟨-, hle, -⟩ := SourceEdit.isWithin_iff.mp hin
  have hstop : lengthBefore b.pieces i + (e.start - x.span.start) + (e.stop - e.start) =
      lengthBefore b.pieces i + (e.stop - x.span.start) := by omega
  refine ⟨_, SourceEdit.find?_mappings htarget, ?_⟩
  rw [hout]
  change _ = b.apply ⟨lengthBefore b.pieces i + (e.start - x.span.start),
    lengthBefore b.pieces i + (e.start - x.span.start) + (e.stop - e.start), e.new⟩
  rw [hstop]
  exact congrArg Buffer.mk (SourceEdit.applyTo_placed hx hin hord hi hps).symm

/-- The edit inserts right after a named range, in front of two bare pieces that stand side by
side. -/
theorem replaceSource_eq_apply_at_border :
    let b : Buffer Nat := ⟨[.located ⟨['a', 'b'], none, .offset 4, none⟩, .bare ['-'],
      .located ⟨['a', 'b'], some "s", .range 4 6, some 1⟩, .bare ['c'], .bare ['d'],
      .located ⟨['e'], some "s", .offset 6, none⟩]⟩
    let e : SourceEdit Nat := ⟨some "s", 6, 6, [.bare [], .bare ['!']]⟩
    (∀ p ∈ b.pieces, p.isEmpty = false) ∧ (∀ x ∈ excerpts b.pieces, x.IsExact) ∧
      (b.replaceSource e).1 = true ∧ (b.replaceSource e).2 = b.apply ⟨5, 5, e.new⟩ ∧
      (b.apply ⟨5, 5, e.new⟩).pieces = [.located ⟨['a', 'b'], none, .offset 4, none⟩, .bare ['-'],
        .located ⟨['a', 'b'], some "s", .range 4 6, some 1⟩, .bare ['!', 'c'], .bare ['d'],
        .located ⟨['e'], some "s", .offset 6, none⟩] := by
  intro b e
  have hps : ∀ p ∈ b.pieces, p.isEmpty = false := by decide
  have hexact : ∀ x ∈ excerpts b.pieces, x.IsExact := by decide
  have h : (b.replaceSource e).1 = true := by decide
  obtain ⟨m, hm, hout⟩ := b.replaceSource_eq_apply e hps hexact h
  have hfirst :
      b.mappings.find? (fun m => m.Holds e) = some ⟨⟨3, 5⟩, some "s", ⟨4, 6⟩, some 1⟩ := by
    decide
  obtain rfl := Option.some.inj (hm.symm.trans hfirst)
  exact ⟨hps, hexact, h, hout, by decide⟩

end Buffer

end TracedText
