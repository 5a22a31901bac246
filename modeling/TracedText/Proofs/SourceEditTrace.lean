import TracedText.Proofs.EditTrace

/-!
# Source edits against the mappings

A mapping holds a source edit when it is from the same source and its stretch of the source
contains the positions of the edit. The target of a source edit is the piece of the first
mapping that holds it. When no range in the list is longer or shorter than its text, positions
in the source and in the text run in step, and the edit replaces the characters that the mapping
puts at its positions.
-/
namespace TracedText

variable {δ : Type}

/-- The stretch of the source is as long as the text. For an offset it always is. -/
def Excerpt.IsExact (x : Excerpt δ) : Prop := x.span.stop = x.span.start + x.length

instance (x : Excerpt δ) : Decidable x.IsExact := instDecidableEqNat _ _

theorem Excerpt.isExact_of_offset {x : Excerpt δ} {s : Nat} (h : x.place = .offset s) :
    x.IsExact := by
  simp only [IsExact, span, h, Place.span]

/-- The mapping contains the positions of the edit, in the same source. -/
def Mapping.Holds (m : Mapping δ) (e : SourceEdit δ) : Prop :=
  m.source = e.source ∧ m.sourceSpan.start ≤ e.start ∧ e.stop ≤ m.sourceSpan.stop

instance (m : Mapping δ) (e : SourceEdit δ) : Decidable (m.Holds e) := instDecidableAnd

def mappingsFrom (start : Nat) (ps : List (Piece δ)) : List (Mapping δ) :=
  ((offsetsFrom start ps).zip ps).filterMap fun (start, p) => p.excerpt?.map (Excerpt.mapping start)

theorem mappingsFrom_append (start : Nat) (ps qs : List (Piece δ)) :
    mappingsFrom start (ps ++ qs) =
      mappingsFrom start ps ++ mappingsFrom (start + totalLength ps) qs := by
  induction ps generalizing start with
  | nil => rfl
  | cons p ps ih =>
    have hrest := ih (start + p.length)
    rw [Nat.add_assoc] at hrest
    cases p with
    | bare t => exact hrest
    | located x => exact congrArg _ hrest

theorem mem_mappingsFrom {start : Nat} {ps : List (Piece δ)} {m : Mapping δ}
    (h : m ∈ mappingsFrom start ps) : ∃ x ∈ excerpts ps, ∃ k, m = x.mapping k := by
  simp only [mappingsFrom, List.mem_filterMap] at h
  obtain ⟨⟨k, p⟩, hmem, hp⟩ := h
  cases p with
  | bare t => cases hp
  | located x => exact ⟨x, mem_excerpts.mpr (List.of_mem_zip hmem).2, k, (Option.some.inj hp).symm⟩

namespace SourceEdit

variable {e : SourceEdit δ} {ps : List (Piece δ)} {x : Excerpt δ}

theorem isWithin_iff : e.isWithin x = true ↔
    x.source = e.source ∧ x.span.start ≤ e.start ∧ e.stop ≤ x.span.stop := by
  simp only [isWithin, Excerpt.isFrom, Bool.and_eq_true, beq_iff_eq, decide_eq_true_eq, and_assoc]

theorem holds_mapping_iff (k : Nat) : (x.mapping k).Holds e ↔ e.isWithin x = true :=
  isWithin_iff.symm

theorem findSome?_zipIdx_eq_some {k i : Nat}
    (h : (ps.zipIdx k).findSome? (fun (p, i) =>
      p.excerpt?.bind fun x => if e.isWithin x then some (i, x) else none) = some (i, x)) :
    ∃ qs rs, ps = qs ++ .located x :: rs ∧ i = k + qs.length ∧ e.isWithin x = true ∧
      ∀ y ∈ excerpts qs, e.isWithin y = false := by
  induction ps generalizing k with
  | nil => cases h
  | cons p ps ih =>
    cases p with
    | bare t =>
      obtain ⟨qs, rs, hps, hi, hx, hqs⟩ := ih h
      refine ⟨.bare t :: qs, rs, congrArg _ hps, ?_, hx, hqs⟩
      rw [hi, List.length_cons]
      omega
    | located y =>
      cases hy : e.isWithin y with
      | true =>
        simp only [List.zipIdx_cons, List.findSome?_cons, Piece.excerpt?, Option.bind_some, hy,
          if_true, Option.some.injEq, Prod.mk.injEq] at h
        obtain ⟨rfl, rfl⟩ := h
        exact ⟨[], ps, rfl, rfl, hy, fun z hz => nomatch hz⟩
      | false =>
        simp only [List.zipIdx_cons, List.findSome?_cons, Piece.excerpt?, Option.bind_some, hy,
          Bool.false_eq_true, if_false] at h
        obtain ⟨qs, rs, hps, hi, hx, hqs⟩ := ih h
        refine ⟨.located y :: qs, rs, congrArg _ hps, ?_, hx, ?_⟩
        · rw [hi, List.length_cons]
          omega
        · intro z hz
          rcases List.mem_cons.mp hz with rfl | hz
          · exact hy
          · exact hqs z hz

/-- The target is the first piece that contains the edit. -/
theorem target?_eq_some {i : Nat} (h : e.target? ps = some (i, x)) :
    ∃ qs rs, ps = qs ++ .located x :: rs ∧ i = qs.length ∧ e.isWithin x = true ∧
      ∀ y ∈ excerpts qs, e.isWithin y = false := by
  obtain ⟨qs, rs, hps, hi, hrest⟩ := findSome?_zipIdx_eq_some h
  exact ⟨qs, rs, hps, hi.trans (Nat.zero_add _), hrest⟩

theorem target?_eq_none_iff : e.target? ps = none ↔ ∀ x ∈ excerpts ps, e.isWithin x = false := by
  simp only [target?, List.findSome?_eq_none_iff]
  constructor
  · intro h x hx
    obtain ⟨i, hi⟩ := List.getElem?_of_mem (mem_excerpts.mp hx)
    have hnone := h (.located x, i) (List.mem_zipIdx_iff_getElem?.mpr hi)
    cases hw : e.isWithin x with
    | false => rfl
    | true =>
      rw [Piece.excerpt?, Option.bind_some, hw] at hnone
      cases hnone
  · rintro h ⟨p, i⟩ hmem
    cases p with
    | bare t => rfl
    | located x =>
      have hx := mem_excerpts.mpr (List.fst_mem_of_mem_zipIdx hmem)
      rw [Piece.excerpt?, Option.bind_some, h x hx]
      rfl

/-- The first mapping that holds the edit is the one of its target. -/
theorem find?_mappings {i : Nat} (h : e.target? ps = some (i, x)) :
    (mappings ps).find? (fun m => m.Holds e) = some (x.mapping (lengthBefore ps i)) := by
  obtain ⟨qs, rs, rfl, rfl, hx, hqs⟩ := target?_eq_some h
  have hall : mappings (qs ++ .located x :: rs) = mappingsFrom 0 qs ++
      (x.mapping (0 + totalLength qs) :: mappingsFrom (0 + totalLength qs + x.length) rs) :=
    mappingsFrom_append 0 qs _
  have hnone : (mappingsFrom 0 qs).find? (fun m => m.Holds e) = none := by
    rw [List.find?_eq_none]
    intro m hm hholds
    obtain ⟨y, hy, k, rfl⟩ := mem_mappingsFrom hm
    have hin := (holds_mapping_iff k).mp (of_decide_eq_true hholds)
    rw [hqs y hy] at hin
    cases hin
  have hfirst : decide ((x.mapping (0 + totalLength qs)).Holds e) = true :=
    decide_eq_true ((holds_mapping_iff _).mpr hx)
  rw [hall, List.find?_append, hnone, Option.none_or, List.find?_cons, hfirst]
  simp only [lengthBefore, List.take_left, Nat.zero_add]

theorem exists_holds_iff :
    (∃ m ∈ mappings ps, m.Holds e) ↔ (e.target? ps).isSome = true := by
  cases h : e.target? ps with
  | none =>
    refine ⟨fun ⟨m, hm, hholds⟩ => ?_, fun hsome => nomatch hsome⟩
    obtain ⟨x, hx, k, rfl⟩ := mem_mappingsFrom (show m ∈ mappingsFrom 0 ps from hm)
    have hin := (holds_mapping_iff k).mp hholds
    rw [target?_eq_none_iff.mp h x hx] at hin
    cases hin
  | some target =>
    refine ⟨fun _ => rfl, fun _ => ?_⟩
    have hfind := find?_mappings (x := target.2) (i := target.1) h
    have hholds := List.find?_some hfind
    exact ⟨_, List.mem_of_find?_eq_some hfind, of_decide_eq_true hholds⟩

theorem getElem?_of_target? {i : Nat} (h : e.target? ps = some (i, x)) :
    ps[i]? = some (.located x) ∧ e.isWithin x = true := by
  obtain ⟨qs, rs, rfl, rfl, hx, -⟩ := target?_eq_some h
  exact ⟨List.getElem?_append_right (Nat.le_refl _) |>.trans (by rw [Nat.sub_self]; rfl), hx⟩

/-- What a seamless view sees after a source edit on its target. -/
theorem flatMap_splice {α : Type} {view : Piece δ → List α} (hview : Seamless view) (i : Nat) :
    (((e.splice (i, x)).widen ps).applyTo ps).flatMap view =
      (ps.take i ++ e.head x).flatMap view ++ e.new.flatMap view ++
        (e.tail x ++ ps.drop (i + 1)).flatMap view := by
  rw [Splice.flatMap_applyTo hview]
  simp only [splice, List.flatMap_append, List.append_assoc]

theorem applyTo?_eq_none_iff : e.applyTo? ps = none ↔ e.stop < e.start ∨ e.target? ps = none := by
  by_cases hord : e.stop < e.start
  · simp only [applyTo?, hord, if_true, true_or]
  · simp only [applyTo?, hord, if_false, Option.map_eq_none_iff, false_or]

theorem applyTo?_eq_some {qs : List (Piece δ)} (h : e.applyTo? ps = some qs) :
    e.start ≤ e.stop ∧ ∃ i x, e.target? ps = some (i, x) ∧
      qs = ((e.splice (i, x)).widen ps).applyTo ps := by
  by_cases hord : e.stop < e.start
  · rw [applyTo?, if_pos hord] at h
    cases h
  · rw [applyTo?, if_neg hord, Option.map_eq_some_iff] at h
    obtain ⟨⟨i, x⟩, ht, hqs⟩ := h
    exact ⟨Nat.not_lt.mp hord, i, x, ht, hqs.symm⟩

section Exact

variable (hx : x.IsExact) (hin : e.isWithin x = true) (hord : e.start ≤ e.stop)
include hx hin hord

theorem traced_head {i : Nat} (hi : ps[i]? = some (.located x)) :
    traced (ps.take i ++ e.head x) =
      (traced ps).take (lengthBefore ps i + (e.start - x.span.start)) := by
  obtain ⟨-, hle, hge⟩ := isWithin_iff.mp hin
  have hlen : lengthBefore ps (i + 1) = lengthBefore ps i + x.length := lengthBefore_succ hi
  have hstop : x.span.stop = x.span.start + x.length := hx
  rw [traced_take_within hi (Nat.le_add_right _ _) (Or.inl (by omega)), Nat.add_sub_cancel_left,
    traced_append]
  exact congrArg _ (traced_kept_front _ _ _)

/-- The tail counts from the back, to the same character as from the front. -/
theorem tail_eq : e.tail x =
    if e.stop < x.span.stop then [Piece.drop (e.stop - x.span.start) (.located x)] else [] := by
  obtain ⟨-, hle, hge⟩ := isWithin_iff.mp hin
  have hstop : x.span.stop = x.span.start + x.length := hx
  by_cases hlt : e.stop < x.span.stop
  · have hcut : x.length - (x.span.stop - e.stop) = e.stop - x.span.start := by omega
    have hlength : (Piece.located x).length = x.length := rfl
    rw [tail, if_pos hlt, if_pos hlt, Piece.dropFrom_neg (by omega), hlength, hcut]
  · rw [tail, if_neg hlt, if_neg hlt]

theorem traced_tail {i : Nat} (hi : ps[i]? = some (.located x)) :
    traced (e.tail x ++ ps.drop (i + 1)) =
      (traced ps).drop (lengthBefore ps i + (e.stop - x.span.start)) := by
  obtain ⟨-, hle, hge⟩ := isWithin_iff.mp hin
  have hlen : lengthBefore ps (i + 1) = lengthBefore ps i + x.length := lengthBefore_succ hi
  have hstop : x.span.stop = x.span.start + x.length := hx
  rw [traced_drop_within hi (Nat.le_add_right _ _) (Or.inl (by omega)), Nat.add_sub_cancel_left,
    traced_append]
  have hlength : (Piece.located x).length = x.length := rfl
  rw [tail_eq hx hin hord]
  exact congrArg (· ++ _) (traced_kept_back _ (by omega))

end Exact

end SourceEdit

namespace Buffer

variable (b : Buffer δ) (e : SourceEdit δ)

theorem replaceSource_eq_true_iff :
    (b.replaceSource e).1 = true ↔ e.start ≤ e.stop ∧ ∃ m ∈ b.mappings, m.Holds e := by
  rw [mappings, SourceEdit.exists_holds_iff, replaceSource, applySource?, Option.isSome_map]
  cases h : e.applyTo? b.pieces with
  | none =>
    refine ⟨fun hsome => (nomatch hsome), fun ⟨hord, htarget⟩ => ?_⟩
    rcases SourceEdit.applyTo?_eq_none_iff.mp h with hlt | hnone
    · omega
    · rw [hnone] at htarget
      cases htarget
  | some qs =>
    obtain ⟨hord, i, x, htarget, -⟩ := SourceEdit.applyTo?_eq_some h
    rw [htarget]
    simp only [Option.isSome_some, hord, true_and]

theorem replaceSource_of_eq_false (h : (b.replaceSource e).1 = false) :
    (b.replaceSource e).2 = b := by
  cases ha : b.applySource? e with
  | none => simp only [replaceSource, ha, Option.getD_none]
  | some b' =>
    simp only [replaceSource, ha] at h
    cases h

/-- A carried out source edit, seen as a splice around its target. -/
theorem replaceSource_of_eq_true (h : (b.replaceSource e).1 = true) :
    e.start ≤ e.stop ∧ ∃ i x, e.target? b.pieces = some (i, x) ∧
      (b.replaceSource e).2 = ⟨((e.splice (i, x)).widen b.pieces).applyTo b.pieces⟩ := by
  cases ha : e.applyTo? b.pieces with
  | none =>
    simp only [replaceSource, applySource?, ha] at h
    cases h
  | some qs =>
    obtain ⟨hord, i, x, htarget, rfl⟩ := SourceEdit.applyTo?_eq_some ha
    refine ⟨hord, i, x, htarget, ?_⟩
    simp only [replaceSource, applySource?, ha]
    rfl

/-- A source edit is carried out just when some mapping holds it, and then replaces the characters
at the positions that the first such mapping gives it. -/
theorem replaceSource_by_mappings (hexact : ∀ x ∈ excerpts b.pieces, x.IsExact) :
    ((b.replaceSource e).1 = true ↔ e.start ≤ e.stop ∧ ∃ m ∈ b.mappings, m.Holds e) ∧
    ((b.replaceSource e).1 = false → (b.replaceSource e).2 = b) ∧
    ((b.replaceSource e).1 = true → ∃ m, b.mappings.find? (fun m => m.Holds e) = some m ∧
      let p := m.span.start + (e.start - m.sourceSpan.start)
      (b.replaceSource e).2.traced =
        b.traced.take p ++ TracedText.traced e.new ++ b.traced.drop (p + (e.stop - e.start))) := by
  refine ⟨b.replaceSource_eq_true_iff e, b.replaceSource_of_eq_false e, fun h => ?_⟩
  obtain ⟨hord, i, x, htarget, hout⟩ := b.replaceSource_of_eq_true e h
  obtain ⟨hi, hin⟩ := SourceEdit.getElem?_of_target? htarget
  have hx := hexact x (mem_excerpts.mpr (List.mem_of_getElem? hi))
  refine ⟨_, SourceEdit.find?_mappings htarget, ?_⟩
  obtain ⟨-, hle, -⟩ := SourceEdit.isWithin_iff.mp hin
  have hpos : lengthBefore b.pieces i + (e.start - x.span.start) + (e.stop - e.start) =
      lengthBefore b.pieces i + (e.stop - x.span.start) := by omega
  change (b.replaceSource e).2.traced =
    b.traced.take (lengthBefore b.pieces i + (e.start - x.span.start)) ++ _ ++
      b.traced.drop (lengthBefore b.pieces i + (e.start - x.span.start) + (e.stop - e.start))
  rw [hout, hpos, traced, traced, ← SourceEdit.traced_head hx hin hord hi,
    ← SourceEdit.traced_tail hx hin hord hi]
  exact SourceEdit.flatMap_splice seamless_traced i

/-- The same stretch stands in the list three times. The edit inserts on the border of a named
range, and not in the unnamed piece before it or the copy after it. -/
theorem replaceSource_by_mappings_named :
    let b : Buffer Nat := ⟨[.located ⟨['a', 'b'], none, .offset 4, none⟩, .bare [],
      .located ⟨['a', 'b'], some "s", .range 4 6, none⟩, .located ⟨[], some "s", .offset 6, none⟩,
      .located ⟨['a', 'b'], some "s", .offset 4, some 1⟩]⟩
    let e : SourceEdit Nat := ⟨some "s", 6, 6, [.bare ['!']]⟩
    (∀ x ∈ excerpts b.pieces, x.IsExact) ∧ (b.replaceSource e).1 = true ∧
      ∃ m, b.mappings.find? (fun m => m.Holds e) = some m ∧
        m.span.start + (e.start - m.sourceSpan.start) = 4 ∧
        (b.replaceSource e).2.traced = b.traced.take 4 ++ [⟨'!', none⟩] ++ b.traced.drop 4 := by
  intro b e
  have hexact : ∀ x ∈ excerpts b.pieces, x.IsExact := by decide
  obtain ⟨hiff, -, hout⟩ := b.replaceSource_by_mappings e hexact
  have hdone := hiff.mpr (by decide)
  obtain ⟨m, hm, htraced⟩ := hout hdone
  have hfirst : b.mappings.find? (fun m => m.Holds e) = some ⟨⟨2, 4⟩, some "s", ⟨4, 6⟩, none⟩ := by
    decide
  obtain rfl := Option.some.inj (hm.symm.trans hfirst)
  exact ⟨hexact, hdone, _, hm, rfl, htraced⟩

end Buffer

end TracedText
