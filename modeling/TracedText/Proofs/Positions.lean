import Mathlib.Data.List.Forall2
import TracedText.Proofs.SourceEditTrace
import TracedText.Proofs.SweepTrace

/-!
# One layout in several views

The text of a buffer, its length, the table of offsets, the two searches in that table and the
mappings each tell where the pieces are. All of them agree: piece `i` has its text from the offset
at `i` on, the searches find it from any position in it, and the mappings are the located pieces at
their offsets, with nothing but the bare text between them.
-/
namespace TracedText

variable {δ : Type} {ps : List (Piece δ)} {p : Piece δ} {i : Nat}

theorem take_drop_flatten (h : ps[i]? = some p) :
    ((flatten ps).drop (lengthBefore ps i)).take p.length = p.text := by
  have hsplit : flatten ps = flatten (ps.take i) ++ (p.text ++ flatten (ps.drop (i + 1))) := by
    calc
      flatten ps = flatten (ps.take i ++ p :: ps.drop (i + 1)) :=
        congrArg flatten (eq_take_append_cons_drop h)
      _ = _ := by
        rw [flatten_append]
        exact congrArg _ List.flatMap_cons
  rw [hsplit, lengthBefore, ← length_flatten, List.drop_left]
  exact List.take_left

theorem index_of_within (h : ps[i]? = some p) {pos : Nat} (hle : lengthBefore ps i ≤ pos)
    (hlt : pos < lengthBefore ps i + p.length) :
    indexAt (offsets ps) pos = i ∧ indexBefore (offsets ps) (pos + 1) = i := by
  have hi : i < ps.length := (List.getElem?_eq_some_iff.mp h).1
  have hnext := lengthBefore_succ h
  constructor
  · exact indexAt_eq hi hle fun _ => by omega
  · exact indexBefore_eq hi (Or.inr (by omega)) fun _ => by omega

theorem getLast?_offsets (h : ps.getLast? = some p) :
    ∃ o, (offsets ps).getLast? = some o ∧ o + p.length = totalLength ps := by
  have hlast : ps[ps.length - 1]? = some p := List.getLast?_eq_getElem?.symm.trans h
  have hpos : ps.length - 1 < ps.length := (List.getElem?_eq_some_iff.mp hlast).1
  refine ⟨lengthBefore ps (ps.length - 1), ?_, ?_⟩
  · rw [List.getLast?_eq_getElem?, length_offsets, getElem?_offsets, hlast, Option.map_some]
  · rw [← lengthBefore_succ hlast, lengthBefore_of_length_le (by omega)]

def locatedAt (ps : List (Piece δ)) : List (Nat × Excerpt δ) :=
  ps.zipIdx.filterMap fun (p, i) => p.excerpt?.map fun x => (i, x)

/-- The mappings in one pass over the pieces, with the position that it has come to. -/
def mappingsInPass (pos : Nat) : List (Piece δ) → List (Mapping δ)
  | [] => []
  | .bare t :: ps => mappingsInPass (pos + t.length) ps
  | .located x :: ps => x.mapping pos :: mappingsInPass (pos + x.length) ps

theorem getElem?_of_mem_locatedAt {q : Nat × Excerpt δ} (h : q ∈ locatedAt ps) :
    ps[q.1]? = some (.located q.2) := by
  obtain ⟨⟨p, i⟩, hmem, hq⟩ := List.mem_filterMap.mp h
  cases p with
  | bare t => cases hq
  | located x =>
    obtain rfl := Option.some.inj hq
    exact List.mem_zipIdx_iff_getElem?.mp hmem

theorem placed_eq_map_zipIdx (ps : List (Piece δ)) :
    placed ps = ps.zipIdx.map fun (p, i) => (lengthBefore ps i, p) := by
  apply List.ext_getElem?
  intro i
  rw [getElem?_placed, List.getElem?_map, List.getElem?_zipIdx, Nat.zero_add]
  cases ps[i]? <;> rfl

theorem mappings_eq_map_locatedAt (ps : List (Piece δ)) :
    mappings ps = (locatedAt ps).map fun (i, x) => x.mapping (lengthBefore ps i) := by
  rw [mappings, placed_eq_map_zipIdx, List.filterMap_map, locatedAt, List.map_filterMap]
  congr 1
  funext ⟨p, i⟩
  cases p <;> rfl

theorem mappingsFrom_eq_inPass (pos : Nat) (ps : List (Piece δ)) :
    mappingsFrom pos ps = mappingsInPass pos ps := by
  induction ps generalizing pos with
  | nil => rfl
  | cons p ps ih =>
    cases p with
    | bare t => exact ih (pos + t.length)
    | located x => exact congrArg _ (ih (pos + x.length))

theorem le_start_of_mem_mappingsInPass {pos : Nat} {m : Mapping δ}
    (h : m ∈ mappingsInPass pos ps) : pos ≤ m.span.start := by
  induction ps generalizing pos with
  | nil => exact nomatch h
  | cons p ps ih =>
    cases p with
    | bare t => exact Nat.le_trans (Nat.le_add_right _ _) (ih h)
    | located x =>
      rcases List.mem_cons.mp h with rfl | h
      · exact Nat.le_refl pos
      · exact Nat.le_trans (Nat.le_add_right _ _) (ih h)

theorem pairwise_mappingsInPass (pos : Nat) (ps : List (Piece δ)) :
    (mappingsInPass pos ps).Pairwise fun m m' => m.span.stop ≤ m'.span.start := by
  induction ps generalizing pos with
  | nil => exact List.Pairwise.nil
  | cons p ps ih =>
    cases p with
    | bare t => exact ih _
    | located x =>
      exact List.pairwise_cons.mpr ⟨fun m hm => le_start_of_mem_mappingsInPass hm, ih _⟩

/-- With `u` gone through and the bare text `w` seen since the last mapping. -/
theorem replaceSpans_mappingsInPass (u w : Text) (ps : List (Piece δ)) :
    replaceSpans (u ++ w ++ flatten ps) u.length
        ((mappingsInPass (u ++ w).length ps).map fun m => (m.span, [])) =
      w ++ flatten (ps.filter (·.isLocated == false)) := by
  induction ps generalizing u w with
  | nil =>
    change (u ++ w ++ []).drop u.length = w ++ []
    rw [List.append_nil, List.append_nil, List.drop_left]
  | cons p ps ih =>
    cases p with
    | bare t =>
      have hrest := ih u (w ++ t)
      simp only [← List.append_assoc] at hrest
      have htext : u ++ w ++ flatten (.bare t :: ps) = u ++ w ++ t ++ flatten ps :=
        (List.append_assoc (u ++ w) t (flatten ps)).symm
      have hpass : mappingsInPass (u ++ w).length (.bare t :: ps) =
          mappingsInPass (u ++ w ++ t).length ps := by
        have hlength : (u ++ w ++ t).length = (u ++ w).length + t.length := List.length_append
        rw [mappingsInPass, hlength]
      have hbare : flatten ((Piece.bare t :: ps).filter (·.isLocated == false)) =
          t ++ flatten (ps.filter (·.isLocated == false)) := rfl
      rw [htext, hpass, hbare, hrest, List.append_assoc]
    | located x =>
      have hrest := ih (u ++ w ++ x.text) []
      rw [List.append_nil, List.nil_append] at hrest
      have htext : u ++ w ++ flatten (.located x :: ps) = u ++ w ++ x.text ++ flatten ps :=
        (List.append_assoc (u ++ w) x.text (flatten ps)).symm
      have hstop : (u ++ w).length + x.length = (u ++ w ++ x.text).length :=
        List.length_append.symm
      have hgap : ((u ++ w ++ x.text ++ flatten ps).drop u.length).take
          ((u ++ w).length - u.length) = w := by
        rw [List.append_assoc, List.append_assoc, List.drop_left, List.length_append,
          Nat.add_sub_cancel_left, List.take_left]
      rw [htext, mappingsInPass, List.map_cons, replaceSpans]
      simp only [Excerpt.mapping, hgap, hstop, hrest, List.append_nil]
      rfl

namespace Buffer

/-- The mapping is that of the excerpt `q.2`, which is piece `q.1`, and covers its text. -/
structure Shows (b : Buffer δ) (q : Nat × Excerpt δ) (m : Mapping δ) : Prop where
  eq_mapping : m = q.2.mapping m.span.start
  offset : b.offsets[q.1]? = some m.span.start
  text : (b.text.drop m.span.start).take m.span.length = q.2.text

theorem shows_mappings (b : Buffer δ) : List.Forall₂ b.Shows (locatedAt b.pieces) b.mappings := by
  rw [mappings, mappings_eq_map_locatedAt, List.forall₂_map_right_iff, List.forall₂_same]
  intro q hq
  have hget := getElem?_of_mem_locatedAt hq
  refine ⟨rfl, ?_, ?_⟩
  · rw [offsets, getElem?_offsets, hget]
    rfl
  · have htext := take_drop_flatten hget
    rwa [← Nat.add_sub_cancel_left (lengthBefore b.pieces q.1) (Piece.length _)] at htext

/-- The views of a buffer tell of one and the same layout. There is a mapping for each located
piece, in order; its stretch of the text starts at the offset of the piece and holds just the text
of it. The mappings lie apart, and without their stretches the text is what is bare in the buffer.
The last piece ends where the text does. Either search finds a piece from any position in it. -/
theorem views_agree (b : Buffer δ) :
    b.mappings = mappingsInPass 0 b.pieces ∧
    List.Forall₂ b.Shows (locatedAt b.pieces) b.mappings ∧
    b.mappings.Pairwise (fun m m' => m.span.stop ≤ m'.span.start) ∧
    replaceSpans b.text 0 (b.mappings.map fun m => (m.span, [])) = (b.retain false).text ∧
    b.length = b.text.length ∧
    (∀ p, b.pieces.getLast? = some p →
      ∃ o, b.offsets.getLast? = some o ∧ o + p.length = b.length) ∧
    ∀ i p, b.pieces[i]? = some p → ∃ o, b.offsets[i]? = some o ∧
      (b.text.drop o).take p.length = p.text ∧
      ∀ pos, o ≤ pos → pos < o + p.length →
        indexAt b.offsets pos = i ∧ indexBefore b.offsets (pos + 1) = i := by
  have hpass : b.mappings = mappingsInPass 0 b.pieces := mappingsFrom_eq_inPass 0 b.pieces
  refine ⟨hpass, b.shows_mappings, ?_, ?_, b.length_text.symm, fun p h => getLast?_offsets h, ?_⟩
  · rw [hpass]
    exact pairwise_mappingsInPass 0 b.pieces
  · rw [hpass]
    exact replaceSpans_mappingsInPass [] [] b.pieces
  · intro i p h
    refine ⟨lengthBefore b.pieces i, ?_, take_drop_flatten h,
      fun pos hle hlt => index_of_within h hle hlt⟩
    rw [offsets, getElem?_offsets, h, Option.map_some]

/-- Empty pieces share their offsets with what follows them, and the last piece is empty too. -/
theorem views_agree_among_empty :
    let b : Buffer Nat := ⟨[.located ⟨[], some "s", .range 4 2, none⟩, .bare ['a', 'b'], .bare [],
      .located ⟨['c', 'd', 'e'], none, .range 7 9, some 1⟩, .located ⟨[], none, .offset 3, none⟩]⟩
    b.mappings = [⟨⟨0, 0⟩, some "s", ⟨4, 2⟩, none⟩, ⟨⟨2, 5⟩, none, ⟨7, 9⟩, some 1⟩,
        ⟨⟨5, 5⟩, none, ⟨3, 3⟩, none⟩] ∧
      (b.text.drop 2).take 3 = ['c', 'd', 'e'] ∧ (b.retain false).text = ['a', 'b'] ∧
      indexAt b.offsets 2 = 3 ∧ indexBefore b.offsets 3 = 3 := by
  intro b
  obtain ⟨hpass, -, -, hbare, -, -, hpieces⟩ := b.views_agree
  obtain ⟨o, ho, htext, hsearch⟩ := hpieces 3 _ rfl
  obtain rfl : 2 = o := Option.some.inj ho
  obtain ⟨hat, hbefore⟩ := hsearch 2 (Nat.le_refl 2) (by decide)
  exact ⟨hpass.trans (by decide), htext, hbare.symm.trans (by decide), hat, hbefore⟩

end Buffer

end TracedText
