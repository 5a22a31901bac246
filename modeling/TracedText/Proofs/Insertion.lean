import TracedText.Proofs.Agreement
import TracedText.Proofs.Frame

/-!
# Insertions

An edit that starts where it stops only puts pieces in. All located pieces are still there after
it, empty ones too, and one of them in two parts when the position lies inside of it. There is
an exception for either kind of edit. An edit by position takes out an empty piece that is the
whole list. A source edit always takes its target out and puts its head and its tail back, and
of an empty target there is neither. Nothing else gets lost.
-/
namespace TracedText

variable {δ : Type} {ps new : List (Piece δ)} {p : Piece δ} {pos i : Nat} {x : Excerpt δ}

/-- A piece, in two parts when the position lies inside of it. -/
def splitAt (pos : Nat) (q : Nat × Piece δ) : List (Piece δ) :=
  if Inside pos q then [q.2.take (pos - q.1), q.2.drop (pos - q.1)] else [q.2]

theorem length_excerpts_splitAt (pos : Nat) (q : Nat × Piece δ) :
    (excerpts [q.2]).length ≤ (excerpts (splitAt pos q)).length := by
  obtain ⟨offset, p⟩ := q
  unfold splitAt
  split
  · cases p with
    | bare t => exact Nat.le_refl 0
    | located x => exact Nat.le_succ 1
  · exact Nat.le_refl _

theorem length_excerpts_flatMap_splitAt (pos : Nat) (qs : List (Nat × Piece δ)) :
    (excerpts (qs.map Prod.snd)).length ≤ (excerpts (qs.flatMap (splitAt pos))).length := by
  induction qs with
  | nil => exact Nat.le_refl 0
  | cons q qs ih =>
    have hone := length_excerpts_splitAt pos q
    have hcons := congrArg List.length (excerpts_append [q.2] (qs.map Prod.snd))
    rw [List.length_append] at hcons
    rw [List.flatMap_cons, excerpts_append, List.length_append]
    exact Nat.le_trans (Nat.le_of_eq hcons) (Nat.add_le_add hone ih)

namespace Edit

variable (e : Edit δ)

theorem leaves_eq_splitAt (h : e.start = e.stop) : e.leaves = splitAt e.stop := by
  funext q
  rw [leaves, splitAt, h]
  by_cases hin : Inside e.stop q
  · have hnot : ¬ (q.1 + q.2.length ≤ e.stop ∨ e.stop ≤ q.1) :=
      not_or.mpr ⟨Nat.not_le.mpr hin.2, Nat.not_le.mpr hin.1⟩
    rw [if_neg hnot, if_pos hin, if_pos hin, if_pos hin, List.singleton_append]
  · have hout : q.1 + q.2.length ≤ e.stop ∨ e.stop ≤ q.1 := by
      have hnot : ¬ (q.1 < e.stop ∧ e.stop < q.1 + q.2.length) := hin
      omega
    rw [if_pos hout, if_neg hin]

/-- Both searches find a piece that stands alone, and nothing of it is kept when it is empty. -/
theorem excerpts_applyTo_singleton (hp : p.length = 0) :
    excerpts ((⟨0, 0, new⟩ : Edit δ).applyTo [p]) = excerpts new := by
  have hfront : (⟨0, 0, new⟩ : Edit δ).front [p] = [] := rfl
  have htail : (⟨0, 0, new⟩ : Edit δ).tail (0, p) = [] := if_neg (by omega)
  have hback : (⟨0, 0, new⟩ : Edit δ).back [p] = [] := (List.append_nil _).trans htail
  rw [excerpts_applyTo _ (List.cons_ne_nil p []), hfront, hback]
  exact List.append_nil _

end Edit

namespace Buffer

/-- The located pieces of `new` have come in at the position, and those from
before are all there. -/
def Inserts (b : Buffer δ) (pos : Nat) (new : List (Piece δ)) (b' : Buffer δ) : Prop :=
  ∃ before after,
    excerpts b'.pieces = excerpts before ++ excerpts new ++ excerpts after ∧
    before ++ after = (placed b.pieces).flatMap (splitAt pos) ∧ totalLength before = pos

variable {b b' : Buffer δ} {e : SourceEdit δ}

theorem Inserts.length_le (h : b.Inserts pos new b') :
    (excerpts b.pieces).length + (excerpts new).length ≤ (excerpts b'.pieces).length := by
  obtain ⟨before, after, hnew, hold, -⟩ := h
  have hsplit := length_excerpts_flatMap_splitAt pos (placed b.pieces)
  rw [map_snd_placed, ← hold, excerpts_append, List.length_append] at hsplit
  rw [hnew, List.length_append, List.length_append]
  omega

theorem inserts_apply (hpos : pos ≤ b.length) (halone : ∀ p, b.pieces = [p] → 0 < p.length) :
    b.Inserts pos new (b.apply ⟨pos, pos, new⟩) := by
  by_cases hps : b.pieces = []
  · have hzero : pos = 0 := by
      rw [length, hps] at hpos
      exact Nat.eq_zero_of_le_zero hpos
    have hnew : (b.apply ⟨pos, pos, new⟩).pieces = Edit.applyTo ⟨pos, pos, new⟩ [] :=
      congrArg (Edit.applyTo _) hps
    refine ⟨[], [], ?_, ?_, hzero.symm⟩
    · rw [hnew, excerpts_eq_flatMap, Edit.flatMap_applyTo_nil _ seamless_excerpt?,
        ← excerpts_eq_flatMap]
      exact (List.append_nil _).symm
    · rw [hps]
      rfl
  · refine ⟨Edit.front ⟨pos, pos, new⟩ b.pieces, Edit.back ⟨pos, pos, new⟩ b.pieces,
      Edit.excerpts_applyTo _ hps, ?_, Edit.totalLength_front _ hpos hps⟩
    rw [Edit.front_append_back hpos halone (Nat.le_refl pos) hps, Edit.leaves_eq_splitAt _ rfl]

theorem inserts_apply_singleton_iff (hone : b.pieces = [p]) (hzero : p.length = 0) :
    b.Inserts 0 new (b.apply ⟨0, 0, new⟩) ↔ p.isLocated = false := by
  have hnew : excerpts (b.apply ⟨0, 0, new⟩).pieces = excerpts new :=
    (congrArg (fun ps => excerpts (Edit.applyTo ⟨0, 0, new⟩ ps)) hone).trans
      (Edit.excerpts_applyTo_singleton hzero)
  cases p with
  | located x =>
    have hold : (excerpts b.pieces).length = 1 := congrArg (fun ps => (excerpts ps).length) hone
    refine iff_of_false (fun h => ?_) Bool.noConfusion
    have hle := h.length_le
    rw [hnew] at hle
    omega
  | bare t =>
    have hout : ¬ Inside 0 (0, Piece.bare (δ := δ) t) := fun hin => Nat.lt_irrefl 0 hin.1
    have hsplit : (placed b.pieces).flatMap (splitAt 0) = [.bare t] := by
      rw [hone]
      exact (List.append_nil _).trans (if_neg hout)
    exact iff_of_true ⟨[], [.bare t], hnew.trans (List.append_nil _).symm, hsplit.symm, rfl⟩ rfl

theorem inserts_apply_iff (hpos : pos ≤ b.length) :
    b.Inserts pos new (b.apply ⟨pos, pos, new⟩) ↔ ∀ x, b.pieces = [.located x] → 0 < x.length := by
  by_cases halone : ∀ p, b.pieces = [p] → 0 < p.length
  · exact iff_of_true (inserts_apply hpos halone) fun x hone => halone _ hone
  · obtain ⟨p, hone, hzero⟩ : ∃ p, b.pieces = [p] ∧ p.length = 0 := by
      simpa only [not_forall, Nat.not_lt, Nat.le_zero, exists_prop] using halone
    have hlength : totalLength [p] = 0 := hzero
    obtain rfl : pos = 0 := by
      rw [length, hone, hlength] at hpos
      exact Nat.eq_zero_of_le_zero hpos
    rw [inserts_apply_singleton_iff hone hzero, hone]
    cases p with
    | bare t =>
      refine iff_of_true rfl fun x hx => ?_
      cases hx
    | located x =>
      exact iff_of_false Bool.noConfusion fun h =>
        absurd (h x rfl) (Nat.not_lt.mpr (Nat.le_of_eq hzero))

section Target

variable (hzero : e.start = e.stop) (hx : x.IsExact) (hin : e.isWithin x = true)
  (hi : b.pieces[i]? = some (.located x))
include hzero hx hin hi

theorem inserts_splice (hlength : 0 < x.length) :
    b.Inserts (lengthBefore b.pieces i + (e.start - x.span.start)) e.new
      ⟨((e.splice (i, x)).widen b.pieces).applyTo b.pieces⟩ := by
  obtain ⟨-, hle, hge⟩ := SourceEdit.isWithin_iff.mp hin
  have hord : e.start ≤ e.stop := Nat.le_of_eq hzero
  have hstop : x.span.stop = x.span.start + x.length := hx
  have hsucc : lengthBefore b.pieces (i + 1) = lengthBefore b.pieces i + x.length :=
    lengthBefore_succ hi
  refine ⟨b.pieces.take i ++ e.head x, e.tail x ++ b.pieces.drop (i + 1), ?_, ?_, ?_⟩
  · simp only [excerpts_eq_flatMap]
    exact SourceEdit.flatMap_splice seamless_excerpt? i
  · -- The same parts stay of the target in the edit by position.
    have hplaced := (e.placed (lengthBefore b.pieces i) x).flatMap_leaves_within hi
      (SourceEdit.placed_start_le hord _ x) (Nat.le_add_right _ _)
      (by dsimp only [SourceEdit.placed]; omega) hlength
    rw [SourceEdit.head_placed, SourceEdit.tail_placed hx hin hord,
      Edit.leaves_eq_splitAt _ (by dsimp only [SourceEdit.placed]; omega)] at hplaced
    rw [← hplaced, hzero]
    rfl
  · have hbound := lengthBefore_le_totalLength b.pieces (i + 1)
    rw [← length_traced, SourceEdit.traced_head hx hin hord hi, List.length_take, length_traced]
    omega

theorem not_inserts_splice (hlength : x.length = 0) :
    ¬ b.Inserts (lengthBefore b.pieces i + (e.start - x.span.start)) e.new
      ⟨((e.splice (i, x)).widen b.pieces).applyTo b.pieces⟩ := by
  obtain ⟨-, hle, hge⟩ := SourceEdit.isWithin_iff.mp hin
  have hstop : x.span.stop = x.span.start + x.length := hx
  have hhead : e.head x = [] := if_neg (by omega)
  have htail : e.tail x = [] := if_neg (by omega)
  have hnew : excerpts (((e.splice (i, x)).widen b.pieces).applyTo b.pieces) =
      excerpts (b.pieces.take i) ++ excerpts e.new ++ excerpts (b.pieces.drop (i + 1)) := by
    simp only [excerpts_eq_flatMap]
    refine (SourceEdit.flatMap_splice seamless_excerpt? i).trans ?_
    rw [hhead, htail, List.append_nil, List.nil_append]
  have hold := congrArg (fun ps => (excerpts ps).length) (eq_take_append_cons_drop hi)
  have hone (ps : List (Piece δ)) :
      (excerpts (.located x :: ps)).length = (excerpts ps).length + 1 := rfl
  simp only [excerpts_append, List.length_append, hone] at hold
  intro h
  have hcount := h.length_le
  simp only [hnew, List.length_append] at hcount
  omega

end Target

theorem inserts_replaceSource_iff (hexact : ∀ x ∈ excerpts b.pieces, x.IsExact)
    (hzero : e.start = e.stop) (h : (b.replaceSource e).1 = true) :
    ∃ m, b.mappings.find? (fun m => m.Holds e) = some m ∧
      (b.Inserts (m.span.start + (e.start - m.sourceSpan.start)) e.new (b.replaceSource e).2 ↔
        m.span.start < m.span.stop) := by
  obtain ⟨-, i, x, htarget, hout⟩ := b.replaceSource_of_eq_true e h
  obtain ⟨hi, hin⟩ := SourceEdit.getElem?_of_target? htarget
  have hx := hexact x (mem_excerpts.mpr (List.mem_of_getElem? hi))
  refine ⟨_, SourceEdit.find?_mappings htarget, ?_⟩
  have hiff : (x.mapping (lengthBefore b.pieces i)).span.start <
      (x.mapping (lengthBefore b.pieces i)).span.stop ↔ 0 < x.length := Nat.lt_add_right_iff_pos
  rw [hout, hiff]
  constructor
  · intro hins
    exact Nat.pos_of_ne_zero fun hlength => not_inserts_splice hzero hx hin hi hlength hins
  · exact inserts_splice hzero hx hin hi

/-- An insertion keeps every located piece of a buffer, whole or in its two parts, unless it
meets an empty one as described: by position, one that is the whole buffer, and by source
position, one that the edit acts on. Either of these is dropped. -/
theorem insertion_drops_nothing_iff (b : Buffer δ) :
    (∀ pos new, pos ≤ b.length →
      (b.Inserts pos new (b.apply ⟨pos, pos, new⟩) ↔ ∀ x, b.pieces = [.located x] → 0 < x.length)) ∧
    (∀ e : SourceEdit δ, (∀ x ∈ excerpts b.pieces, x.IsExact) → e.start = e.stop →
      (b.replaceSource e).1 = true →
        ∃ m, b.mappings.find? (fun m => m.Holds e) = some m ∧
          (b.Inserts (m.span.start + (e.start - m.sourceSpan.start)) e.new (b.replaceSource e).2 ↔
            m.span.start < m.span.stop)) :=
  ⟨fun _ _ hpos => inserts_apply_iff hpos, fun _ hexact hzero h =>
    inserts_replaceSource_iff hexact hzero h⟩

/-- The insertion by position is at the end of a text, between empty pieces. The one by source
position is inside of a named range. -/
theorem insertion_drops_nothing_iff_among_empty :
    let b : Buffer Nat :=
      ⟨[.located ⟨[], none, .offset 3, none⟩, .located ⟨['a', 'b'], some "s", .range 5 7, none⟩,
        .located ⟨[], none, .offset 4, some 1⟩, .bare []]⟩
    let e : SourceEdit Nat := ⟨some "s", 6, 6, [.bare ['X']]⟩
    2 ≤ b.length ∧ (∀ x ∈ excerpts b.pieces, x.IsExact) ∧ e.start = e.stop ∧
      (b.replaceSource e).1 = true ∧
      b.Inserts 2 [.bare ['X']] (b.apply ⟨2, 2, [.bare ['X']]⟩) ∧
      b.Inserts 1 [.bare ['X']] (b.replaceSource e).2 := by
  intro b e
  have hpos : 2 ≤ b.length := by decide
  have hexact : ∀ x ∈ excerpts b.pieces, x.IsExact := by decide
  have hdone : (b.replaceSource e).1 = true := by decide
  obtain ⟨hposition, hsource⟩ := b.insertion_drops_nothing_iff
  obtain ⟨m, hm, hiff⟩ := hsource e hexact rfl hdone
  have hfirst : b.mappings.find? (fun m => m.Holds e) = some ⟨⟨0, 2⟩, some "s", ⟨5, 7⟩, none⟩ := by
    decide
  obtain rfl := Option.some.inj (hm.symm.trans hfirst)
  exact ⟨hpos, hexact, rfl, hdone, (hposition 2 _ hpos).mpr nofun, hiff.mpr (by decide)⟩

/-- A buffer made from an empty text, and one that holds an empty range at the end. Both insertions
leave no located piece. -/
theorem insertion_drops_empty_piece :
    let b : Buffer Nat := .ofSource [] none
    let b' : Buffer Nat := ⟨[.bare ['a'], .located ⟨[], none, .range 5 5, none⟩]⟩
    let e : SourceEdit Nat := ⟨none, 5, 5, [.bare ['X']]⟩
    (b.apply ⟨0, 0, [.bare ['X']]⟩).pieces = [.bare ['X']] ∧
      ¬ b.Inserts 0 [.bare ['X']] (b.apply ⟨0, 0, [.bare ['X']]⟩) ∧
      (b'.replaceSource e).1 = true ∧ (b'.replaceSource e).2.pieces = [.bare ['a', 'X']] ∧
      ¬ b'.Inserts 1 [.bare ['X']] (b'.replaceSource e).2 := by
  intro b b' e
  have hnone : excerpts (b.apply ⟨0, 0, [.bare ['X']]⟩).pieces = [] := by decide
  have hnone' : excerpts (b'.replaceSource e).2.pieces = [] := by decide
  refine ⟨by decide, fun h => ?_, by decide, by decide, fun h => ?_⟩
  · exact absurd (hnone ▸ h.length_le) (by decide)
  · exact absurd (hnone' ▸ h.length_le) (by decide)

end Buffer

end TracedText
