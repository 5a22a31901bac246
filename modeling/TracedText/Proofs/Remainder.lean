import TracedText.Proofs.SourceEditTrace

/-!
# What a source edit keeps of its target

The head that stays of a target is counted from its front and the tail from its back, each by the
positions in the source, and neither count looks at the other. Where the text is as long as its
stretch of the source, just what the edit names lies between the two. Where the text is longer,
more lies between them. Where it is shorter, the head and the tail may overlap, and the characters
in both come out twice. The text after the edit and its length are given for all of these cases, so
that it can be said just when the edit repeats nothing and when an empty one is an insertion.
-/
namespace TracedText

variable {δ : Type}

theorem flatten_split {ps : List (Piece δ)} {i : Nat} {p : Piece δ} (hp : ps[i]? = some p) :
    flatten ps = flatten (ps.take i) ++ p.text ++ flatten (ps.drop (i + 1)) := by
  have hsplit := congrArg flatten (eq_take_append_cons_drop hp)
  rw [flatten_append] at hsplit
  rw [List.append_assoc]
  exact hsplit

namespace SourceEdit

variable (e : SourceEdit δ) (x : Excerpt δ)

def keptFront : Nat := min (e.start - x.span.start) x.length

def keptBack : Nat := min (x.span.stop - e.stop) x.length

def KeepsApart : Prop := e.keptFront x + e.keptBack x ≤ x.length

instance : Decidable (e.KeepsApart x) := Nat.decLe _ _

theorem keptFront_le : e.keptFront x ≤ x.length := Nat.min_le_right _ _

theorem keptBack_le : e.keptBack x ≤ x.length := Nat.min_le_right _ _

theorem flatten_head : flatten (e.head x) = x.text.take (e.keptFront x) := by
  rw [← map_char_traced, head, traced_kept_front, Piece.map_char_traced, Piece.text_take]
  exact List.take_eq_take_min

theorem flatten_tail : flatten (e.tail x) = x.text.drop (x.length - e.keptBack x) := by
  have hcut : x.length - (x.span.stop - e.stop) = x.length - e.keptBack x := by
    rw [keptBack]
    omega
  by_cases hlt : e.stop < x.span.stop
  · have hlength : (Piece.located x).length = x.length := rfl
    rw [tail, if_pos hlt, Piece.dropFrom_neg (by omega), hlength, hcut]
    exact (List.append_nil _).trans (x.text_drop _)
  · rw [tail, if_neg hlt, ← hcut, Nat.sub_eq_zero_of_le (Nat.not_lt.mp hlt), Nat.sub_zero,
      Excerpt.length, List.drop_length]
    rfl

variable {e x}

theorem keepsApart_of_span_le (hord : e.start ≤ e.stop) (hin : e.isWithin x = true)
    (hlen : x.span.length ≤ x.length) : e.KeepsApart x := by
  obtain ⟨-, hstart, hstop⟩ := isWithin_iff.mp hin
  simp only [KeepsApart, keptFront, keptBack, Span.length] at hlen ⊢
  omega

theorem kept_add_of_isExact (hzero : e.start = e.stop) (hin : e.isWithin x = true)
    (hx : x.IsExact) : e.keptFront x + e.keptBack x = x.length := by
  obtain ⟨-, hstart, hstop⟩ := isWithin_iff.mp hin
  simp only [Excerpt.IsExact] at hx
  simp only [keptFront, keptBack]
  omega

end SourceEdit

namespace Buffer

variable (b : Buffer δ) (e : SourceEdit δ) {i : Nat} {x : Excerpt δ}

/-- The target stands between the same two texts before and after the edit, and of the target the
edit leaves the head and the tail. -/
theorem text_replaceSource (htarget : e.target? b.pieces = some (i, x))
    (h : (b.replaceSource e).1 = true) :
    b.text = flatten (b.pieces.take i) ++ x.text ++ flatten (b.pieces.drop (i + 1)) ∧
      (b.replaceSource e).2.text =
        flatten (b.pieces.take i) ++ x.text.take (e.keptFront x) ++ flatten e.new ++
          x.text.drop (x.length - e.keptBack x) ++ flatten (b.pieces.drop (i + 1)) := by
  obtain ⟨-, j, y, htarget', hout⟩ := b.replaceSource_of_eq_true e h
  obtain ⟨rfl, rfl⟩ := Prod.mk.inj (Option.some.inj (htarget.symm.trans htarget'))
  refine ⟨flatten_split (SourceEdit.getElem?_of_target? htarget).1, ?_⟩
  rw [hout, ← e.flatten_head x, ← e.flatten_tail x]
  refine (SourceEdit.flatMap_splice seamless_text i).trans ?_
  rw [List.flatMap_append, List.flatMap_append, ← List.append_assoc]
  rfl

theorem length_replaceSource (htarget : e.target? b.pieces = some (i, x))
    (h : (b.replaceSource e).1 = true) :
    (b.replaceSource e).2.length + x.length =
      b.length + totalLength e.new + (e.keptFront x + e.keptBack x) := by
  obtain ⟨hold, hnew⟩ := b.text_replaceSource e htarget h
  have hfront := e.keptFront_le x
  have hback := e.keptBack_le x
  have hx : x.length = x.text.length := rfl
  rw [← length_text, ← length_text, hold, hnew, ← length_flatten e.new]
  simp only [List.length_append, List.length_take, List.length_drop]
  omega

/-- A carried out source edit puts a head and a tail of its target around the new text. They are
two different parts of the target just when there is room for both, and otherwise the text grows by
more than the new text. A target that is not shorter than its stretch of the source has room. -/
theorem replaceSource_repeats_nothing_iff (h : (b.replaceSource e).1 = true) :
    ∃ i x, e.target? b.pieces = some (i, x) ∧
      let before := flatten (b.pieces.take i)
      let after := flatten (b.pieces.drop (i + 1))
      b.text = before ++ x.text ++ after ∧
      (b.replaceSource e).2.text =
        before ++ x.text.take (e.keptFront x) ++ flatten e.new ++
          x.text.drop (x.length - e.keptBack x) ++ after ∧
      ((∃ head removed tail, x.text = head ++ removed ++ tail ∧
        (b.replaceSource e).2.text = before ++ head ++ flatten e.new ++ tail ++ after) ↔
          e.KeepsApart x) ∧
      ((b.replaceSource e).2.length ≤ b.length + totalLength e.new ↔ e.KeepsApart x) ∧
      (x.span.length ≤ x.length → e.KeepsApart x) := by
  obtain ⟨hord, i, x, htarget, -⟩ := b.replaceSource_of_eq_true e h
  obtain ⟨hold, hnew⟩ := b.text_replaceSource e htarget h
  have hin := (SourceEdit.getElem?_of_target? htarget).2
  have hlength := b.length_replaceSource e htarget h
  have hiff : (b.replaceSource e).2.length ≤ b.length + totalLength e.new ↔ e.KeepsApart x := by
    unfold SourceEdit.KeepsApart
    omega
  refine ⟨i, x, htarget, hold, hnew, ⟨?_, ?_⟩, hiff, SourceEdit.keepsApart_of_span_le hord hin⟩
  · rintro ⟨head, removed, tail, hsplit, hkept⟩
    refine hiff.mp ?_
    rw [← length_text, ← length_text, hold, hkept, hsplit, ← length_flatten e.new]
    simp only [List.length_append]
    omega
  · intro hapart
    have hle : e.keptFront x ≤ x.length - e.keptBack x := by
      unfold SourceEdit.KeepsApart at hapart
      omega
    refine ⟨_, (x.text.take (x.length - e.keptBack x)).drop (e.keptFront x), _, ?_, hnew⟩
    have hfront := List.take_append_drop (e.keptFront x) (x.text.take (x.length - e.keptBack x))
    rw [List.take_take, Nat.min_eq_left hle] at hfront
    rw [hfront, List.take_append_drop]

/-- The stretch of the source is more than twice as long as the text, but the edit takes
out most of the stretch. -/
theorem replaceSource_repeats_nothing_iff_wide :
    let b : Buffer Nat :=
      ⟨[.bare ['<'], .located ⟨['a', 'b', 'c', 'd'], some "s", .range 10 20, none⟩, .bare ['>']]⟩
    let e : SourceEdit Nat := ⟨some "s", 11, 18, [.bare ['X']]⟩
    (b.replaceSource e).1 = true ∧
      (b.replaceSource e).2.text = ['<', 'a', 'X', 'c', 'd', '>'] ∧
      ∃ i x, e.target? b.pieces = some (i, x) ∧ e.KeepsApart x := by
  intro b e
  have h : (b.replaceSource e).1 = true := by decide
  obtain ⟨i, x, htarget, -, hnew, -, hiff, -⟩ := b.replaceSource_repeats_nothing_iff e h
  exact ⟨h, by decide, i, x, htarget, hiff.mp (by decide)⟩

/-- Four characters stand for ten in the source, and the edit replaces two of these in the middle.
All four are kept after the new text, and the first two before it as well. -/
theorem replaceSource_repeats_short_target :
    let x : Excerpt Nat := ⟨['a', 'b', 'c', 'd'], none, .range 10 20, none⟩
    let b : Buffer Nat := ⟨[.located x]⟩
    let e : SourceEdit Nat := ⟨none, 12, 14, [.bare ['X']]⟩
    (b.replaceSource e).1 = true ∧ e.target? b.pieces = some (0, x) ∧
      (b.replaceSource e).2.text = ['a', 'b', 'X', 'a', 'b', 'c', 'd'] ∧
      ¬ (b.replaceSource e).2.length ≤ b.length + totalLength e.new ∧
      ¬ ∃ head removed tail, x.text = head ++ removed ++ tail ∧
        (b.replaceSource e).2.text = head ++ ['X'] ++ tail := by
  intro x b e
  have htext : (b.replaceSource e).2.text = ['a', 'b', 'X', 'a', 'b', 'c', 'd'] := by decide
  refine ⟨by decide, by decide, htext, by decide, ?_⟩
  rintro ⟨head, removed, tail, hsplit, hkept⟩
  have hold := congrArg List.length hsplit
  have hnew := congrArg List.length (htext.symm.trans hkept)
  simp only [List.length_append, List.length_cons, List.length_nil, x] at hold hnew
  omega

/-- A source edit of no length is an insertion just when the head and the tail of its target make up
the whole of it. The text is longer or shorter than after an insertion by what they have in common
or lack. Nothing is wrong with a target that is as long as its stretch of the source. -/
theorem replaceSource_inserts_iff (hzero : e.start = e.stop) (h : (b.replaceSource e).1 = true) :
    ∃ i x, e.target? b.pieces = some (i, x) ∧
      ((∃ left right, b.text = left ++ right ∧
        (b.replaceSource e).2.text = left ++ flatten e.new ++ right) ↔
          e.keptFront x + e.keptBack x = x.length) ∧
      (b.replaceSource e).2.length + x.length =
        b.length + totalLength e.new + (e.keptFront x + e.keptBack x) ∧
      (x.IsExact → e.keptFront x + e.keptBack x = x.length) := by
  obtain ⟨-, i, x, htarget, -⟩ := b.replaceSource_of_eq_true e h
  obtain ⟨hold, hnew⟩ := b.text_replaceSource e htarget h
  have hin := (SourceEdit.getElem?_of_target? htarget).2
  have hlength := b.length_replaceSource e htarget h
  refine ⟨i, x, htarget, ⟨?_, ?_⟩, hlength, SourceEdit.kept_add_of_isExact hzero hin⟩
  · rintro ⟨left, right, hsplit, hkept⟩
    rw [← length_text, ← length_text, hsplit, hkept, ← length_flatten e.new] at hlength
    simp only [List.length_append] at hlength
    omega
  · intro hkept
    have hback : x.length - e.keptBack x = e.keptFront x := by omega
    refine ⟨flatten (b.pieces.take i) ++ x.text.take (e.keptFront x),
      x.text.drop (e.keptFront x) ++ flatten (b.pieces.drop (i + 1)), ?_, ?_⟩
    · rw [hold, List.append_assoc, List.append_assoc, ← List.append_assoc (x.text.take _),
        List.take_append_drop]
    · rw [hnew, hback]
      simp only [List.append_assoc]

/-- An insertion at the end of a stretch that is longer than the text. -/
theorem replaceSource_inserts_iff_at_end :
    let b : Buffer Nat := ⟨[.located ⟨['a', 'b'], none, .range 10 20, none⟩, .bare ['.']]⟩
    let e : SourceEdit Nat := ⟨none, 20, 20, [.bare ['X']]⟩
    e.start = e.stop ∧ (b.replaceSource e).1 = true ∧
      ∃ left right, b.text = left ++ right ∧
        (b.replaceSource e).2.text = left ++ ['X'] ++ right := by
  intro b e
  have h : (b.replaceSource e).1 = true := by decide
  obtain ⟨i, x, htarget, hiff, -, -⟩ := b.replaceSource_inserts_iff e rfl h
  have hfirst : e.target? b.pieces = some (0, ⟨['a', 'b'], none, .range 10 20, none⟩) := by decide
  obtain ⟨rfl, rfl⟩ := Prod.mk.inj (Option.some.inj (htarget.symm.trans hfirst))
  exact ⟨rfl, h, hiff.mpr (by decide)⟩

/-- Six characters stand for two in the source. An edit between these two takes out nothing there,
but it takes four characters out of the text. -/
theorem replaceSource_empty_edit_removes :
    let b : Buffer Nat := ⟨[.located ⟨['a', 'b', 'c', 'd', 'e', 'f'], none, .range 10 12, none⟩]⟩
    let e : SourceEdit Nat := ⟨none, 11, 11, [.bare ['X']]⟩
    e.start = e.stop ∧ (b.replaceSource e).1 = true ∧
      (b.replaceSource e).2.text = ['a', 'X', 'f'] ∧
      ¬ ∃ left right, b.text = left ++ right ∧
        (b.replaceSource e).2.text = left ++ ['X'] ++ right := by
  intro b e
  have hold : b.text = ['a', 'b', 'c', 'd', 'e', 'f'] := by decide
  have hnew : (b.replaceSource e).2.text = ['a', 'X', 'f'] := by decide
  refine ⟨rfl, by decide, hnew, ?_⟩
  rintro ⟨left, right, hsplit, hkept⟩
  have hbefore := congrArg List.length (hold.symm.trans hsplit)
  have hafter := congrArg List.length (hnew.symm.trans hkept)
  simp only [List.length_append, List.length_cons, List.length_nil] at hbefore hafter
  omega

end Buffer

end TracedText
