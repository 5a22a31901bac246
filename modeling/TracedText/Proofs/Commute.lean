import TracedText.Proofs.AtomEdit
import TracedText.Proofs.Boundary

/-!
# Independent edits

Two edits with at least one character between them can be carried out in either order. The later one
in the text then has to be moved by as much as the earlier one makes the text grow. On atoms both
orders leave the same three stretches of the list around the same new pieces. Both lists are
coalesced, so they are equal as soon as their atoms are.

What the one edit leaves to the other is said on its own: the later one leaves the text
before it and the earlier one the text after it. This is so as well where the two touch
and both take text out.
-/
namespace TracedText

variable {δ : Type} {ps : List (Piece δ)}

namespace Edit

def growth (e : Edit δ) : Int := totalLength e.new - (e.stop - e.start : Nat)

/-- The same edit `k` characters further on. No position is moved below zero. -/
def moveBy (k : Int) (e : Edit δ) : Edit δ := ⟨(e.start + k).toNat, (e.stop + k).toNat, e.new⟩

def span (e : Edit δ) : Span := ⟨e.start, e.stop⟩

theorem ordered_moveBy {e : Edit δ} (hord : e.start ≤ e.stop) (k : Int) :
    (e.moveBy k).start ≤ (e.moveBy k).stop := by
  simp only [moveBy]
  omega

theorem totalLength_front_atoms {e : Edit δ} (hord : e.start ≤ e.stop)
    (hwithin : e.start ≤ totalLength ps) :
    (totalLength (upTo e.start ps ++ atoms e.new) : Int) = e.stop + e.growth := by
  rw [totalLength_append, totalLength_upTo, totalLength_atoms, growth]
  omega

section Clears

variable {e₁ e₂ : Edit δ}

theorem clears_iff : e₁.span.Clears e₂.span ↔
    e₁.stop < e₂.start ∨ e₁.start < e₁.stop ∧ e₁.stop = e₂.start ∧ e₂.start < e₂.stop := Iff.rfl

variable (hclears : e₁.span.Clears e₂.span)
include hclears

theorem upTo_onward_of_clears (ps : List (Piece δ)) :
    upTo (e₂.start - e₁.stop) (onward (e₁.start = e₁.stop) e₁.stop ps) =
      onward (e₁.start = e₁.stop) e₁.stop (upTo e₂.start ps) := by
  rcases clears_iff.mp hclears with hgap | ⟨hne, htouch, -⟩
  · exact upTo_onward hgap _ ps
  · have hstart : e₂.start = e₁.stop := htouch.symm
    rw [decide_eq_false (Nat.ne_of_lt hne), hstart, Nat.sub_self]
    exact upTo_zero_onward e₁.stop ps

theorem start_lt_start_of_clears (hord₁ : e₁.start ≤ e₁.stop) : e₁.start < e₂.start := by
  rcases clears_iff.mp hclears with hgap | ⟨hne, htouch, -⟩
  · exact Nat.lt_of_le_of_lt hord₁ hgap
  · exact Nat.lt_of_lt_of_le hne (Nat.le_of_eq htouch)

theorem stop_lt_stop_of_clears (hord₂ : e₂.start ≤ e₂.stop) : e₁.stop < e₂.stop := by
  rcases clears_iff.mp hclears with hgap | ⟨-, htouch, hne₂⟩
  · exact Nat.lt_of_lt_of_le hgap hord₂
  · exact Nat.lt_of_le_of_lt (Nat.le_of_eq htouch) hne₂

/-- Where the later edit has left the text before it, the earlier one finds it as it was. -/
theorem onAtoms_upTo_append (hord₁ : e₁.start ≤ e₁.stop) (hwithin : e₂.start ≤ totalLength ps)
    (qs : List (Piece δ)) :
    e₁.onAtoms (upTo e₂.start ps ++ qs) = upTo e₁.start ps ++ atoms e₁.new ++
      (onward (e₁.start = e₁.stop) e₁.stop (upTo e₂.start ps) ++ qs) := by
  have hlength : totalLength (upTo e₂.start ps) = e₂.start := by
    rw [totalLength_upTo]
    omega
  have hstart := start_lt_start_of_clears hclears hord₁
  have hrest : onward (e₁.start = e₁.stop) e₁.stop (upTo e₂.start ps ++ qs) =
      onward (e₁.start = e₁.stop) e₁.stop (upTo e₂.start ps) ++ qs := by
    rcases clears_iff.mp hclears with hgap | ⟨hne, htouch, -⟩
    · exact onward_append_of_lt (Nat.lt_of_lt_of_le hgap (Nat.le_of_eq hlength.symm))
    · rw [decide_eq_false (Nat.ne_of_lt hne)]
      exact onward_false_append (Nat.le_of_eq (htouch.trans hlength.symm))
  rw [onAtoms, upTo_append_of_lt (by omega), upTo_upTo hstart, hrest]

/-- Where the earlier edit has left the text after it, the later one, moved with
it, finds it as it was. -/
theorem onAtoms_append_onward {k : Int} {done : List (Piece δ)} (hord₂ : e₂.start ≤ e₂.stop)
    (hwithin : e₂.stop ≤ totalLength ps) (hdone : (totalLength done : Int) = e₁.stop + k) :
    (e₂.moveBy k).onAtoms (done ++ onward (e₁.start = e₁.stop) e₁.stop ps) =
      done ++ onward (e₁.start = e₁.stop) e₁.stop (upTo e₂.start ps) ++ atoms e₂.new ++
        onward (e₂.start = e₂.stop) e₂.stop ps := by
  have hbetween : e₁.stop ≤ e₂.start := hclears.stop_le
  have hlt := stop_lt_stop_of_clears hclears hord₂
  have hstart : (e₂.moveBy k).start = totalLength done + (e₂.start - e₁.stop) := by
    simp only [moveBy]
    omega
  have hstop : (e₂.moveBy k).stop = totalLength done + (e₂.stop - e₁.stop) := by
    simp only [moveBy]
    omega
  have hinserts : ((e₂.moveBy k).start = (e₂.moveBy k).stop) = (e₂.start = e₂.stop) :=
    propext (by omega)
  have hrest : onward (e₁.start = e₁.stop) e₁.stop ps ≠ [] := by
    apply ne_nil_of_totalLength_pos
    rw [totalLength_onward]
    omega
  have hfront : upTo (e₂.moveBy k).start (done ++ onward (e₁.start = e₁.stop) e₁.stop ps) =
      done ++ onward (e₁.start = e₁.stop) e₁.stop (upTo e₂.start ps) := by
    rw [upTo_append (by omega) hrest, hstart, Nat.add_sub_cancel_left,
      upTo_onward_of_clears hclears]
  have hback : onward (e₂.start = e₂.stop) (e₂.moveBy k).stop
      (done ++ onward (e₁.start = e₁.stop) e₁.stop ps) =
        onward (e₂.start = e₂.stop) e₂.stop ps := by
    rw [onward_append (by omega) (by omega), hstop, Nat.add_sub_cancel_left, onward_onward hlt]
  rw [onAtoms, hfront]
  simp only [hinserts, hback]
  rfl

end Clears

/-- The first edit stops before the second one starts, which stops within a text of `n`
characters. -/
structure Precedes (e₁ e₂ : Edit δ) (n : Nat) : Prop where
  ordered_first : e₁.start ≤ e₁.stop
  gap : e₁.stop < e₂.start
  ordered_second : e₂.start ≤ e₂.stop
  within : e₂.stop ≤ n

variable {e₁ e₂ : Edit δ} {n : Nat}

theorem Precedes.clears (h : e₁.Precedes e₂ n) : e₁.span.Clears e₂.span := Or.inl h.gap

/-- The stretches that two edits leave, with the new pieces around the one between them. -/
def aroundBoth (e₁ e₂ : Edit δ) (ps : List (Piece δ)) : List (Piece δ) :=
  upTo e₁.start ps ++ atoms e₁.new ++ onward (e₁.start = e₁.stop) e₁.stop (upTo e₂.start ps) ++
    atoms e₂.new ++ onward (e₂.start = e₂.stop) e₂.stop ps

theorem onAtoms_later_first (h : e₁.Precedes e₂ (totalLength ps)) :
    e₁.onAtoms (e₂.onAtoms ps) = aroundBoth e₁ e₂ ps := by
  have hwithin : e₂.start ≤ totalLength ps := Nat.le_trans h.ordered_second h.within
  have hlater : e₂.onAtoms ps = upTo e₂.start ps ++
      (atoms e₂.new ++ onward (e₂.start = e₂.stop) e₂.stop ps) := List.append_assoc ..
  rw [hlater, onAtoms_upTo_append h.clears h.ordered_first hwithin, aroundBoth]
  simp only [List.append_assoc]

theorem onAtoms_earlier_first (h : e₁.Precedes e₂ (totalLength ps)) :
    (e₂.moveBy e₁.growth).onAtoms (e₁.onAtoms ps) = aroundBoth e₁ e₂ ps := by
  have hwithin : e₁.start ≤ totalLength ps := by
    obtain ⟨hord₁, hgap, hord₂, hwithin⟩ := h
    omega
  exact onAtoms_append_onward h.clears h.ordered_second h.within
    (totalLength_front_atoms h.ordered_first hwithin)

theorem Precedes.applyTo_comm (h : e₁.Precedes e₂ (totalLength ps)) (hps : Coalesced ps) :
    e₁.applyTo (e₂.applyTo ps) = (e₂.moveBy e₁.growth).applyTo (e₁.applyTo ps) := by
  have hprecedes : e₁.Precedes e₂ (totalLength (atoms ps)) := (totalLength_atoms ps).symm ▸ h
  obtain ⟨hord₁, hgap, hord₂, hwithin⟩ := h
  have hps₁ : Coalesced (e₁.applyTo ps) := (e₁.noWorse_applyTo ps).coalesced hps
  have hps₂ : Coalesced (e₂.applyTo ps) := (e₂.noWorse_applyTo ps).coalesced hps
  have hatoms₁ := e₁.atoms_applyTo hord₁ (by omega) fun p => hps.isEmptyBare_eq_false
  have hatoms₂ := e₂.atoms_applyTo hord₂ (by omega) fun p => hps.isEmptyBare_eq_false
  have hpos₁ : 0 < totalLength (e₁.applyTo ps) := by
    rw [← totalLength_atoms, hatoms₁, totalLength_onAtoms, totalLength_atoms]
    omega
  have hpos₂ : 0 < totalLength (e₂.applyTo ps) := by
    rw [← totalLength_atoms, hatoms₂, totalLength_onAtoms, totalLength_atoms]
    omega
  refine Coalesced.eq_of_atoms ((e₁.noWorse_applyTo _).coalesced hps₂)
    ((Edit.noWorse_applyTo _ _).coalesced hps₁) ?_
  rw [e₁.atoms_applyTo hord₁ hpos₂ fun p => hps₂.isEmptyBare_eq_false,
    Edit.atoms_applyTo _ (ordered_moveBy hord₂ _) hpos₁ fun p => hps₁.isEmptyBare_eq_false,
    hatoms₁, hatoms₂, onAtoms_later_first hprecedes, onAtoms_earlier_first hprecedes]

end Edit

namespace Buffer

/-- On a coalesced buffer two edits with a gap between them give the same buffer in either order,
once the one further on is moved by as much as the other makes the text grow. -/
theorem independent_edits_commute {b : Buffer δ} (hb : Coalesced b.pieces) {e₁ e₂ : Edit δ}
    (h : e₁.Precedes e₂ b.length) :
    0 ≤ e₂.start + e₁.growth ∧
      (b.apply e₂).apply e₁ = (b.apply e₁).apply (e₂.moveBy e₁.growth) := by
  refine ⟨?_, congrArg Buffer.mk (h.applyTo_comm hb)⟩
  have hord := h.ordered_first
  have hgap := h.gap
  unfold Edit.growth
  omega

/-- Both edits cut the located piece whose range falls short, the first one takes out the bare text
before it, an empty piece stands where the second one stops, and what they put in joins. -/
theorem independent_edits_commute_short_range :
    let b : Buffer Nat := ⟨[.located ⟨[], some "s", .offset 2, none⟩, .bare ['a', 'b'],
      .located ⟨['c', 'd', 'e', 'f'], none, .range 3 2, some 5⟩,
      .located ⟨[], none, .offset 9, none⟩, .bare ['g']]⟩
    let e₁ : Edit Nat := ⟨0, 3, [.bare ['x'], .bare []]⟩
    let e₂ : Edit Nat := ⟨4, 6, [.bare ['y', 'z'], .located ⟨[], none, .range 1 1, none⟩]⟩
    let out : Buffer Nat := ⟨[.located ⟨[], some "s", .offset 2, none⟩, .bare ['x'],
      .located ⟨['d'], none, .range 4 0, some 5⟩, .bare ['y', 'z'],
      .located ⟨[], none, .range 1 1, none⟩, .located ⟨[], none, .offset 9, none⟩, .bare ['g']]⟩
    Coalesced b.pieces ∧ e₁.Precedes e₂ b.length ∧ e₁.growth = -2 ∧
      (b.apply e₂).apply e₁ = (b.apply e₁).apply ⟨2, 4, e₂.new⟩ ∧ (b.apply e₂).apply e₁ = out := by
  intro b e₁ e₂ out
  have hb : Coalesced b.pieces := by decide
  have h : e₁.Precedes e₂ b.length := ⟨by decide, by decide, by decide, by decide⟩
  exact ⟨hb, h, by decide, (independent_edits_commute hb h).2, by decide⟩

end Buffer

end TracedText
