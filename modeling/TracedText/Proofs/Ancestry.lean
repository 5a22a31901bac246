import TracedText.Proofs.Hereditary

/-!
# Excerpts stay within their ancestors

An excerpt has room when its stretch of the source is not shorter than its text. A cut then takes as
much off the stretch as off the text, so what the stretch has in excess is the same in all parts of
an excerpt. In a run that starts with excerpts that have room, and puts in no others, each excerpt
has room. It also descends from one that was there at the start or was put in, through any number of
cuts: it has the same source and payload, and its stretch lies in that of its ancestor.
-/
namespace TracedText

variable {δ : Type}

namespace Place

def isOffset : Place → Bool
  | offset _ => true
  | range _ _ => false

@[simp] theorem isOffset_dropFront (n : Nat) (p : Place) :
    (p.dropFront n).isOffset = p.isOffset := by
  cases p <;> rfl

@[simp] theorem isOffset_dropBack (n : Nat) (p : Place) : (p.dropBack n).isOffset = p.isOffset := by
  cases p <;> rfl

end Place

namespace Excerpt

variable {x y z : Excerpt δ}

/-- A range has its ends in order and is not shorter than the text. For an offset
there is nothing to ask. -/
def HasRoom (x : Excerpt δ) : Prop :=
  match x.place with
  | .offset _ => True
  | .range s e => s ≤ e ∧ x.length ≤ e - s

/-- How much longer the stretch of the source is than the text. -/
def excess (x : Excerpt δ) : Int := x.span.stop - x.span.start - x.length

theorem hasRoom_iff : x.HasRoom ↔ 0 ≤ x.excess := by
  unfold HasRoom excess span
  cases x.place with
  | offset s =>
    simp only [Place.span, true_iff]
    omega
  | range s e =>
    simp only [Place.span]
    omega

instance (x : Excerpt δ) : Decidable x.HasRoom := decidable_of_iff _ hasRoom_iff.symm

theorem excess_take (h : x.HasRoom) (n : Nat) : (x.take n).excess = x.excess := by
  have hlength := x.length_take n
  simp only [excess, span, hlength]
  simp only [HasRoom] at h
  cases hplace : x.place with
  | offset s =>
    simp only [take, hplace, Place.dropBack, Place.span]
    omega
  | range s e =>
    simp only [hplace] at h
    simp only [take, hplace, Place.dropBack, Place.span]
    omega

theorem excess_drop (x : Excerpt δ) (n : Nat) : (x.drop n).excess = x.excess := by
  have hlength := x.length_drop n
  simp only [excess, span_start_drop, span_stop_drop, hlength]
  omega

/-- Source, payload and the kind of place are those of `y`, and so is the excess. The stretch of the
source lies within that of `y`. -/
structure DescendsFrom (x y : Excerpt δ) : Prop where
  source_eq : x.source = y.source
  data_eq : x.data = y.data
  isOffset_eq : x.place.isOffset = y.place.isOffset
  start_le : y.span.start ≤ x.span.start
  stop_le : x.span.stop ≤ y.span.stop
  excess_eq : x.excess = y.excess

theorem DescendsFrom.refl (x : Excerpt δ) : x.DescendsFrom x :=
  ⟨rfl, rfl, rfl, Nat.le_refl _, Nat.le_refl _, rfl⟩

theorem DescendsFrom.trans (h : x.DescendsFrom y) (h' : y.DescendsFrom z) : x.DescendsFrom z where
  source_eq := h.source_eq.trans h'.source_eq
  data_eq := h.data_eq.trans h'.data_eq
  isOffset_eq := h.isOffset_eq.trans h'.isOffset_eq
  start_le := Nat.le_trans h'.start_le h.start_le
  stop_le := Nat.le_trans h.stop_le h'.stop_le
  excess_eq := h.excess_eq.trans h'.excess_eq

theorem HasRoom.take_descendsFrom (h : x.HasRoom) (n : Nat) : (x.take n).DescendsFrom x where
  source_eq := rfl
  data_eq := rfl
  isOffset_eq := Place.isOffset_dropBack _ _
  start_le := Nat.le_of_eq (x.span_start_take n).symm
  stop_le := x.span_stop_take_le n
  excess_eq := excess_take h n

theorem drop_descendsFrom (x : Excerpt δ) (n : Nat) : (x.drop n).DescendsFrom x where
  source_eq := rfl
  data_eq := rfl
  isOffset_eq := Place.isOffset_dropFront _ _
  start_le := by
    rw [span_start_drop]
    exact Nat.le_add_right _ _
  stop_le := Nat.le_of_eq (x.span_stop_drop n)
  excess_eq := x.excess_drop n

theorem DescendsFrom.hasRoom (h : x.DescendsFrom y) (hy : y.HasRoom) : x.HasRoom := by
  rw [hasRoom_iff, h.excess_eq]
  exact hasRoom_iff.mp hy

end Excerpt

/-- To have room and an ancestor in a set is inherited by parts, through the part just cut. -/
theorem hereditary_descends (S : Excerpt δ → Prop) :
    Hereditary fun x => x.HasRoom ∧ ∃ y, S y ∧ x.DescendsFrom y where
  take x n := by
    rintro ⟨hroom, y, hy, hxy⟩
    have hcut := hroom.take_descendsFrom n
    exact ⟨hcut.hasRoom hroom, y, hy, hcut.trans hxy⟩
  drop x n := by
    rintro ⟨hroom, y, hy, hxy⟩
    have hcut := x.drop_descendsFrom n
    exact ⟨hcut.hasRoom hroom, y, hy, hcut.trans hxy⟩

/-- When all excerpts of a buffer have room, and so have those that a run puts in, then all excerpts
it leads to have room, and each descends from one of the former or of the latter. Edits may have any
positions, and `P` need not hold of any piece that the run does not put in. In words of 64 bits this
holds where all these excerpts fit words, which `run_keeps_words` then says of the outcome. -/
theorem run_keeps_room {P : Piece δ → Prop} {b b' : Buffer δ}
    (hb : ∀ x ∈ excerpts b.pieces, x.HasRoom) (hP : ∀ x, P (.located x) → x.HasRoom)
    (h : Run (fun _ => True) P b b') :
    ∀ x ∈ excerpts b'.pieces, x.HasRoom ∧
      ∃ y, (y ∈ excerpts b.pieces ∨ P (.located y)) ∧ x.DescendsFrom y := by
  have hkept := (hereditary_descends fun y => y ∈ excerpts b.pieces ∨ P (.located y)).kept (P := P)
    fun x hx => ⟨hP x hx, x, Or.inr hx, .refl x⟩
  exact hkept.run h fun x hx => ⟨hb x hx, x, Or.inl hx, .refl x⟩

/-- The first edit starts after its stop and leaves parts of `abcd` that overlap. The second one
cuts the range that the first one put in, which is longer than its text. -/
theorem run_keeps_room_overlap :
    let given : List (Piece Nat) := [.bare ['X'], .located ⟨['y', 'z'], none, .range 3 9, none⟩,
      .located ⟨['w'], some "t", .offset 7, none⟩]
    let b : Buffer Nat :=
      ⟨[.located ⟨['a', 'b', 'c', 'd'], some "s", .range 10 20, some 1⟩, .bare ['-']]⟩
    let b₁ := b.apply ⟨3, 1, [.located ⟨['y', 'z'], none, .range 3 9, none⟩]⟩
    let b₂ := (b₁.replaceSource ⟨none, 5, 8, [.bare ['X']]⟩).2
    let b₃ := b₂.push (.located ⟨['w'], some "t", .offset 7, none⟩)
    Run (fun _ => True) (· ∈ given) b b₃ ∧
      (∀ x ∈ excerpts b.pieces, x.HasRoom) ∧ (∀ x ∈ excerpts given, x.HasRoom) ∧
      ⟨['z'], none, .range 4 9, none⟩ ∈ excerpts b₃.pieces ∧
      ∀ x ∈ excerpts b₃.pieces, x.HasRoom ∧
        ∃ y, (y ∈ excerpts b.pieces ∨ .located y ∈ given) ∧ x.DescendsFrom y := by
  intro given b b₁ b₂ b₃
  have hrun : Run (fun _ => True) (· ∈ given) b b₃ :=
    ((Relation.ReflTransGen.single (.edit _ trivial (by decide))).tail
      (.sourceEdit _ (by decide))).tail (.push _ (by decide))
  have hb : ∀ x ∈ excerpts b.pieces, x.HasRoom := by decide
  have hgiven : ∀ x ∈ excerpts given, x.HasRoom := by decide
  exact ⟨hrun, hb, hgiven, by decide,
    run_keeps_room hb (fun x hx => hgiven x (mem_excerpts.mpr hx)) hrun⟩

end TracedText
