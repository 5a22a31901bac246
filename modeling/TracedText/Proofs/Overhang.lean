import TracedText.Proofs.SourceEditTrace

/-!
# Cutting text that is longer than its range

The end of a range that loses characters at the back moves down by one for each of them, and the
start of one that loses characters at the front moves up. Neither looks at the other. When the
text is longer than its stretch of the source there are more characters to lose than positions,
and the two can cross. They do as soon as less is left of the text than it is longer, its
overhang. Only an end stops at zero, which keeps a range that starts there in order.
-/
namespace TracedText

variable {δ : Type}

structure Span.Within (s t : Span) : Prop where
  ordered : s.start ≤ s.stop
  start_le : t.start ≤ s.start
  stop_le : s.stop ≤ t.stop

theorem Span.within_iff {s t : Span} :
    s.Within t ↔ s.start ≤ s.stop ∧ t.start ≤ s.start ∧ s.stop ≤ t.stop :=
  ⟨fun h => ⟨h.ordered, h.start_le, h.stop_le⟩, fun h => ⟨h.1, h.2.1, h.2.2⟩⟩

instance (s t : Span) : Decidable (s.Within t) := decidable_of_iff _ Span.within_iff.symm

namespace Excerpt

/-- By how many characters the text is longer than its stretch of the source. -/
def overhang (x : Excerpt δ) : Nat := x.length - x.span.length

/-- What stays of an excerpt at its front, when it is cut by itself or by an edit. -/
inductive IsHead (x : Excerpt δ) : Excerpt δ → Prop
  | take (n : Nat) : IsHead x (x.take n)
  | edit (e : Edit δ) (offset : Nat) {y : Excerpt δ}
      (h : .located y ∈ e.head (offset, .located x)) : IsHead x y
  | sourceEdit (e : SourceEdit δ) {y : Excerpt δ} (h : .located y ∈ e.head x) : IsHead x y

inductive IsTail (x : Excerpt δ) : Excerpt δ → Prop
  | dropFrom (cut : Int) {y : Excerpt δ} (h : Piece.dropFrom cut (.located x) = .located y) :
      IsTail x y
  | edit (e : Edit δ) (offset : Nat) {y : Excerpt δ}
      (h : .located y ∈ e.tail (offset, .located x)) : IsTail x y
  | sourceEdit (e : SourceEdit δ) {y : Excerpt δ} (h : .located y ∈ e.tail x) : IsTail x y

variable {x y : Excerpt δ} {s t : Nat}

theorem eq_of_mem_ite {p : Piece δ} {kept : Prop} [Decidable kept]
    (h : .located y ∈ if kept then [p] else []) : p = .located y := by
  split at h
  · exact (List.mem_singleton.mp h).symm
  · cases h

theorem IsHead.exists_take (h : x.IsHead y) : ∃ n, y = x.take n := by
  cases h with
  | take n => exact ⟨n, rfl⟩
  | edit e offset h => exact ⟨_, (Piece.located.inj (eq_of_mem_ite h)).symm⟩
  | sourceEdit e h => exact ⟨_, (Piece.located.inj (eq_of_mem_ite h)).symm⟩

theorem IsTail.exists_drop (h : x.IsTail y) : ∃ n, y = x.drop n := by
  cases h with
  | dropFrom cut h => exact ⟨_, (Piece.located.inj h).symm⟩
  | edit e offset h => exact ⟨_, (Piece.located.inj (eq_of_mem_ite h)).symm⟩
  | sourceEdit e h => exact ⟨_, (Piece.located.inj (eq_of_mem_ite h)).symm⟩

section Range

variable (hplace : x.place = .range s t) (hord : s ≤ t)
include hplace hord

theorem within_take_iff (n : Nat) :
    (x.take n).span.Within x.span ↔ s = 0 ∨ x.overhang ≤ (x.take n).length := by
  have hspan : x.span = ⟨s, t⟩ := by simp only [span, hplace, Place.span]
  have hcut : (x.take n).span = ⟨s, t - (x.length - n)⟩ := by
    simp only [span, take, hplace, Place.dropBack, Place.span]
  rw [Span.within_iff, overhang, Span.length, hspan, hcut, length_take]
  dsimp only
  omega

theorem within_drop_iff (n : Nat) :
    (x.drop n).span.Within x.span ↔ x.overhang ≤ (x.drop n).length := by
  have hspan : x.span = ⟨s, t⟩ := by simp only [span, hplace, Place.span]
  have hcut : (x.drop n).span = ⟨s + min n x.length, t⟩ := by
    simp only [span, drop, hplace, Place.dropFront, Place.span]
  rw [Span.within_iff, overhang, Span.length, hspan, hcut, length_drop]
  dsimp only
  omega

/-- What a cut leaves of a range that is in order is in order and within it just when at least
as much text is left as the range had too much of, or when it is at the front of a range from
zero. So whenever the text is longer than its range, some cut leaves one that is not. -/
theorem trim_within_iff :
    (∀ y, x.IsHead y → (y.span.Within x.span ↔ s = 0 ∨ x.overhang ≤ y.length)) ∧
    (∀ y, x.IsTail y → (y.span.Within x.span ↔ x.overhang ≤ y.length)) ∧
    (x.span.length < x.length → ∃ y, x.IsTail y ∧ ¬ y.span.Within x.span) := by
  refine ⟨fun y hy => ?_, fun y hy => ?_, fun hlong => ⟨x.drop x.length, ?_, ?_⟩⟩
  · obtain ⟨n, rfl⟩ := hy.exists_take
    exact within_take_iff hplace hord n
  · obtain ⟨n, rfl⟩ := hy.exists_drop
    exact within_drop_iff hplace hord n
  · have hcut : Piece.cutPosition x.length x.length = x.length := by
      rw [Piece.cutPosition, if_neg (by omega), Int.natAbs_natCast, Nat.min_self]
    exact .dropFrom x.length (congrArg (fun n => Piece.drop n (.located x)) hcut)
  · rw [within_drop_iff hplace hord, length_drop, overhang]
    omega

end Range

/-- Four characters stand for two in the source. Both parts of a cut in the middle have as many
characters as there are too many. -/
theorem trim_within_iff_middle :
    let x : Excerpt Nat := ⟨['a', 'b', 'c', 'd'], none, .range 10 12, none⟩
    x.place = .range 10 12 ∧ 10 ≤ 12 ∧ x.overhang = 2 ∧
      (x.take 2).span.Within x.span ∧ (x.drop 2).span.Within x.span ∧
      ∃ y, x.IsTail y ∧ ¬ y.span.Within x.span := by
  intro x
  have hord : 10 ≤ 12 := by decide
  obtain ⟨hhead, htail, hlong⟩ := trim_within_iff (x := x) rfl hord
  have hback : x.IsTail (x.drop 2) := .dropFrom 2 rfl
  exact ⟨rfl, hord, rfl, (hhead _ (.take 2)).mpr (by decide), (htail _ hback).mpr (by decide),
    hlong (by decide)⟩

/-- Six characters stand for two in the source. Of the first one alone the range ends before
it starts, and of the last three alone it starts after the old end. An insertion leaves the
former in the buffer. -/
theorem trim_of_long_text_inverted :
    let x : Excerpt Nat := ⟨['a', 'b', 'c', 'd', 'e', 'f'], none, .range 10 12, none⟩
    let b : Buffer Nat := ⟨[.located x]⟩
    x.span.length < x.length ∧ (x.take 1).span = ⟨10, 7⟩ ∧ ¬ (x.take 1).span.Within x.span ∧
      Piece.dropFrom (-3) (.located x) = .located (x.drop 3) ∧ (x.drop 3).span = ⟨13, 12⟩ ∧
      ¬ (x.drop 3).span.Within x.span ∧
      excerpts (b.apply ⟨1, 1, [.bare ['X']]⟩).pieces = [x.take 1, x.drop 1] := by
  decide

end Excerpt

end TracedText
