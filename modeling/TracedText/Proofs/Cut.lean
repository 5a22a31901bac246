import TracedText.Origin

/-!
# Cutting a piece keeps the origin of every character left

The place of a cut piece is moved so that its characters name the positions they named before. So
the traced form of a cut piece is a part of the traced form of the piece, wherever the cut lies and
whatever the place, also where the end of a range stops at zero.

Nor does it matter to a piece in which order it is cut at its two ends, or in how many steps. A
signed cut counts from the end when it is below zero. Zero is not, so no cut of this kind asks
for nothing at the end.
-/
namespace TracedText

variable {δ : Type}

namespace Place

theorem ofChar_dropBack (p : Place) {m n k : Nat} (hm : m ≤ n) (hk : k < m) :
    (p.dropBack (n - m)).ofChar m k = p.ofChar n k := by
  cases p with
  | offset s => rfl
  | range s e =>
    have hend : e - (n - m) - (m - 1 - k) = e - (n - 1 - k) := by omega
    simp only [dropBack, ofChar, hend]

theorem ofChar_dropFront (p : Place) {m n : Nat} (k : Nat) :
    (p.dropFront m).ofChar (n - m) k = p.ofChar n (m + k) := by
  cases p with
  | offset s => simp only [dropFront, ofChar, Nat.add_assoc]
  | range s e =>
    have hend : n - m - 1 - k = n - 1 - (m + k) := by omega
    simp only [dropFront, ofChar, Nat.add_assoc, hend]

end Place

namespace Excerpt

variable (x : Excerpt δ)

theorem length_take (n : Nat) : (x.take n).length = min n x.length := by
  rw [length, text_take, List.length_take, length]

theorem length_drop (n : Nat) : (x.drop n).length = x.length - n := by
  rw [length, text_drop, List.length_drop, length]

theorem take_take (m n : Nat) : (x.take m).take n = x.take (min n m) := by
  have hcut : x.length - m + ((x.take m).length - n) = x.length - min n m := by
    rw [length_take]
    omega
  have hplace := x.place.dropBack_dropBack (x.length - m) ((x.take m).length - n)
  rw [hcut] at hplace
  rw [take_eq n (x.take m), take_eq (min n m) x, text_take, List.take_take]
  exact congrArg (mk _ x.source · x.data) hplace

theorem drop_drop (m n : Nat) : (x.drop m).drop n = x.drop (m + n) := by
  have hcut : min m x.length + min n (x.drop m).length = min (m + n) x.length := by
    rw [length_drop]
    omega
  have hplace := x.place.dropFront_dropFront (min m x.length) (min n (x.drop m).length)
  rw [hcut] at hplace
  rw [drop_eq n (x.drop m), drop_eq (m + n) x, text_drop, List.drop_drop]
  exact congrArg (mk _ x.source · x.data) hplace

/-- Cuts at both ends commute, also where the end of a range stops at zero. -/
theorem drop_take {m n : Nat} (h : m ≤ n) : (x.take n).drop m = (x.drop m).take (n - m) := by
  have hfront : min m (x.take n).length = min m x.length := by
    rw [length_take]
    omega
  have hback : (x.drop m).length - (n - m) = x.length - n := by
    rw [length_drop]
    omega
  have hplace : (x.place.dropBack (x.length - n)).dropFront (min m (x.take n).length) =
      (x.place.dropFront (min m x.length)).dropBack ((x.drop m).length - (n - m)) := by
    rw [hfront, hback, Place.dropBack_dropFront]
  rw [drop_eq m (x.take n), take_eq (n - m) (x.drop m), text_take, text_drop, List.drop_take]
  exact congrArg (mk _ x.source · x.data) hplace

theorem drop_zero : x.drop 0 = x := by
  simp only [drop_eq, List.drop_zero, Nat.zero_min, Place.dropFront_zero]

theorem take_of_length_le {n : Nat} (h : x.length ≤ n) : x.take n = x := by
  have htext : x.text.take n = x.text := List.take_of_length_le h
  simp only [take_eq, htext, Nat.sub_eq_zero_of_le h, Place.dropBack_zero]

theorem place_take_of_offset {x : Excerpt δ} {o : Nat} (h : x.place = .offset o) (n : Nat) :
    (x.take n).place = .offset o := by
  simp only [take, h, Place.dropBack]

theorem place_drop_of_offset {x : Excerpt δ} {o : Nat} (h : x.place = .offset o) (n : Nat) :
    (x.drop n).place = .offset (o + min n x.length) := by
  simp only [drop, h, Place.dropFront]

theorem span_start_take (n : Nat) : (x.take n).span.start = x.span.start := by
  simp only [span, take]
  cases x.place <;> rfl

theorem span_stop_take_le (n : Nat) : (x.take n).span.stop ≤ x.span.stop := by
  have hlength := x.length_take n
  simp only [span, hlength]
  cases h : x.place with
  | offset s =>
    simp only [take, h, Place.dropBack, Place.span]
    omega
  | range s e =>
    simp only [take, h, Place.dropBack, Place.span]
    omega

theorem span_start_drop (n : Nat) : (x.drop n).span.start = x.span.start + min n x.length := by
  simp only [span, drop]
  cases x.place <;> rfl

theorem span_stop_drop (n : Nat) : (x.drop n).span.stop = x.span.stop := by
  have hlength := x.length_drop n
  simp only [span, hlength]
  cases h : x.place with
  | offset s =>
    simp only [drop, h, Place.dropFront, Place.span]
    omega
  | range s e => simp only [drop, h, Place.dropFront, Place.span]

theorem drop_min_length (n : Nat) : x.drop (min n x.length) = x.drop n := by
  have htext : x.text.drop (min n x.length) = x.text.drop n := List.drop_eq_drop_min.symm
  have hmin : min (min n x.length) x.length = min n x.length :=
    Nat.min_eq_left (Nat.min_le_right n _)
  simp only [drop_eq, htext, hmin]

theorem origin_take {n k : Nat} (hn : k < n) (hk : k < x.length) :
    (x.take n).origin k = x.origin k := by
  have hmin : x.length - n = x.length - min n x.length := by omega
  have hplace := x.place.ofChar_dropBack (Nat.min_le_right n x.length) (Nat.lt_min.mpr ⟨hn, hk⟩)
  rw [← hmin, ← length_take] at hplace
  exact congrArg (Origin.mk x.source x.data) hplace

theorem origin_drop {n : Nat} (hn : n ≤ x.length) (k : Nat) :
    (x.drop n).origin k = x.origin (n + k) := by
  have hplace := x.place.ofChar_dropFront (m := n) (n := x.length) k
  rw [← length_drop] at hplace
  simp only [origin, drop, Nat.min_eq_left hn] at hplace ⊢
  exact congrArg (Origin.mk x.source x.data) hplace

end Excerpt

namespace Piece

theorem take_take (m n : Nat) (p : Piece δ) : (p.take m).take n = p.take (min n m) := by
  cases p with
  | bare t => simp only [take_bare, List.take_take]
  | located x => exact congrArg located (x.take_take m n)

theorem drop_drop (m n : Nat) (p : Piece δ) : (p.drop m).drop n = p.drop (m + n) := by
  cases p with
  | bare t => simp only [drop_bare, List.drop_drop]
  | located x => exact congrArg located (x.drop_drop m n)

theorem drop_take {m n : Nat} (h : m ≤ n) (p : Piece δ) :
    (p.take n).drop m = (p.drop m).take (n - m) := by
  cases p with
  | bare t => simp only [take_bare, drop_bare, List.drop_take]
  | located x => exact congrArg located (x.drop_take h)

@[simp] theorem drop_zero (p : Piece δ) : p.drop 0 = p := by
  cases p with
  | bare t => rw [drop_bare, List.drop_zero]
  | located x => exact congrArg located x.drop_zero

theorem take_of_length_le {n : Nat} {p : Piece δ} (h : p.length ≤ n) : p.take n = p := by
  cases p with
  | bare t => rw [take_bare, List.take_of_length_le (show t.length ≤ n from h)]
  | located x => exact congrArg located (x.take_of_length_le h)

theorem drop_min_length (n : Nat) (p : Piece δ) : p.drop (min n p.length) = p.drop n := by
  cases p with
  | bare t =>
    rw [drop_bare, drop_bare]
    exact congrArg bare List.drop_eq_drop_min.symm
  | located x => exact congrArg located (x.drop_min_length n)

theorem length_traced (p : Piece δ) : p.traced.length = p.length := by
  rw [length, ← map_char_traced, List.length_map]

theorem traced_take (n : Nat) (p : Piece δ) : (p.take n).traced = p.traced.take n := by
  cases p with
  | bare t =>
    rw [take_bare]
    exact List.map_take
  | located x =>
    apply List.ext_getElem?
    intro k
    simp only [traced, take, Excerpt.text_take, List.getElem?_mapIdx, List.getElem?_take]
    by_cases hn : k < n
    · rw [if_pos hn, if_pos hn]
      cases hx : x.text[k]? with
      | none => rfl
      | some c =>
        have hk : k < x.length := (List.getElem?_eq_some_iff.mp hx).1
        rw [Option.map_some, Option.map_some, x.origin_take hn hk]
    · rw [if_neg hn, if_neg hn, Option.map_none]

theorem traced_drop (n : Nat) (p : Piece δ) : (p.drop n).traced = p.traced.drop n := by
  cases p with
  | bare t =>
    rw [drop_bare]
    exact List.map_drop
  | located x =>
    apply List.ext_getElem?
    intro k
    simp only [traced, drop, Excerpt.text_drop, List.getElem?_mapIdx, List.getElem?_drop]
    cases hx : x.text[n + k]? with
    | none => rfl
    | some c =>
      have hk : n + k < x.length := (List.getElem?_eq_some_iff.mp hx).1
      rw [Option.map_some, Option.map_some, x.origin_drop (by omega) k]

section Signed

/-- A cut that counts from the front. -/
theorem dropFrom_natCast (n : Nat) (p : Piece δ) : p.dropFrom n = p.drop n := by
  have hcut : cutPosition n p.length = min n p.length := by
    rw [cutPosition, if_neg (by omega), Int.natAbs_natCast]
  rw [dropFrom, hcut, drop_min_length]

theorem dropFrom_zero (p : Piece δ) : p.dropFrom 0 = p := (p.dropFrom_natCast 0).trans p.drop_zero

/-- A cut that keeps `n` characters at the end, of at least one. -/
theorem dropFrom_neg {n : Nat} (hn : 0 < n) (p : Piece δ) :
    p.dropFrom (-(n : Int)) = p.drop (p.length - n) := by
  have hneg : -(n : Int) < 0 := by omega
  rw [dropFrom, cutPosition, if_pos hneg, Int.natAbs_neg, Int.natAbs_natCast]

/-- To keep `n` characters at the end is to drop all others, as long as `n` is not zero. -/
theorem dropFrom_neg_eq_iff (n : Nat) (p : Piece δ) :
    p.dropFrom (-(n : Int)) = p.dropFrom (p.length - min n p.length : Nat) ↔
      0 < n ∨ p.length = 0 := by
  rw [dropFrom_natCast]
  rcases Nat.eq_zero_or_pos n with rfl | hn
  · have hall : p.dropFrom (-((0 : Nat) : Int)) = p := p.dropFrom_zero
    rw [hall, Nat.zero_min, Nat.sub_zero]
    constructor
    · intro h
      have hlength := congrArg length h
      rw [length_drop, Nat.sub_self] at hlength
      exact Or.inr hlength
    · rintro (h | h)
      · exact absurd h (Nat.lt_irrefl 0)
      · rw [h, drop_zero]
  · have hmin : p.length - min n p.length = p.length - n := by omega
    rw [dropFrom_neg hn, hmin]
    exact ⟨fun _ => Or.inl hn, fun _ => rfl⟩

end Signed

/-- Two cuts at one end are one, and cuts at both ends commute. A cut that takes nothing off leaves
the piece as it is, and what is kept at the front and what is left after it make up the text. -/
theorem cuts_compose (p : Piece δ) (m n : Nat) :
    (p.take m).take n = p.take (min m n) ∧
    (p.dropFrom m).dropFrom n = p.dropFrom (m + n : Nat) ∧
    (m ≤ n → (p.take n).dropFrom m = (p.dropFrom m).take (n - m)) ∧
    (p.dropFrom (-(n : Int)) = p.dropFrom (p.length - min n p.length : Nat) ↔
      0 < n ∨ p.length = 0) ∧
    p.take p.length = p ∧ p.dropFrom 0 = p ∧
    (p.take n).text ++ (p.dropFrom n).text = p.text := by
  refine ⟨?_, ?_, fun h => ?_, p.dropFrom_neg_eq_iff n, p.take_of_length_le (Nat.le_refl _),
    p.dropFrom_zero, ?_⟩
  · rw [take_take, Nat.min_comm]
  · rw [dropFrom_natCast, dropFrom_natCast, dropFrom_natCast, drop_drop]
  · rw [dropFrom_natCast, dropFrom_natCast, drop_take h]
  · rw [dropFrom_natCast, text_take, text_drop, List.take_append_drop]

/-- The end of the range is before its start and stops at zero. Three characters from the end are as
many as one less than all. -/
theorem cuts_compose_short_range :
    let p : Piece Nat := .located ⟨['a', 'b', 'c', 'd'], some "s", .range 3 1, some 5⟩
    1 ≤ 2 ∧ (p.take 2).dropFrom 1 = (p.dropFrom 1).take 1 ∧
      (p.take 2).dropFrom 1 = .located ⟨['b'], some "s", .range 4 0, some 5⟩ ∧
      p.dropFrom (-3) = p.dropFrom 1 := by
  intro p
  have hord : 1 ≤ 2 := Nat.le_succ 1
  obtain ⟨-, -, hends, -⟩ := p.cuts_compose 1 2
  obtain ⟨-, -, -, hneg, -⟩ := p.cuts_compose 1 3
  exact ⟨hord, hends hord, rfl, hneg.mpr (Or.inl (Nat.succ_pos 2))⟩

/-- Minus zero does not count from the end. The cut keeps all characters and not none. -/
theorem dropFrom_neg_zero_keeps_all :
    let p : Piece Nat := .located ⟨['a', 'b'], none, .range 5 9, none⟩
    p.dropFrom (-(0 : Nat)) = p ∧
      p.dropFrom (p.length - min 0 p.length : Nat) = .located ⟨[], none, .range 7 9, none⟩ ∧
      p.dropFrom (-(0 : Nat)) ≠ p.dropFrom (p.length - min 0 p.length : Nat) := by
  decide

end Piece

theorem length_traced (ps : List (Piece δ)) : (traced ps).length = totalLength ps := by
  rw [← length_flatten, ← map_char_traced, List.length_map]

end TracedText
