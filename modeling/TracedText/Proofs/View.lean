import Mathlib.Data.List.Basic
import TracedText.Origin
import TracedText.Splice

/-!
# Views that do not see how bare text is cut

A view reads a list of pieces one after the other and puts together what it sees. It is seamless
when it sees the same in bare text, cut or whole. The traced form and the excerpts of a list
are such views. Coalescing does not change what a seamless view sees, and neither does widening a
splice, so in a seamless view a splice is nothing but new pieces between two parts of the old list.
-/
namespace TracedText

variable {α δ : Type}

def Seamless (view : Piece δ → List α) : Prop :=
  ∀ t u, view (.bare (t ++ u)) = view (.bare t) ++ view (.bare u)

/-- The excerpts among the pieces. -/
def excerpts (ps : List (Piece δ)) : List (Excerpt δ) := ps.filterMap Piece.excerpt?

theorem seamless_traced : Seamless (Piece.traced (δ := δ)) := by
  intro t u
  simp only [Piece.traced, List.map_append]

theorem seamless_text : Seamless (Piece.text (δ := δ)) := fun _ _ => rfl

theorem seamless_excerpt? : Seamless fun p : Piece δ => p.excerpt?.toList := fun _ _ => rfl

theorem excerpts_eq_flatMap (ps : List (Piece δ)) :
    excerpts ps = ps.flatMap fun p => p.excerpt?.toList :=
  List.filterMap_eq_flatMap_toList _ _

theorem excerpts_append (ps qs : List (Piece δ)) :
    excerpts (ps ++ qs) = excerpts ps ++ excerpts qs :=
  List.filterMap_append

theorem mem_excerpts {x : Excerpt δ} {ps : List (Piece δ)} : x ∈ excerpts ps ↔ .located x ∈ ps := by
  simp only [excerpts, List.mem_filterMap]
  constructor
  · rintro ⟨p, hp, hx⟩
    cases p with
    | bare t => cases hx
    | located y =>
      cases hx
      exact hp
  · intro h
    exact ⟨_, h, rfl⟩

namespace Seamless

variable {view : Piece δ → List α} (hview : Seamless view)
include hview

theorem bare_nil : view (.bare []) = [] := by
  have h := congrArg List.length (hview [] [])
  rw [List.nil_append, List.length_append] at h
  exact List.length_eq_zero_iff.mp (by omega)

theorem isEmptyBare {p : Piece δ} (h : p.isEmptyBare = true) : view p = [] := by
  cases p with
  | bare t =>
    rw [List.isEmpty_iff.mp h]
    exact hview.bare_nil
  | located x => cases h

theorem filter_isEmptyBare (ps : List (Piece δ)) :
    (ps.filter (!·.isEmptyBare)).flatMap view = ps.flatMap view := by
  induction ps with
  | nil => rfl
  | cons p ps ih =>
    cases h : p.isEmptyBare with
    | false => simp only [List.filter_cons, h, Bool.not_false, if_true, List.flatMap_cons, ih]
    | true =>
      simp only [List.filter_cons, h, Bool.not_true, Bool.false_eq_true, if_false, ih,
        List.flatMap_cons, hview.isEmptyBare h, List.nil_append]

theorem joinCons (p : Piece δ) (ps : List (Piece δ)) :
    (joinCons p ps).flatMap view = view p ++ ps.flatMap view := by
  cases p with
  | located x => rfl
  | bare t =>
    cases ps with
    | nil => rfl
    | cons q ps =>
      cases q with
      | located x => rfl
      | bare u =>
        change view (.bare (t ++ u)) ++ _ = view (.bare t) ++ (view (.bare u) ++ _)
        rw [hview, List.append_assoc]

theorem coalesce (ps : List (Piece δ)) : (coalesce ps).flatMap view = ps.flatMap view := by
  rw [coalesce_eq_foldr, ← hview.filter_isEmptyBare ps]
  induction ps.filter (!·.isEmptyBare) with
  | nil => rfl
  | cons p ps ih => rw [List.foldr_cons, hview.joinCons, ih, List.flatMap_cons]

end Seamless

namespace Splice

/-- The list with the new pieces in it as they are. -/
def spread (s : Splice δ) (ps : List (Piece δ)) : List (Piece δ) :=
  ps.take s.first ++ s.pieces ++ ps.drop s.past

theorem spread_widenLeft (s : Splice δ) (ps : List (Piece δ)) :
    (s.widenLeft ps).spread ps = s.spread ps := by
  obtain ⟨first, past, pieces⟩ := s
  cases first with
  | zero => rfl
  | succ i =>
    cases h : ps[i]? with
    | none => simp only [widenLeft, h]
    | some p =>
      cases p with
      | located x => simp only [widenLeft, h]
      | bare t =>
        simp only [widenLeft, h, spread, List.take_add_one, Option.toList_some, List.append_assoc,
          List.singleton_append]

theorem spread_widenRight (s : Splice δ) (ps : List (Piece δ)) :
    (s.widenRight ps).spread ps = s.spread ps := by
  cases h : ps[s.past]? with
  | none => simp only [widenRight, h]
  | some p =>
    cases p with
    | located x => simp only [widenRight, h]
    | bare t =>
      have hdrop := List.drop_eq_getElem?_toList_append (l := ps) (i := s.past)
      rw [h, Option.toList_some] at hdrop
      simp only [widenRight, h, spread, hdrop, List.append_assoc]

theorem spread_widen (s : Splice δ) (ps : List (Piece δ)) :
    (s.widen ps).spread ps = s.spread ps := by
  rw [widen, spread_widenRight, spread_widenLeft]

/-- What a seamless view sees of a list after a splice. -/
theorem flatMap_applyTo {view : Piece δ → List α} (hview : Seamless view) (s : Splice δ)
    (ps : List (Piece δ)) :
    ((s.widen ps).applyTo ps).flatMap view =
      (ps.take s.first).flatMap view ++ s.pieces.flatMap view ++ (ps.drop s.past).flatMap view := by
  have hspread :
      ((s.widen ps).applyTo ps).flatMap view = ((s.widen ps).spread ps).flatMap view := by
    simp only [applyTo, spread, List.flatMap_append, hview.coalesce]
  rw [hspread, spread_widen, spread, List.flatMap_append, List.flatMap_append]

end Splice

end TracedText
