import Mathlib.Data.Bool.Basic
import Mathlib.Logic.Relation
import TracedText.Sweep
import TracedText.Proofs.SourceEditTrace

/-!
# Bare text stays as joined as it was

Coalescing leaves no empty bare piece and no two bare pieces side by side. A splice coalesces only
its own pieces and what widening takes in, so a list that was not coalesced need not be so after
it. But neither count goes up. At either end of the widened splice a new pair can stand only where
the piece taken in had a bare neighbour further out, and with that neighbour it was a pair before.
All operations but pushing come down to splices that fit, whatever their positions are.
-/
namespace TracedText

variable {δ : Type} {ps qs rs : List (Piece δ)} {p : Piece δ}

section Coalescing

theorem Coalesced.joinCons (hp : p.isEmptyBare = false) (h : Coalesced ps) :
    Coalesced (joinCons p ps) := by
  cases p with
  | located x => exact h
  | bare t =>
    have ht : t ≠ [] := by
      rintro rfl
      cases hp
    cases ps with
    | nil => exact ⟨ht, nofun, h⟩
    | cons q ps =>
      cases q with
      | located x => exact ⟨ht, nofun, h⟩
      | bare u =>
        obtain ⟨-, hnext, hrest⟩ := h
        exact ⟨List.append_ne_nil_of_left_ne_nil ht u, hnext, hrest⟩

theorem coalesce_cons (p : Piece δ) (ps : List (Piece δ)) :
    coalesce (p :: ps) = if p.isEmptyBare then coalesce ps else joinCons p (coalesce ps) := by
  rw [coalesce_eq_foldr, coalesce_eq_foldr]
  cases hp : p.isEmptyBare with
  | true => rw [List.filter_cons_of_neg (by simp [hp]), if_pos rfl]
  | false => rw [List.filter_cons_of_pos (by simp [hp]), if_neg Bool.false_ne_true, List.foldr_cons]

theorem coalesced_coalesce (ps : List (Piece δ)) : Coalesced (coalesce ps) := by
  induction ps with
  | nil => trivial
  | cons p ps ih =>
    rw [coalesce_cons]
    cases hp : p.isEmptyBare with
    | true => exact ih
    | false => exact ih.joinCons hp

/-- On a list that is coalesced there is nothing left to do. -/
theorem Coalesced.coalesce_eq (h : Coalesced ps) : coalesce ps = ps := by
  induction ps with
  | nil => rfl
  | cons p ps ih =>
    cases p with
    | located x =>
      rw [coalesce_cons, ih h]
      rfl
    | bare t =>
      obtain ⟨ht, hnext, hrest⟩ := h
      rw [coalesce_cons, if_neg (by simpa only [Piece.isEmptyBare, List.isEmpty_iff] using ht),
        ih hrest]
      cases ps with
      | nil => rfl
      | cons q ps =>
        cases q with
        | located x => rfl
        | bare u => exact absurd rfl (hnext u)

theorem joinCons_append_located (p : Piece δ) (ps qs : List (Piece δ)) (x : Excerpt δ) :
    joinCons p (ps ++ .located x :: qs) = joinCons p ps ++ .located x :: qs := by
  cases p with
  | located y => rfl
  | bare t =>
    cases ps with
    | nil => rfl
    | cons q ps => cases q <;> rfl

/-- Nothing is joined across a located piece. -/
theorem coalesce_append_located (ps qs : List (Piece δ)) (x : Excerpt δ) :
    coalesce (ps ++ .located x :: qs) = coalesce ps ++ .located x :: coalesce qs := by
  induction ps with
  | nil => exact coalesce_cons _ _
  | cons p ps ih =>
    rw [List.cons_append, coalesce_cons, coalesce_cons p ps, ih, joinCons_append_located]
    split <;> rfl

/-- The list starts with a bare piece. -/
def startsBare (ps : List (Piece δ)) : Bool := ps.head?.any (!·.isLocated)

/-- The list ends with a bare piece. -/
def endsBare (ps : List (Piece δ)) : Bool := ps.getLast?.any (!·.isLocated)

theorem barePairs_cons (p : Piece δ) (ps : List (Piece δ)) :
    barePairs (p :: ps) = (!p.isLocated && startsBare ps).toNat + barePairs ps := by
  cases p with
  | located x => exact (Nat.zero_add _).symm
  | bare t =>
    cases ps with
    | nil => rfl
    | cons q ps =>
      cases q with
      | located x => exact (Nat.zero_add _).symm
      | bare u => exact Nat.add_comm _ _

/-- Between two lists one more pair may stand. -/
theorem barePairs_append (ps qs : List (Piece δ)) :
    barePairs (ps ++ qs) = barePairs ps + (endsBare ps && startsBare qs).toNat + barePairs qs := by
  induction ps with
  | nil => simp only [List.nil_append, barePairs, endsBare, List.getLast?_nil, Option.any_none,
      Bool.false_and, Bool.toNat_false, Nat.zero_add]
  | cons p ps ih =>
    rw [List.cons_append, barePairs_cons, barePairs_cons p ps]
    cases ps with
    | nil =>
      have hstart : startsBare ([] : List (Piece δ)) = false := rfl
      have hend : endsBare [p] = !p.isLocated := rfl
      simp only [List.nil_append, hstart, hend, Bool.and_false, Bool.toNat_false, barePairs,
        Nat.zero_add]
    | cons q ps =>
      have hstart : startsBare (q :: ps ++ qs) = startsBare (q :: ps) := rfl
      have hend : endsBare (p :: q :: ps) = endsBare (q :: ps) := by
        simp only [endsBare, List.getLast?_cons_cons]
      rw [ih, hstart, hend]
      omega

theorem emptyBares_append (ps qs : List (Piece δ)) :
    emptyBares (ps ++ qs) = emptyBares ps + emptyBares qs := List.countP_append

theorem emptyBares_cons (p : Piece δ) (ps : List (Piece δ)) :
    emptyBares (p :: ps) = p.isEmptyBare.toNat + emptyBares ps := by
  unfold emptyBares
  rw [List.countP_cons, Nat.add_comm]
  cases p.isEmptyBare <;> rfl

theorem coalesced_iff : Coalesced ps ↔ barePairs ps = 0 ∧ emptyBares ps = 0 := by
  induction ps with
  | nil => exact ⟨fun _ => ⟨rfl, rfl⟩, fun _ => trivial⟩
  | cons p ps ih =>
    cases p with
    | located x => exact ih
    | bare t =>
      have hstart : (∀ u, ps.head? ≠ some (.bare u)) ↔ startsBare ps = false := by
        cases ps with
        | nil => exact ⟨fun _ => rfl, fun _ => nofun⟩
        | cons q ps =>
          cases q with
          | located x => exact ⟨fun _ => rfl, fun _ => nofun⟩
          | bare u => exact ⟨fun h => absurd rfl (h u), nofun⟩
      have hbare : (Piece.bare (δ := δ) t).isLocated = false := rfl
      rw [Coalesced, hstart, ih, barePairs_cons, emptyBares_cons, hbare]
      cases t with
      | nil => simp [Piece.isEmptyBare]
      | cons c t => simp [Piece.isEmptyBare, and_assoc]

instance : Decidable (Coalesced ps) := decidable_of_iff _ coalesced_iff.symm

theorem eq_take_append_append_drop (ps : List (Piece δ)) {i j : Nat} (h : i ≤ j) :
    ps = ps.take i ++ (ps.drop i).take (j - i) ++ ps.drop j := by
  rw [List.append_assoc, ← drop_eq_take_append_drop ps h, List.take_append_drop]

end Coalescing

/-- There are no more pairs of bare pieces side by side than before, and no more empty bare
pieces. -/
structure NoWorse (ps qs : List (Piece δ)) : Prop where
  barePairs_le : barePairs qs ≤ barePairs ps
  emptyBares_le : emptyBares qs ≤ emptyBares ps

namespace NoWorse

theorem refl (ps : List (Piece δ)) : NoWorse ps ps := ⟨Nat.le_refl _, Nat.le_refl _⟩

theorem trans (h : NoWorse ps qs) (h' : NoWorse qs rs) : NoWorse ps rs :=
  ⟨Nat.le_trans h'.barePairs_le h.barePairs_le, Nat.le_trans h'.emptyBares_le h.emptyBares_le⟩

theorem coalesced (h : NoWorse ps qs) (hps : Coalesced ps) : Coalesced qs := by
  obtain ⟨hpairs, hempty⟩ := coalesced_iff.mp hps
  have hpairs' := h.barePairs_le
  have hempty' := h.emptyBares_le
  exact coalesced_iff.mpr ⟨by omega, by omega⟩

end NoWorse

namespace Splice

variable (s : Splice δ)

theorem first_widenRight : (s.widenRight ps).first = s.first := by
  unfold widenRight
  split <;> rfl

theorem past_widenLeft : (s.widenLeft ps).past = s.past := by
  unfold widenLeft
  split
  · rfl
  · split <;> rfl

/-- Widening to the left takes in the piece that a pair was formed with. -/
theorem barePairs_take_first (h : s.first ≤ ps.length) :
    barePairs (ps.take s.first) =
      barePairs (ps.take (s.widenLeft ps).first) +
        (endsBare (ps.take (s.widenLeft ps).first)).toNat := by
  obtain ⟨first, past, pieces⟩ := s
  cases first with
  | zero => rfl
  | succ i =>
    have hi : ps[i]? = some ps[i] := List.getElem?_eq_getElem h
    have htake : ps.take (i + 1) = ps.take i ++ [ps[i]] := by
      rw [List.take_add_one, hi]
      rfl
    cases hp : ps[i] with
    | bare t =>
      rw [hp] at hi htake
      simp only [widenLeft, hi, htake, barePairs_append]
      rw [show startsBare [Piece.bare (δ := δ) t] = true from rfl, Bool.and_true]
      rfl
    | located x =>
      rw [hp] at hi htake
      have hend : endsBare (ps.take i ++ [.located x]) = false := by
        simp only [endsBare, List.getLast?_append, List.getLast?_singleton, Option.some_or,
          Option.any_some, Piece.isLocated, Piece.excerpt?, Option.isSome_some, Bool.not_true]
      simp only [widenLeft, hi, htake, hend, Bool.toNat_false, Nat.add_zero]

theorem barePairs_drop_past :
    barePairs (ps.drop s.past) =
      barePairs (ps.drop (s.widenRight ps).past) +
        (startsBare (ps.drop (s.widenRight ps).past)).toNat := by
  have hdrop := List.drop_eq_getElem?_toList_append (l := ps) (i := s.past)
  cases hi : ps[s.past]? with
  | none =>
    rw [hi] at hdrop
    simp only [widenRight, hi]
    rw [List.drop_eq_nil_of_le (List.getElem?_eq_none_iff.mp hi)]
    rfl
  | some p =>
    rw [hi] at hdrop
    cases p with
    | located x =>
      simp only [widenRight, hi, hdrop]
      rfl
    | bare t =>
      simp only [widenRight, hi]
      rw [hdrop]
      exact (barePairs_cons _ _).trans (Nat.add_comm _ _)

theorem first_widen_le : (s.widen ps).first ≤ s.first := by
  rw [widen, first_widenRight]
  unfold widenLeft
  split
  · exact Nat.le_refl _
  next i hi =>
    rw [hi]
    split
    · exact Nat.le_succ i
    · exact Nat.le_of_eq hi

theorem le_past_widen : s.past ≤ (s.widen ps).past := by
  have hpast : (s.widenLeft ps).past = s.past := s.past_widenLeft
  rw [widen, ← hpast]
  unfold widenRight
  split
  · exact Nat.le_succ _
  · exact Nat.le_refl _

theorem barePairs_applyTo_le (hfits : s.Fits ps.length) :
    barePairs ((s.widen ps).applyTo ps) ≤ barePairs ps := by
  have hfirst : (s.widen ps).first = (s.widenLeft ps).first := first_widenRight _
  have hfront := s.barePairs_take_first (Nat.le_trans hfits.1 hfits.2)
  have hback : barePairs (ps.drop (s.widenLeft ps).past) = barePairs (ps.drop (s.widen ps).past) +
      (startsBare (ps.drop (s.widen ps).past)).toNat := barePairs_drop_past _
  have hold := congrArg barePairs (eq_take_append_append_drop ps hfits.1)
  have hjoined := (coalesced_iff.mp (coalesced_coalesce (s.widen ps).pieces)).1
  rw [past_widenLeft] at hback
  rw [barePairs_append, barePairs_append, hfront, hback, ← hfirst] at hold
  -- The pair at either end of the joined pieces needs a bare piece outside of them.
  have hleft := Bool.toNat_le_toNat (Bool.and_le_left (endsBare (ps.take (s.widen ps).first))
    (startsBare (coalesce (s.widen ps).pieces)))
  have hright := Bool.toNat_le_toNat (Bool.and_le_right
    (endsBare (ps.take (s.widen ps).first ++ coalesce (s.widen ps).pieces))
    (startsBare (ps.drop (s.widen ps).past)))
  rw [applyTo, barePairs_append, barePairs_append, hjoined]
  omega

theorem emptyBares_applyTo_le (hfits : s.Fits ps.length) :
    emptyBares ((s.widen ps).applyTo ps) ≤ emptyBares ps := by
  have hord : (s.widen ps).first ≤ (s.widen ps).past :=
    Nat.le_trans s.first_widen_le (Nat.le_trans hfits.1 s.le_past_widen)
  have hold := congrArg emptyBares (eq_take_append_append_drop ps hord)
  have hjoined := (coalesced_iff.mp (coalesced_coalesce (s.widen ps).pieces)).2
  rw [emptyBares_append, emptyBares_append] at hold
  rw [applyTo, emptyBares_append, emptyBares_append, hjoined]
  omega

theorem noWorse_applyTo (hfits : s.Fits ps.length) : NoWorse ps ((s.widen ps).applyTo ps) :=
  ⟨s.barePairs_applyTo_le hfits, s.emptyBares_applyTo_le hfits⟩

end Splice

/-- Whatever the positions of an edit are, its splice fits. -/
theorem Edit.fits_splice (e : Edit δ) (ps : List (Piece δ)) : (e.splice ps).Fits ps.length := by
  by_cases h : ps = []
  · subst h
    exact ⟨Nat.le_refl 0, Nat.le_refl 0⟩
  · have hfirst : e.firstIndex ps < ps.length := indexAt_lt_length e.start h
    have hlast : e.lastIndex ps < ps.length := indexBefore_lt_length e.stop h
    rw [splice, if_neg (by simpa only [List.isEmpty_iff] using h)]
    exact ⟨Nat.le_max_left _ _, Nat.max_le.mpr ⟨Nat.le_of_lt hfirst, hlast⟩⟩

theorem Edit.noWorse_applyTo (e : Edit δ) (ps : List (Piece δ)) : NoWorse ps (e.applyTo ps) :=
  (e.splice ps).noWorse_applyTo (e.fits_splice ps)

namespace Buffer

variable (b : Buffer δ)

theorem noWorse_tryApply (e : Edit δ) :
    NoWorse b.pieces ((b.tryApply e).toOption.getD b).pieces := by
  cases h : b.tryApply e with
  | error err => exact .refl b.pieces
  | ok b' =>
    obtain ⟨-, -, rfl⟩ := (b.tryApply_eq_ok_iff b' e).mp h
    exact e.noWorse_applyTo b.pieces

theorem noWorse_applyAll (es : List (Edit δ)) : NoWorse b.pieces (b.applyAll es).pieces := by
  induction es generalizing b with
  | nil => exact .refl b.pieces
  | cons e es ih => exact (e.noWorse_applyTo b.pieces).trans (ih (b.apply e))

theorem noWorse_replaceSource (e : SourceEdit δ) :
    NoWorse b.pieces (b.replaceSource e).2.pieces := by
  cases h : (b.replaceSource e).1 with
  | false =>
    rw [b.replaceSource_of_eq_false e h]
    exact .refl b.pieces
  | true =>
    obtain ⟨-, i, x, htarget, hout⟩ := b.replaceSource_of_eq_true e h
    have hi := (SourceEdit.getElem?_of_target? htarget).1
    rw [hout]
    exact Splice.noWorse_applyTo _ ⟨Nat.le_succ i, (List.getElem?_eq_some_iff.mp hi).1⟩

end Buffer

/-- An operation that goes through splices: an edit by position, checked or not, or by source
position, or a replacement of what a search finds. -/
inductive Revision (b : Buffer δ) : Buffer δ → Prop
  | edit (e : Edit δ) : Revision b (b.apply e)
  | tryEdit (e : Edit δ) : Revision b ((b.tryApply e).toOption.getD b)
  | sourceEdit (e : SourceEdit δ) : Revision b (b.replaceSource e).2
  | replaceFirst {σ : Type} (s : Searcher) (r : Replacer σ δ) (a : σ) :
      Revision b (b.replaceFirst s r a).1.2
  | replaceAll {σ : Type} (s : Searcher) (r : Replacer σ δ) (a : σ) :
      Revision b (b.replaceAll s r a).1.2

theorem Revision.noWorse {b b' : Buffer δ} (h : Revision b b') : NoWorse b.pieces b'.pieces := by
  cases h with
  | edit e => exact e.noWorse_applyTo b.pieces
  | tryEdit e => exact b.noWorse_tryApply e
  | sourceEdit e => exact b.noWorse_replaceSource e
  | replaceFirst s r a => exact b.noWorse_applyAll _
  | replaceAll s r a => exact b.noWorse_applyAll _

theorem NoWorse.of_revisions {b b' : Buffer δ} (h : Relation.ReflTransGen Revision b b') :
    NoWorse b.pieces b'.pieces := by
  induction h with
  | refl => exact .refl b.pieces
  | tail _ hstep ih => exact ih.trans hstep.noWorse

/-- However many revisions a buffer goes through, it never has more bare pieces side by side or more
empty ones than at first, and once it has none of either it stays coalesced. -/
theorem revisions_keep_joined {b b' : Buffer δ} (h : Relation.ReflTransGen Revision b b') :
    barePairs b'.pieces ≤ barePairs b.pieces ∧ emptyBares b'.pieces ≤ emptyBares b.pieces ∧
      (Coalesced b.pieces → Coalesced b'.pieces) :=
  ⟨(NoWorse.of_revisions h).barePairs_le, (NoWorse.of_revisions h).emptyBares_le,
    (NoWorse.of_revisions h).coalesced⟩

/-- Three bare pieces in a row and an empty one. An edit whose start is after its stop and past the
end comes first. Then the only located piece is deleted, so that bare text meets from both sides,
and a sweep puts in empty pieces. -/
theorem revisions_keep_joined_three_steps :
    let b : Buffer Nat := ⟨[.bare ['a'], .bare ['b'], .bare [],
      .located ⟨['c'], none, .offset 4, none⟩, .bare ['a']]⟩
    let b₁ := b.apply ⟨9, 4, [.bare [], .bare ['-']]⟩
    let b₂ := (b₁.replaceSource ⟨none, 4, 5, []⟩).2
    let b₃ := (b₂.replaceAll (.char 'a') (.constant (.bare [])) ()).1.2
    Relation.ReflTransGen Revision b b₃ ∧ (barePairs b.pieces, emptyBares b.pieces) = (2, 1) ∧
      barePairs b₃.pieces ≤ 2 ∧ emptyBares b₃.pieces ≤ 1 := by
  intro b b₁ b₂ b₃
  have hrun : Relation.ReflTransGen Revision b b₃ :=
    ((Relation.ReflTransGen.single (.edit _)).tail (.sourceEdit _)).tail (.replaceAll _ _ ())
  obtain ⟨hpairs, hempty, -⟩ := revisions_keep_joined hrun
  exact ⟨hrun, by decide, hpairs, hempty⟩

end TracedText
