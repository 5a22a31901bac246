import Mathlib.Data.List.Induction
import TracedText.Proofs.Atoms

/-!
# Coalescing computes a normal form

Before, between and after its excerpts a list of pieces has its `gaps`: the bare text that stands
there, in any number of pieces or in none. `weave` puts excerpts and gaps together again, with one
bare piece for each gap that holds text. This is what coalescing gives, and it is the only coalesced
list with these excerpts and these gaps, so it makes no difference which parts of a list were
coalesced before.

The loop takes pieces out of the list while it counts down through its positions. `coalesce?` is the
same loop, but fails where a position has no piece. It never does: whatever has been taken out so
far, there is still a piece after the position that the loop has come to.
-/
namespace TracedText

variable {δ : Type} {ps qs : List (Piece δ)}

section Loop

/-- As `joinAt`, but fails unless there is a piece at both positions. -/
def joinAt? (ps : List (Piece δ)) (i : Nat) : Option (List (Piece δ)) :=
  match ps[i]?, ps[i + 1]? with
  | some (.bare t), some (.bare u) => some ((ps.set i (.bare (t ++ u))).eraseIdx (i + 1))
  | some _, some _ => some ps
  | _, _ => none

def joinBelow? : Nat → List (Piece δ) → Option (List (Piece δ))
  | 0, ps => some ps
  | n + 1, ps => (joinAt? ps n).bind (joinBelow? n)

def coalesce? (ps : List (Piece δ)) : Option (List (Piece δ)) :=
  let kept := ps.filter (!·.isEmptyBare)
  joinBelow? (kept.length - 1) kept

theorem joinAt?_eq_some {i : Nat} (h : i + 1 < ps.length) : joinAt? ps i = some (joinAt ps i) := by
  rw [joinAt?, joinAt, List.getElem?_eq_getElem (Nat.lt_of_succ_lt h), List.getElem?_eq_getElem h]
  cases ps[i] with
  | located x => rfl
  | bare t => cases ps[i + 1] <;> rfl

theorem joinCons_ne_nil (p : Piece δ) (ps : List (Piece δ)) : joinCons p ps ≠ [] := by
  cases p with
  | located x => exact List.cons_ne_nil _ _
  | bare t =>
    cases ps with
    | nil => exact List.cons_ne_nil _ _
    | cons q ps => cases q <;> exact List.cons_ne_nil _ _

/-- What has been joined so far is never empty, so that each turn finds a piece to join to. -/
theorem joinBelow?_append (xs : List (Piece δ)) (hps : ps ≠ []) :
    joinBelow? xs.length (xs ++ ps) = some (joinBelow xs.length (xs ++ ps)) := by
  induction xs using List.reverseRecOn generalizing ps with
  | nil => rfl
  | append_singleton xs p ih =>
    have hpos := List.length_pos_iff.mpr hps
    have hnext : xs.length + 1 < (xs ++ p :: ps).length := by
      simp only [List.length_append, List.length_cons]
      omega
    rw [List.append_assoc, List.singleton_append, List.length_append, List.length_singleton,
      joinBelow?, joinBelow, joinAt?_eq_some hnext, Option.bind_some, joinAt_append_cons]
    exact ih (joinCons_ne_nil p ps)

theorem coalesce?_eq_some (ps : List (Piece δ)) : coalesce? ps = some (coalesce ps) := by
  have key (kept : List (Piece δ)) :
      joinBelow? (kept.length - 1) kept = some (joinBelow (kept.length - 1) kept) := by
    rcases List.eq_nil_or_concat kept with rfl | ⟨xs, p, rfl⟩
    · rfl
    · rw [List.concat_eq_append, List.length_append, List.length_singleton, Nat.add_sub_cancel]
      exact joinBelow?_append xs (List.cons_ne_nil p [])
  exact key _

end Loop

section Gaps

/-- The bare text before, between and after the located pieces. -/
def gaps (ps : List (Piece δ)) : List Text := (ps.splitOnP Piece.isLocated).map flatten

/-- The bare piece for a gap. For one without text there is none. -/
def fill (gap : Text) : List (Piece δ) := if gap.isEmpty then [] else [.bare gap]

/-- Excerpts with gaps before, between and after them. -/
def weave : List Text → List (Excerpt δ) → List (Piece δ)
  | g :: gs, x :: xs => fill g ++ .located x :: weave gs xs
  | [], xs => xs.map .located
  | gs, [] => gs.flatMap fill

theorem gaps_located (x : Excerpt δ) (ps : List (Piece δ)) :
    gaps (.located x :: ps) = [] :: gaps ps := by
  rw [gaps, List.splitOnP_cons_eq_if_modifyHead]
  rfl

theorem gaps_bare (t : Text) (ps : List (Piece δ)) :
    gaps (.bare t :: ps) = (gaps ps).modifyHead (t ++ ·) := by
  have hbare : ¬ (Piece.bare (δ := δ) t).isLocated = true := Bool.false_ne_true
  rw [gaps, gaps, List.splitOnP_cons_eq_if_modifyHead, if_neg hbare]
  cases ps.splitOnP Piece.isLocated <;> rfl

theorem gaps_bare_nil (ps : List (Piece δ)) : gaps (.bare [] :: ps) = gaps ps := by
  rw [gaps_bare]
  cases gaps ps <;> rfl

theorem length_gaps (ps : List (Piece δ)) : (gaps ps).length = (excerpts ps).length + 1 := by
  induction ps with
  | nil => rfl
  | cons p ps ih =>
    cases p with
    | bare t =>
      rw [gaps_bare, List.length_modifyHead, ih]
      rfl
    | located x =>
      rw [gaps_located, List.length_cons, ih]
      rfl

theorem gaps_joinCons (p : Piece δ) (ps : List (Piece δ)) :
    gaps (joinCons p ps) = gaps (p :: ps) := by
  cases p with
  | located x => rfl
  | bare t =>
    cases ps with
    | nil => rfl
    | cons q ps =>
      cases q with
      | located x => rfl
      | bare u =>
        change gaps (.bare (t ++ u) :: ps) = _
        rw [gaps_bare, gaps_bare, gaps_bare, List.modifyHead_modifyHead]
        simp only [Function.comp_def, List.append_assoc]

theorem gaps_coalesce (ps : List (Piece δ)) : gaps (coalesce ps) = gaps ps := by
  induction ps with
  | nil => rfl
  | cons p ps ih =>
    rw [coalesce_cons]
    cases p with
    | located x => exact (gaps_located x _).trans ((congrArg _ ih).trans (gaps_located x ps).symm)
    | bare t =>
      cases t with
      | nil => exact ih.trans (gaps_bare_nil ps).symm
      | cons c t =>
        change gaps (joinCons (.bare (c :: t)) (coalesce ps)) = _
        rw [gaps_joinCons, gaps_bare, gaps_bare, ih]

theorem excerpts_coalesce (ps : List (Piece δ)) : excerpts (coalesce ps) = excerpts ps := by
  rw [excerpts_eq_flatMap, seamless_excerpt?.coalesce, excerpts_eq_flatMap]

/-- Text in front of a gap and of what follows it. -/
theorem fill_append_append (t g : Text) (ps : List (Piece δ))
    (hps : ∀ u, ps.head? ≠ some (.bare u)) :
    fill (t ++ g) ++ ps =
      if t.isEmpty then fill g ++ ps else joinCons (.bare t) (fill g ++ ps) := by
  cases t with
  | nil => rfl
  | cons c t =>
    cases g with
    | cons d g => rfl
    | nil =>
      rw [List.append_nil]
      cases ps with
      | nil => rfl
      | cons p ps =>
        cases p with
        | located x => rfl
        | bare u => exact absurd rfl (hps u)

theorem weave_modifyHead (t : Text) {gs : List Text} {xs : List (Excerpt δ)}
    (h : gs.length = xs.length + 1) :
    weave (gs.modifyHead (t ++ ·)) xs =
      if t.isEmpty then weave gs xs else joinCons (.bare t) (weave gs xs) := by
  cases gs with
  | nil => cases h
  | cons g gs =>
    cases xs with
    | cons x xs => exact fill_append_append t g (.located x :: weave gs xs) nofun
    | nil =>
      -- Without excerpts there is only one gap, and nothing stands behind it.
      obtain rfl : gs = [] := List.eq_nil_of_length_eq_zero (Nat.succ.inj h)
      exact fill_append_append t g [] nofun

theorem coalesce_eq_weave (ps : List (Piece δ)) : coalesce ps = weave (gaps ps) (excerpts ps) := by
  induction ps with
  | nil => rfl
  | cons p ps ih =>
    cases p with
    | bare t =>
      rw [coalesce_cons, gaps_bare, ih]
      exact (weave_modifyHead t (length_gaps ps)).symm
    | located x =>
      rw [coalesce_cons, gaps_located, ih]
      rfl

theorem Coalesced.eq_of_gaps (hp : Coalesced ps) (hq : Coalesced qs) (hgaps : gaps ps = gaps qs)
    (hexcerpts : excerpts ps = excerpts qs) : ps = qs := by
  rw [← hp.coalesce_eq, ← hq.coalesce_eq, coalesce_eq_weave, coalesce_eq_weave, hgaps, hexcerpts]

/-- Whatever is coalesced beforehand, the atoms stay the same. -/
theorem coalesce_parts (us vs ws zs : List (Piece δ)) :
    coalesce (us ++ coalesce vs ++ coalesce ws ++ zs) = coalesce (us ++ vs ++ ws ++ zs) := by
  have hatoms (ps : List (Piece δ)) : atoms (coalesce ps) = atoms ps := seamless_atoms.coalesce ps
  rw [← coalesce_atoms, ← coalesce_atoms (us ++ vs ++ ws ++ zs)]
  simp only [atoms_append, hatoms]

end Gaps

/-- The loop of coalescing never leaves the list. What comes out of it are the excerpts, with
one bare piece for each gap that holds text. It is the only coalesced list with the excerpts and
the gaps of the old one. There is nothing left to do in it, and nothing changes when two parts
of the list that follow each other are coalesced beforehand, each on its own. -/
theorem coalesce_gives_normal_form (ps : List (Piece δ)) :
    coalesce? ps = some (coalesce ps) ∧
    coalesce ps = weave (gaps ps) (excerpts ps) ∧
    (∀ qs, qs = coalesce ps ↔ Coalesced qs ∧ excerpts qs = excerpts ps ∧ gaps qs = gaps ps) ∧
    coalesce (coalesce ps) = coalesce ps ∧
    ∀ us vs ws zs : List (Piece δ),
      coalesce (us ++ coalesce vs ++ coalesce ws ++ zs) = coalesce (us ++ vs ++ ws ++ zs) := by
  have hcoalesced := coalesced_coalesce ps
  refine ⟨coalesce?_eq_some ps, coalesce_eq_weave ps, fun qs => ⟨?_, ?_⟩, hcoalesced.coalesce_eq,
    coalesce_parts⟩
  · rintro rfl
    exact ⟨hcoalesced, excerpts_coalesce ps, gaps_coalesce ps⟩
  · rintro ⟨hqs, hexcerpts, hgaps⟩
    exact hqs.eq_of_gaps hcoalesced (hgaps.trans (gaps_coalesce ps).symm)
      (hexcerpts.trans (excerpts_coalesce ps).symm)

/-- The empty piece goes first, so that its two neighbours are joined. -/
example (x y : Excerpt δ) :
    coalesce [.bare ['a'], .bare [], .bare ['b'], .located x, .located y, .bare ['c']] =
      [.bare ['a', 'b'], .located x, .located y, .bare ['c']] := rfl

end TracedText
