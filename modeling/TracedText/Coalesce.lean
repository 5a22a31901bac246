import TracedText.Piece

/-!
# Joining bare text

`coalesce` drops empty bare pieces and joins bare pieces that then stand side by side. It goes over
the positions of the list from the last to the first and joins each with the one after it when both
are bare. Located pieces stay as they are, empty ones too. A list in which nothing is left to do
is `Coalesced`. `coalesce_eq_foldr` says the same without positions: each piece is put in front of
what the pieces after it have become.
-/
namespace TracedText

variable {δ : Type}

def Piece.isEmptyBare : Piece δ → Bool
  | bare t => t.isEmpty
  | located _ => false

def joinAt (ps : List (Piece δ)) (i : Nat) : List (Piece δ) :=
  match ps[i]?, ps[i + 1]? with
  | some (.bare t), some (.bare u) => (ps.set i (.bare (t ++ u))).eraseIdx (i + 1)
  | _, _ => ps

/-- Joins at the positions below `n`, the last first. -/
def joinBelow : Nat → List (Piece δ) → List (Piece δ)
  | 0, ps => ps
  | n + 1, ps => joinBelow n (joinAt ps n)

def coalesce (ps : List (Piece δ)) : List (Piece δ) :=
  let kept := ps.filter (!·.isEmptyBare)
  joinBelow (kept.length - 1) kept

/-- Puts a piece in front of a list, joined to the first piece when both are bare. -/
def joinCons : Piece δ → List (Piece δ) → List (Piece δ)
  | .bare t, .bare u :: ps => .bare (t ++ u) :: ps
  | p, ps => p :: ps

/-- No bare piece is empty and no two of them stand side by side. -/
def Coalesced : List (Piece δ) → Prop
  | [] => True
  | .located _ :: ps => Coalesced ps
  | .bare t :: ps => t ≠ [] ∧ (∀ u, ps.head? ≠ some (.bare u)) ∧ Coalesced ps

/-- The pairs of bare pieces that stand side by side. -/
def barePairs : List (Piece δ) → Nat
  | .bare _ :: .bare u :: ps => barePairs (.bare u :: ps) + 1
  | _ :: ps => barePairs ps
  | [] => 0

def emptyBares (ps : List (Piece δ)) : Nat := ps.countP Piece.isEmptyBare

theorem joinAt_append_cons (xs : List (Piece δ)) (p : Piece δ) (ps : List (Piece δ)) :
    joinAt (xs ++ p :: ps) xs.length = xs ++ joinCons p ps := by
  have h₀ : (xs ++ p :: ps)[xs.length]? = some p := by
    rw [List.getElem?_append_right (Nat.le_refl _), Nat.sub_self]
    rfl
  have h₁ : (xs ++ p :: ps)[xs.length + 1]? = ps.head? := by
    rw [List.getElem?_append_right (by omega), Nat.add_sub_cancel_left]
    cases ps <;> rfl
  rw [joinAt, h₀, h₁]
  cases p with
  | located x => rfl
  | bare t =>
    cases ps with
    | nil => rfl
    | cons q ps =>
      cases q with
      | located x => rfl
      | bare u => simp [joinCons, List.eraseIdx_append_of_length_le]

theorem joinBelow_append (xs ps : List (Piece δ)) :
    joinBelow xs.length (xs ++ ps) = xs.foldr joinCons ps := by
  obtain ⟨zs, rfl⟩ : ∃ zs, xs = zs.reverse := ⟨xs.reverse, xs.reverse_reverse.symm⟩
  induction zs generalizing ps with
  | nil => rfl
  | cons p zs ih =>
    rw [List.reverse_cons, List.length_append, List.length_singleton, joinBelow, List.append_assoc,
      List.singleton_append, joinAt_append_cons, ih, List.foldr_append]
    rfl

theorem coalesce_eq_foldr (ps : List (Piece δ)) :
    coalesce ps = (ps.filter (!·.isEmptyBare)).foldr joinCons [] := by
  have key (qs : List (Piece δ)) : joinBelow (qs.length - 1) qs = qs.foldr joinCons [] := by
    rcases List.eq_nil_or_concat qs with rfl | ⟨xs, p, rfl⟩
    · rfl
    · rw [List.concat_eq_append, List.length_append, List.length_singleton, Nat.add_sub_cancel,
        joinBelow_append, List.foldr_append]
      cases p <;> rfl
  exact key _

end TracedText
