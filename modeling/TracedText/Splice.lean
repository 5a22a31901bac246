import TracedText.Coalesce

/-!
# Splices

A splice puts new pieces in place of those at the positions from `first` up to, but not including,
`past`. Before it is carried out it is widened: a bare piece right before or right after these
positions is taken in with the new ones, so that coalescing can join it to them.
-/
namespace TracedText

variable {δ : Type}

structure Splice (δ : Type) where
  first : Nat
  past : Nat
  pieces : List (Piece δ)
deriving DecidableEq

namespace Splice

def widenLeft (s : Splice δ) (ps : List (Piece δ)) : Splice δ :=
  match s.first with
  | 0 => s
  | i + 1 =>
    match ps[i]? with
    | some (.bare t) => ⟨i, s.past, .bare t :: s.pieces⟩
    | _ => s

def widenRight (s : Splice δ) (ps : List (Piece δ)) : Splice δ :=
  match ps[s.past]? with
  | some (.bare t) => ⟨s.first, s.past + 1, s.pieces ++ [.bare t]⟩
  | _ => s

def widen (s : Splice δ) (ps : List (Piece δ)) : Splice δ := (s.widenLeft ps).widenRight ps

/-- The positions of the splice lie in order within a list of `n` pieces. -/
def Fits (s : Splice δ) (n : Nat) : Prop := s.first ≤ s.past ∧ s.past ≤ n

/-- The list with the new pieces in it, joined among themselves. -/
def applyTo (s : Splice δ) (ps : List (Piece δ)) : List (Piece δ) :=
  ps.take s.first ++ coalesce s.pieces ++ ps.drop s.past

end Splice

end TracedText
