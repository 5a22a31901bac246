import TracedText.Piece

/-!
# The layout of a list of pieces

`offsets` gives the position at which each piece starts. Two searches in that table tell which
piece a position belongs to, and they differ on the border between two pieces: `indexAt` takes
the last piece that starts at or before the position, `indexBefore` the last one that starts
before it. Where there is no such piece both give 0. The stretches that the located pieces cover
are their `mappings`.
-/
namespace TracedText

variable {δ : Type}

def offsetsFrom (start : Nat) : List (Piece δ) → List Nat
  | [] => []
  | p :: ps => start :: offsetsFrom (start + p.length) ps

def offsets (ps : List (Piece δ)) : List Nat := offsetsFrom 0 ps

/-- The pieces with their offsets. -/
def placed (ps : List (Piece δ)) : List (Nat × Piece δ) := (offsets ps).zip ps

/-- The last entry of an ascending table that is at or before `pos`. -/
def indexAt (table : List Nat) (pos : Nat) : Nat := table.findIdx (pos < ·) - 1

/-- The last entry of an ascending table that is before `pos`. -/
def indexBefore (table : List Nat) (pos : Nat) : Nat := table.findIdx (pos ≤ ·) - 1

/-- A stretch of the text and the stretch of a source that it stands for. -/
structure Mapping (δ : Type) where
  span : Span
  source : Option String
  sourceSpan : Span
  data : Option δ
deriving DecidableEq

def Excerpt.mapping (start : Nat) (x : Excerpt δ) : Mapping δ :=
  ⟨⟨start, start + x.length⟩, x.source, x.span, x.data⟩

def mappings (ps : List (Piece δ)) : List (Mapping δ) :=
  (placed ps).filterMap fun (start, p) => p.excerpt?.map (Excerpt.mapping start)

theorem length_offsetsFrom (start : Nat) (ps : List (Piece δ)) :
    (offsetsFrom start ps).length = ps.length := by
  induction ps generalizing start with
  | nil => rfl
  | cons p ps ih => simp only [offsetsFrom, List.length_cons, ih]

theorem length_offsets (ps : List (Piece δ)) : (offsets ps).length = ps.length :=
  length_offsetsFrom 0 ps

end TracedText
