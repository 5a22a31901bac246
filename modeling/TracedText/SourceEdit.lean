import TracedText.Layout
import TracedText.Splice

/-!
# Edits by source position

A source edit names a stretch of a source instead of positions in the text. It acts on the first
located piece of that source whose own stretch contains it, and on no other. The head it keeps is
counted from the front of the piece and the tail from the back, so a piece whose text is not as
long as its stretch is cut at both ends alike.
-/
namespace TracedText

variable {δ : Type}

structure SourceEdit (δ : Type) where
  source : Option String
  start : Nat
  stop : Nat
  new : List (Piece δ)
deriving DecidableEq

namespace SourceEdit

def isWithin (e : SourceEdit δ) (x : Excerpt δ) : Bool :=
  x.isFrom e.source && decide (x.span.start ≤ e.start) && decide (e.stop ≤ x.span.stop)

/-- The position of the first piece that contains the edit, and the piece. -/
def target? (e : SourceEdit δ) (ps : List (Piece δ)) : Option (Nat × Excerpt δ) :=
  ps.zipIdx.findSome? fun (p, i) =>
    p.excerpt?.bind fun x => if e.isWithin x then some (i, x) else none

def head (e : SourceEdit δ) (x : Excerpt δ) : List (Piece δ) :=
  if x.span.start < e.start then [Piece.take (e.start - x.span.start) (.located x)] else []

def tail (e : SourceEdit δ) (x : Excerpt δ) : List (Piece δ) :=
  if e.stop < x.span.stop then [Piece.dropFrom (-↑(x.span.stop - e.stop)) (.located x)] else []

def splice (e : SourceEdit δ) : Nat × Excerpt δ → Splice δ
  | (i, x) => ⟨i, i + 1, e.head x ++ e.new ++ e.tail x⟩

/-- An edit that is out of order, or that no piece contains, gives `none`. -/
def applyTo? (e : SourceEdit δ) (ps : List (Piece δ)) : Option (List (Piece δ)) :=
  if e.stop < e.start then none
  else (e.target? ps).map fun target => ((e.splice target).widen ps).applyTo ps

end SourceEdit

end TracedText
