import TracedText.Layout
import TracedText.Splice

/-!
# Edits by position

An edit puts new pieces in place of the characters from `start` up to, but not including, `stop`.
It becomes a splice between the piece that `start` lies in and the piece that `stop` lies in. What
is left of these two, a head before `start` and a tail after `stop`, is kept around the new pieces.

Neither the order of the two positions nor the length of the text is checked: positions past the
end count as the end, and an edit whose start is after its stop keeps a head and a tail that
overlap. `check` refuses both.
-/
namespace TracedText

variable {δ : Type}

structure Edit (δ : Type) where
  start : Nat
  stop : Nat
  new : List (Piece δ)
deriving DecidableEq

inductive RangeError
  | inverted (start stop : Nat)
  | outOfBounds (start stop length : Nat)
deriving DecidableEq

def RangeError.message : RangeError → String
  | inverted start stop => s!"invalid edit range: start {start} is after end {stop}"
  | outOfBounds start stop length =>
    s!"edit range {start}..{stop} is out of bounds for buffer length {length}"

namespace Edit

/-- What is kept of a piece that starts at `offset` and that the edit starts in. -/
def head (e : Edit δ) : Nat × Piece δ → List (Piece δ)
  | (offset, p) => if offset < e.start then [p.take (e.start - offset)] else []

/-- What is kept of a piece that starts at `offset` and that the edit stops in. -/
def tail (e : Edit δ) : Nat × Piece δ → List (Piece δ)
  | (offset, p) => if e.stop < offset + p.length then [p.drop (e.stop - offset)] else []

def firstIndex (e : Edit δ) (ps : List (Piece δ)) : Nat := indexAt (offsets ps) e.start

def lastIndex (e : Edit δ) (ps : List (Piece δ)) : Nat := indexBefore (offsets ps) e.stop

/-- The new pieces between what is kept of the first and of the last piece. -/
def pieces (e : Edit δ) (ps : List (Piece δ)) : List (Piece δ) :=
  (placed ps)[e.firstIndex ps]?.elim [] e.head ++ e.new ++
    (placed ps)[e.lastIndex ps]?.elim [] e.tail

/-- The last index may come before the first one, as when the edit only inserts on a border between
two pieces. The splice then takes no piece out. -/
def splice (e : Edit δ) (ps : List (Piece δ)) : Splice δ :=
  if ps.isEmpty then ⟨0, 0, e.new⟩
  else ⟨e.firstIndex ps, max (e.firstIndex ps) (e.lastIndex ps + 1), e.pieces ps⟩

def applyTo (e : Edit δ) (ps : List (Piece δ)) : List (Piece δ) :=
  ((e.splice ps).widen ps).applyTo ps

def applyToText (e : Edit δ) (t : Text) : Text :=
  t.take e.start ++ flatten e.new ++ t.drop e.stop

/-- Refuses an edit that does not lie in order within a text of `n` characters. -/
def check (e : Edit δ) (n : Nat) : Except RangeError Unit :=
  if e.stop < e.start then .error (.inverted e.start e.stop)
  else if n < e.stop then .error (.outOfBounds e.start e.stop n)
  else .ok ()

theorem check_eq_ok_iff (e : Edit δ) (n : Nat) :
    e.check n = .ok () ↔ e.start ≤ e.stop ∧ e.stop ≤ n := by
  simp only [check]
  split
  · simp only [reduceCtorEq, false_iff]
    omega
  · split
    · simp only [reduceCtorEq, false_iff]
      omega
    · simp only [true_iff]
      omega

end Edit

end TracedText
