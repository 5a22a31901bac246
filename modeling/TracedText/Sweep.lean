import TracedText.Buffer
import TracedText.Search

/-!
# Replacing what a search finds

A replacer is asked for a piece once for every match, from left to right, and is shown the matched
text; it may carry a state along. All matches are found before the first edit, so nothing that is
put in is searched. A `Turn` is one match with its piece: its place in the text that was searched,
counted in characters, and the `shift` by which the turns before it have moved that place. The
edits of all turns are then carried out in order.
-/
namespace TracedText

variable {σ δ : Type}

abbrev Replacer (σ δ : Type) := Text → StateM σ (Piece δ)

def Replacer.constant (p : Piece δ) : Replacer σ δ := fun _ => pure p

structure Cursor where
  octet : Nat
  char : Nat
deriving DecidableEq

def Cursor.charAt (c : Cursor) (t : Text) (n : Nat) : Nat :=
  c.char + (slice t ⟨c.octet, n⟩).length

structure Turn (δ : Type) where
  start : Nat
  stop : Nat
  shift : Int
  piece : Piece δ
deriving DecidableEq

namespace Turn

/-- The edit of a turn at the shifted place. No position is moved below zero. -/
def edit (u : Turn δ) : Edit δ := ⟨(u.start + u.shift).toNat, (u.stop + u.shift).toNat, [u.piece]⟩

def growth (u : Turn δ) : Int := u.piece.length - (u.stop - u.start : Nat)

end Turn

/-- The turns for a list of matches. The cursor stands at the end of the match before them. -/
def turns (r : Replacer σ δ) (t : Text) : Cursor → Int → List Span → StateM σ (List (Turn δ))
  | _, _, [] => pure []
  | c, shift, m :: ms => do
    let start := c.charAt t m.start
    let stop := Cursor.charAt ⟨m.start, start⟩ t m.stop
    let piece ← r (slice t m)
    let u : Turn δ := ⟨start, stop, shift, piece⟩
    let rest ← turns r t ⟨m.stop, stop⟩ (shift + u.growth) ms
    pure (u :: rest)

namespace Buffer

def allTurns (b : Buffer δ) (s : Searcher) (r : Replacer σ δ) : StateM σ (List (Turn δ)) :=
  turns r b.text ⟨0, 0⟩ 0 (s.all b.text)

def firstTurns (b : Buffer δ) (s : Searcher) (r : Replacer σ δ) : StateM σ (List (Turn δ)) :=
  turns r b.text ⟨0, 0⟩ 0 (s.first? b.text).toList

/-- Replaces the first match. Tells whether there was one. -/
def replaceFirst (b : Buffer δ) (s : Searcher) (r : Replacer σ δ) : StateM σ (Bool × Buffer δ) := do
  let us ← b.firstTurns s r
  pure (!us.isEmpty, b.applyAll (us.map Turn.edit))

/-- Replaces all matches. Tells how many there were. -/
def replaceAll (b : Buffer δ) (s : Searcher) (r : Replacer σ δ) : StateM σ (Nat × Buffer δ) := do
  let us ← b.allTurns s r
  pure (us.length, b.applyAll (us.map Turn.edit))

end Buffer

end TracedText
