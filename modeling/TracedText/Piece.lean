import TracedText.Place

/-!
# Pieces of text

A piece is bare text, or an excerpt: text with the source and the place it was taken from and a
payload of the caller's. `take` keeps the front of a piece and `drop` what follows it; both keep
source and payload, and move the place so that every character left still names its own position.
`dropFrom` takes a signed position, where a negative one counts from the end. Positions count
characters, and the text itself is cut at the octet where the character at that position begins.
-/
namespace TracedText

variable {δ : Type}

/-- Text taken from a source. Sources may be unnamed. -/
structure Excerpt (δ : Type) where
  text : Text
  source : Option String
  place : Place
  data : Option δ
deriving DecidableEq

namespace Excerpt

def length (x : Excerpt δ) : Nat := x.text.length

/-- The stretch of the source that the excerpt stands for. -/
def span (x : Excerpt δ) : Span := x.place.span x.length

def isFrom (x : Excerpt δ) (source : Option String) : Bool := x.source == source

def take (n : Nat) (x : Excerpt δ) : Excerpt δ :=
  { x with
    text := takeOctets (octetAt x.text n) x.text
    place := x.place.dropBack (x.length - n) }

def drop (n : Nat) (x : Excerpt δ) : Excerpt δ :=
  { x with
    text := dropOctets (octetAt x.text n) x.text
    place := x.place.dropFront (min n x.length) }

@[simp] theorem text_take (n : Nat) (x : Excerpt δ) : (x.take n).text = x.text.take n :=
  takeOctets_octetAt x.text n

@[simp] theorem text_drop (n : Nat) (x : Excerpt δ) : (x.drop n).text = x.text.drop n :=
  dropOctets_octetAt x.text n

theorem take_eq (n : Nat) (x : Excerpt δ) :
    x.take n = { x with text := x.text.take n, place := x.place.dropBack (x.length - n) } := by
  rw [← text_take]
  rfl

theorem drop_eq (n : Nat) (x : Excerpt δ) :
    x.drop n = { x with text := x.text.drop n, place := x.place.dropFront (min n x.length) } := by
  rw [← text_drop]
  rfl

end Excerpt

inductive Piece (δ : Type)
  | bare (text : Text)
  | located (excerpt : Excerpt δ)
deriving DecidableEq

namespace Piece

def text : Piece δ → Text
  | bare t => t
  | located x => x.text

def length (p : Piece δ) : Nat := p.text.length

def isEmpty (p : Piece δ) : Bool := p.text.isEmpty

def excerpt? : Piece δ → Option (Excerpt δ)
  | bare _ => none
  | located x => some x

def isLocated (p : Piece δ) : Bool := p.excerpt?.isSome

def source (p : Piece δ) : Option String := p.excerpt?.bind (·.source)

def data (p : Piece δ) : Option δ := p.excerpt?.bind (·.data)

/-- The first `n` characters, or all of them where there are fewer. -/
def take (n : Nat) : Piece δ → Piece δ
  | bare t => bare (takeOctets (octetAt t n) t)
  | located x => located (x.take n)

/-- What follows the first `n` characters. -/
def drop (n : Nat) : Piece δ → Piece δ
  | bare t => bare (dropOctets (octetAt t n) t)
  | located x => located (x.drop n)

/-- The position in a text of length `n` that a signed cut names: one below zero counts from the
end, and none lies outside the text. -/
def cutPosition (cut : Int) (n : Nat) : Nat :=
  if cut < 0 then n - cut.natAbs else min cut.natAbs n

/-- What follows a signed cut. -/
def dropFrom (cut : Int) (p : Piece δ) : Piece δ := p.drop (cutPosition cut p.length)

@[simp] theorem take_bare (n : Nat) (t : Text) : (bare t : Piece δ).take n = bare (t.take n) :=
  congrArg bare (takeOctets_octetAt t n)

@[simp] theorem drop_bare (n : Nat) (t : Text) : (bare t : Piece δ).drop n = bare (t.drop n) :=
  congrArg bare (dropOctets_octetAt t n)

@[simp] theorem text_take (n : Nat) (p : Piece δ) : (p.take n).text = p.text.take n := by
  cases p with
  | bare t => exact takeOctets_octetAt t n
  | located x => exact x.text_take n

@[simp] theorem text_drop (n : Nat) (p : Piece δ) : (p.drop n).text = p.text.drop n := by
  cases p with
  | bare t => exact dropOctets_octetAt t n
  | located x => exact x.text_drop n

@[simp] theorem length_take (n : Nat) (p : Piece δ) : (p.take n).length = min n p.length := by
  simp only [length, text_take, List.length_take]

@[simp] theorem length_drop (n : Nat) (p : Piece δ) : (p.drop n).length = p.length - n := by
  simp only [length, text_drop, List.length_drop]

end Piece

/-- The texts of the pieces, one after the other. -/
def flatten (ps : List (Piece δ)) : Text := ps.flatMap Piece.text

/-- The number of characters in all pieces together. -/
def totalLength : List (Piece δ) → Nat
  | [] => 0
  | p :: ps => p.length + totalLength ps

theorem flatten_append (ps qs : List (Piece δ)) : flatten (ps ++ qs) = flatten ps ++ flatten qs :=
  List.flatMap_append

theorem totalLength_append (ps qs : List (Piece δ)) :
    totalLength (ps ++ qs) = totalLength ps + totalLength qs := by
  induction ps with
  | nil => simp only [List.nil_append, totalLength, Nat.zero_add]
  | cons p ps ih => simp only [List.cons_append, totalLength, ih, Nat.add_assoc]

theorem length_flatten (ps : List (Piece δ)) : (flatten ps).length = totalLength ps := by
  induction ps with
  | nil => rfl
  | cons p ps ih =>
    have h : flatten (p :: ps) = p.text ++ flatten ps := List.flatMap_cons
    rw [h, List.length_append, ih]
    rfl

end TracedText
