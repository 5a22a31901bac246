import TracedText.Edit
import TracedText.Origin
import TracedText.SourceEdit

/-!
# Buffers

A buffer holds a text as a list of pieces. It is made from a source text, which then is one piece
located at 0, or from any list of pieces as it stands. Edits act on the list; pushing a piece at
either end and retaining one kind of piece join nothing.
-/
namespace TracedText

variable {δ : Type}

structure Buffer (δ : Type) where
  pieces : List (Piece δ)
deriving DecidableEq

namespace Buffer

def empty : Buffer δ := ⟨[]⟩

def ofList (ps : List (Piece δ)) : Buffer δ := ⟨ps⟩

/-- A source text, with the name of its source if it has one. -/
def ofSource (t : Text) (source : Option String) : Buffer δ :=
  ⟨[.located ⟨t, source, .offset 0, none⟩]⟩

def text (b : Buffer δ) : Text := flatten b.pieces

def length (b : Buffer δ) : Nat := totalLength b.pieces

def isEmpty (b : Buffer δ) : Bool := b.pieces.all Piece.isEmpty

def traced (b : Buffer δ) : List (TracedChar δ) := TracedText.traced b.pieces

def offsets (b : Buffer δ) : List Nat := TracedText.offsets b.pieces

def mappings (b : Buffer δ) : List (Mapping δ) := TracedText.mappings b.pieces

def push (b : Buffer δ) (p : Piece δ) : Buffer δ := ⟨b.pieces ++ [p]⟩

def pushFront (b : Buffer δ) (p : Piece δ) : Buffer δ := ⟨p :: b.pieces⟩

/-- Keeps the located pieces only, or the bare ones only. -/
def retain (b : Buffer δ) (located : Bool) : Buffer δ :=
  ⟨b.pieces.filter (·.isLocated == located)⟩

/-- Carries out an edit without checking its positions. -/
def apply (b : Buffer δ) (e : Edit δ) : Buffer δ := ⟨e.applyTo b.pieces⟩

/-- Carries out edits one after the other, each on the outcome of the one before it. -/
def applyAll (b : Buffer δ) (es : List (Edit δ)) : Buffer δ := es.foldl apply b

/-- Carries out an edit that lies in order within the text, and refuses any other. -/
def tryApply (b : Buffer δ) (e : Edit δ) : Except RangeError (Buffer δ) :=
  (e.check b.length).map fun _ => b.apply e

/-- Carries out a source edit, if some piece contains it. -/
def applySource? (b : Buffer δ) (e : SourceEdit δ) : Option (Buffer δ) :=
  (e.applyTo? b.pieces).map ofList

/-- Carries out a source edit, and tells whether some piece contains it. If none does, the
buffer stays as it is. -/
def replaceSource (b : Buffer δ) (e : SourceEdit δ) : Bool × Buffer δ :=
  ((b.applySource? e).isSome, (b.applySource? e).getD b)

theorem length_text (b : Buffer δ) : b.text.length = b.length := length_flatten b.pieces

end Buffer

end TracedText
