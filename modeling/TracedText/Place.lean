import TracedText.Text

/-!
# Places in a source

A place says where a piece of text was taken from. An `offset` gives its first position only, and
the piece is as long there as it is here. A `range` gives both ends, for text whose stretch in the
source need not be as long as the text itself; nothing forces its ends to be in order.

Cutting text at the front moves the first position. Cutting at the back moves the end of a range
and leaves an offset alone. An end never moves below zero.

Positions are natural numbers here. In words of 64 bits the same holds as long as no position, and
no sum of a first position and a length, reaches `UInt64.size`. `Excerpt.FitsWords` says this of a
piece with a place; it lasts through all operations.
-/
namespace TracedText

inductive Place
  | offset (start : Nat)
  | range (start stop : Nat)
deriving DecidableEq

namespace Place

def start : Place → Nat
  | offset s => s
  | range s _ => s

/-- The stretch of the source that a piece of `n` characters at this place stands for. -/
def span (n : Nat) : Place → Span
  | offset s => ⟨s, s + n⟩
  | range s e => ⟨s, e⟩

/-- The place of what is left when the first `n` characters go. -/
def dropFront (n : Nat) : Place → Place
  | offset s => offset (s + n)
  | range s e => range (s + n) e

/-- The place of what is left when the last `n` characters go. -/
def dropBack (n : Nat) : Place → Place
  | offset s => offset s
  | range s e => range s (e - n)

@[simp] theorem dropFront_zero (p : Place) : p.dropFront 0 = p := by cases p <;> rfl

@[simp] theorem dropBack_zero (p : Place) : p.dropBack 0 = p := by cases p <;> rfl

theorem dropFront_dropFront (p : Place) (m n : Nat) :
    (p.dropFront m).dropFront n = p.dropFront (m + n) := by
  cases p <;> simp only [dropFront, Nat.add_assoc]

theorem dropBack_dropBack (p : Place) (m n : Nat) :
    (p.dropBack m).dropBack n = p.dropBack (m + n) := by
  cases p <;> simp only [dropBack, Nat.sub_sub]

theorem dropBack_dropFront (p : Place) (m n : Nat) :
    (p.dropFront m).dropBack n = (p.dropBack n).dropFront m := by
  cases p <;> rfl

end Place

end TracedText
