import TracedText.Text

/-!
# Sets of characters

A set is a list of intervals of character numbers, in order, with a number between any two of them
that neither holds; so the same numbers always make the same list. `any_contains_insert` says that
adding an interval adds just its numbers.
-/
namespace TracedText

structure Interval where
  first : Nat
  last : Nat
deriving DecidableEq

namespace Interval

def contains (r : Interval) (n : Nat) : Bool := r.first ≤ n && n ≤ r.last

/-- Adds an interval where it belongs, joined with those that it overlaps or touches. -/
def insert (r : Interval) : List Interval → List Interval
  | [] => [r]
  | q :: rest =>
    if r.last + 1 < q.first then r :: q :: rest
    else if q.last + 1 < r.first then q :: r.insert rest
    else insert ⟨min r.first q.first, max r.last q.last⟩ rest

theorem any_contains_insert (r : Interval) (qs : List Interval) (n : Nat)
    (hr : r.first ≤ r.last) (hqs : ∀ q ∈ qs, q.first ≤ q.last) :
    (r.insert qs).any (·.contains n) = (r.contains n || qs.any (·.contains n)) := by
  induction qs generalizing r with
  | nil => simp [insert]
  | cons q rest ih =>
    have hq : q.first ≤ q.last := hqs q List.mem_cons_self
    have hrest : ∀ p ∈ rest, p.first ≤ p.last := fun p hp => hqs p (List.mem_cons_of_mem q hp)
    unfold insert
    split
    · simp
    · split
      · rw [List.any_cons, ih r hr hrest, List.any_cons, Bool.or_left_comm]
      · rw [ih _ (by simp only; omega) hrest, List.any_cons, ← Bool.or_assoc]
        congr 1
        simp only [contains, ← Bool.decide_and, ← Bool.decide_or, decide_eq_decide]
        omega

end Interval

structure CharSet where
  intervals : List Interval
deriving DecidableEq

namespace CharSet

def contains (s : CharSet) (c : Char) : Bool := s.intervals.any (·.contains c.toNat)

def single (c : Char) : CharSet := ⟨[⟨c.toNat, c.toNat⟩]⟩

def ofIntervals (rs : List Interval) : CharSet := ⟨rs.foldl (fun qs r => r.insert qs) []⟩

def ofChars (cs : List Char) : CharSet := ofIntervals (cs.map fun c => ⟨c.toNat, c.toNat⟩)

def union (s t : CharSet) : CharSet := ofIntervals (s.intervals ++ t.intervals)

def single? (s : CharSet) : Option Char :=
  match s.intervals with
  | [r] => if r.first = r.last then some (Char.ofNat r.first) else none
  | _ => none

def lastNumber : Nat := 0x10FFFF

/-- The number of the next character. The numbers from 0xD800 to 0xDFFF stand for none. -/
def following (n : Nat) : Nat := if n = 0xD7FF then 0xE000 else n + 1

def preceding (n : Nat) : Nat := if n = 0xE000 then 0xD7FF else n - 1

/-- The interval between two numbers, whichever of them is the larger. Where nothing but numbers of
no character lies between two intervals, this gives the two characters around them. -/
def between (a b : Nat) : Interval := ⟨min a b, max a b⟩

/-- What lies between intervals, the first of which comes after one that ends at
`last`, and behind them. -/
def gaps (last : Nat) : List Interval → List Interval
  | [] => if last < lastNumber then [⟨following last, lastNumber⟩] else []
  | r :: rest => between (following last) (preceding r.first) :: gaps r.last rest

/-- All other characters, but for what `between` says of numbers that stand for none. -/
def complement (s : CharSet) : CharSet :=
  match s.intervals with
  | [] => ⟨[⟨0, lastNumber⟩]⟩
  | r :: rest => ⟨(if 0 < r.first then [⟨0, preceding r.first⟩] else []) ++ gaps r.last rest⟩

def anyButNewline : CharSet := (single '\n').complement

/-- The characters that count as white space. -/
def blank : CharSet := ofIntervals
  [⟨0x9, 0xD⟩, ⟨0x20, 0x20⟩, ⟨0x85, 0x85⟩, ⟨0xA0, 0xA0⟩, ⟨0x1680, 0x1680⟩, ⟨0x2000, 0x200A⟩,
    ⟨0x2028, 0x2029⟩, ⟨0x202F, 0x202F⟩, ⟨0x205F, 0x205F⟩, ⟨0x3000, 0x3000⟩]

theorem contains_single (c d : Char) : (single c).contains d = decide (c = d) := by
  have h : (c.toNat ≤ d.toNat ∧ d.toNat ≤ c.toNat) ↔ c = d :=
    ⟨fun h => Char.toNat_inj.1 (Nat.le_antisymm h.1 h.2),
      fun h => h ▸ ⟨Nat.le_refl _, Nat.le_refl _⟩⟩
  simp only [contains, single, List.any_cons, List.any_nil, Bool.or_false, Interval.contains,
    ← Bool.decide_and, h]

example : anyButNewline.intervals = [⟨0, 9⟩, ⟨11, 0x10FFFF⟩] := by decide

example : (ofChars ['b', 'd', 'a', 'c', 'x']).intervals = [⟨97, 100⟩, ⟨120, 120⟩] := by decide

end CharSet

end TracedText
