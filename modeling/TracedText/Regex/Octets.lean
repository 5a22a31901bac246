import TracedText.Regex.CharSet

/-!
# Sets of characters as octets

The encoded forms of the characters of a set, told octet by octet: a block of characters is given by
an interval for each octet, and encoding any of its characters gives one number of each interval.
Characters that need the same number of octets are split into blocks by their digits to base 64,
each of which is an octet of its own.
-/
namespace TracedText

abbrev OctetBlock := List Interval

namespace OctetBlock

def combinations : Nat → Nat
  | 0 => 1
  | n + 1 => 64 * combinations n

/-- Splits an interval into blocks. In front of the last `n` digits there is a number that is added
to `mark`, and each of them is added to a mark of their own. -/
def split (mark : Nat) : Nat → Interval → List OctetBlock
  | 0, r => [[⟨mark + r.first, mark + r.last⟩]]
  | n + 1, r =>
    let unit := combinations (n + 1)
    let a := r.first / unit
    let b := r.last / unit
    let low := r.first % unit
    let high := r.last % unit
    let within (head : Nat) (rest : Interval) : List OctetBlock :=
      (split 0x80 n rest).map (⟨mark + head, mark + head⟩ :: ·)
    if a = b then within a ⟨low, high⟩
    else
      let first := if low = 0 then a else a + 1
      let stop := if high + 1 = unit then b + 1 else b
      (if low = 0 then [] else within a ⟨low, unit - 1⟩) ++
        (if first < stop then
          [⟨mark + first, mark + (stop - 1)⟩ :: List.replicate (n + 1) ⟨0x80, 0xBF⟩]
        else []) ++
        (if high + 1 = unit then [] else within b ⟨0, high⟩)

/-- The numbers of the characters with the same number of octets, with the mark of the first octet
and the number of those that follow. -/
def lengths : List (Interval × Nat × Nat) :=
  [(⟨0, 0x7F⟩, 0, 0), (⟨0x80, 0x7FF⟩, 0xC0, 1), (⟨0x800, 0xD7FF⟩, 0xE0, 2),
    (⟨0xE000, 0xFFFF⟩, 0xE0, 2), (⟨0x10000, 0x10FFFF⟩, 0xF0, 3)]

def ofInterval (r : Interval) : List OctetBlock :=
  lengths.flatMap fun (q, mark, n) =>
    let first := max r.first q.first
    let last := min r.last q.last
    if first ≤ last then split mark n ⟨first, last⟩ else []

end OctetBlock

def CharSet.octetBlocks (s : CharSet) : List OctetBlock := s.intervals.flatMap OctetBlock.ofInterval

example : (CharSet.ofIntervals [⟨0x400, 0x10FF⟩]).octetBlocks =
    [[⟨0xD0, 0xDF⟩, ⟨0x80, 0xBF⟩], [⟨0xE0, 0xE0⟩, ⟨0xA0, 0xBF⟩, ⟨0x80, 0xBF⟩],
      [⟨0xE1, 0xE1⟩, ⟨0x80, 0x83⟩, ⟨0x80, 0xBF⟩]] := by decide

end TracedText
