import TracedText.Regex.Basic
import TracedText.Regex.Octets
import TracedText.Utf8

/-!
# The memory that an expression stands for

Counted repetitions are written out, so a short expression may stand for a very large automaton.
`fits` bounds the memory of two automata that eat octets: one finds where a match ends, the other
reads backwards and finds where it starts. `footprint` counts that memory, itself in octets, without
making the states.
-/
namespace TracedText.Regex

inductive Direction
  | forward
  | backward
deriving DecidableEq

-- A state has a cost of its own, and one for each way out of it when there are several: more
-- when the next octet decides between them, less when all of them are tried.

def stateCost : Nat := 32

def branchCost (n : Nat) : Nat := stateCost + 8 * n

def wayCost : Nat := 4

def choiceCost (n : Nat) : Nat := stateCost + wayCost * n

def total (ns : List Nat) : Nat := ns.foldl (· + ·) 0

def continuations {α : Type} [BEq α] (ts : List (List α)) : List (List (List α)) :=
  (ts.filterMap List.head?).eraseDups.map fun a =>
    ts.filterMap fun t => if t.head? == some a then some t.tail else none

/-- The different continuations of lists of up to `n` members, other than their ends. -/
def residuals : Nat → List OctetBlock → List (List OctetBlock)
  | 0, _ => []
  | n + 1, ts =>
    if ts.all List.isEmpty then []
    else (ts :: (continuations ts).flatMap (residuals n)).eraseDups

/-- Read forwards, blocks share what they end in. Read backwards, the blocks that begin alike share
their beginnings. Characters of one octet need neither. -/
def setFootprint (d : Direction) (s : CharSet) : Nat :=
  let blocks := s.octetBlocks
  if s.intervals.all (·.last < 0x80) then branchCost s.intervals.length + stateCost
  else
    match d with
    | .forward =>
      stateCost + total ((residuals 4 blocks).map fun ts => branchCost (continuations ts).length)
    | .backward =>
      let beginnings := (blocks.flatMap fun t => (List.range t.length).map fun n => t.take (n + 1))
      choiceCost blocks.length + stateCost + stateCost * beginnings.eraseDups.length

/-- Texts that are alternatives share what they begin with, as far as no complete text stands
between them. They have at most `n` octets left. -/
def textsFootprint : Nat → List (List UInt8) → Nat
  | 0, _ => 0
  | n + 1, ts =>
    if ts.all List.isEmpty then 0
    else
      let complete :=
        ((ts.dropWhile List.isEmpty).filter List.isEmpty).length +
          if ts.any List.isEmpty && (ts.head?.any List.isEmpty) then 1 else 0
      let runs := (ts.splitBy fun s t => s.isEmpty == t.isEmpty).filter (!·.all List.isEmpty)
      choiceCost (runs.length + complete) + total (runs.map fun run =>
        let rests := continuations run
        (if rests.length = 1 then stateCost else branchCost rests.length) +
          total (rests.map (textsFootprint n)))

def text? : Regex → Option Text
  | text t => if t.isEmpty then none else some t
  | _ => none

def texts? (r : Regex) : Option (List Text) := r.branches.mapM text?

/-- The memory that the states of an expression take, given what its branches take. -/
def together (d : Direction) (r : Regex) : List Nat → Nat
  | [n] => n
  | ns =>
    match texts? r with
    | some ts =>
      let us := ts.map fun t => if d = .forward then Utf8.encode t else (Utf8.encode t).reverse
      stateCost + textsFootprint (total (us.map List.length)) us
    | none => choiceCost ns.length + stateCost + total ns

def branchFootprints (d : Direction) : Regex → List Nat
  | text t => [stateCost * max 1 (octetLength t)]
  | set s => [setFootprint d s]
  | textStart | textEnd => [stateCost]
  | group _ r =>
    [r.together d (r.branchFootprints d) + if d = .forward then 2 * stateCost else 0]
  | seq a b => [a.together d (a.branchFootprints d) + b.together d (b.branchFootprints d)]
  | alt a b => a.branchFootprints d ++ b.branchFootprints d
  | repeated r least most _ =>
    let round := r.together d (r.branchFootprints d)
    let counted := if least = 0 then stateCost else least * round
    match most with
    | some 1 => [if least = 0 then choiceCost 2 + round + stateCost else counted]
    | some m =>
      [if m = least then counted
        else counted + (m - least) * (choiceCost 2 + round) + stateCost]
    | none =>
      [if 0 < least then counted + choiceCost 2
        else if r.nullable then round + 2 * choiceCost 2 + stateCost
        else round + choiceCost 2]

/-- Whether every match begins, or ends when told backwards, at the end of the text there. -/
def anchored (d : Direction) : Regex → Bool
  | text _ | set _ => false
  | textStart => d = .forward
  | textEnd => d = .backward
  | group _ r => r.anchored d
  | seq a b =>
    match d with
    | .forward => a.anchored d || (a.onlyEmpty && b.anchored d)
    | .backward => b.anchored d || (b.onlyEmpty && a.anchored d)
  | alt a b => a.anchored d && b.anchored d
  | repeated r least _ _ => 0 < least && r.anchored d

/-- The memory that the automaton takes. It accepts in a state of its own, and where a match may lie
anywhere it skips any octets first. Forwards, it notes where the match starts and ends. -/
def footprint (d : Direction) (r : Regex) : Nat :=
  (if r.anchored d then stateCost else choiceCost 2 + branchCost 1 + stateCost) +
    (if d = .forward then 2 * stateCost else 0) + r.together d (r.branchFootprints d) + stateCost

def memoryLimit : Nat := 10 * 1024 * 1024

def fits (r : Regex) : Bool :=
  r.footprint .forward ≤ memoryLimit && r.footprint .backward ≤ memoryLimit

end TracedText.Regex
