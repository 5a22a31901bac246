import TracedText.Regex.Basic
import TracedText.Regex.Spelling

/-!
# The tokens of a written regular expression

A backslash makes the character after it stand for itself, or for a newline. The symbols that
result are read one by one into tokens: single characters and sets of them, the two ends of the
text, brackets, bars and repetitions.

A set of characters in square brackets may be negated by a first `^`. What stands at its front
stands for itself and begins no range: any number of dashes or, if there are none, a bracket that
closes. A dash at the back stands for itself too. Nested sets and operations on sets are not read.
-/
namespace TracedText.Regex

inductive Symbol
  | plain (c : Char)
  | escaped (c : Char)
deriving DecidableEq

namespace Symbol

def char : Symbol → Char
  | plain c => c
  | escaped c => c

def ofEscape? (c : Char) : Option Symbol := (escaped? c).map escaped

/-- A backslash at the very end stands for nothing. -/
def ofText? : Text → Option (List Symbol)
  | [] => some []
  | [c] => if c = '\\' then none else some [plain c]
  | c :: d :: t =>
    if c = '\\' then (ofEscape? d).bind fun s => (ofText? t).map (s :: ·)
    else (ofText? (d :: t)).map (plain c :: ·)

def interval (a b : Symbol) : Interval := ⟨a.char.toNat, b.char.toNat⟩

def isSetOperator (a b : Symbol) : Bool :=
  a == b && (a == plain '&' || a == plain '-' || a == plain '~')

/-- The intervals that symbols within square brackets spell, those at the front left out. -/
def intervals? : List Symbol → Option (List Interval)
  | [] => some []
  | [a] => if a = plain '[' then none else some [a.interval a]
  | [a, b] =>
    if a = plain '[' || a.isSetOperator b || b = plain '[' then none
    else some [a.interval a, b.interval b]
  | a :: b :: c :: rest =>
    if a = plain '[' || a.isSetOperator b then none
    else if b = plain '-' then
      if c = plain '-' || c.char < a.char then none
      else (intervals? rest).map (a.interval c :: ·)
    else (intervals? (b :: c :: rest)).map (a.interval a :: ·)

end Symbol

structure Repetition where
  least : Nat
  most : Option Nat
  greedy : Bool
deriving DecidableEq

namespace Repetition

/-- The first count that is too large. -/
def limit : Nat := 4294967296

def number? (t : Text) : Option Nat :=
  let t := t.dropWhile CharSet.blank.contains
  let digits := t.takeWhile Char.isDigit
  let n := digits.foldl (fun n c => 10 * n + (c.toNat - '0'.toNat)) 0
  if digits.isEmpty || !(t.dropWhile Char.isDigit).all CharSet.blank.contains || limit ≤ n then none
  else some n

/-- Reads what stands between braces: a number, or two with a comma between them, of which the
second may be left out. -/
def ofCount? (t : Text) : Option Repetition :=
  match t.span (· != ',') with
  | (a, []) => (number? a).map fun n => ⟨n, some n, true⟩
  | (a, [_]) => (number? a).map fun n => ⟨n, none, true⟩
  | (a, _ :: b) =>
    (number? a).bind fun n => (number? b).bind fun m =>
      if m < n then none else some ⟨n, some m, true⟩

end Repetition

/-- An atom is told with the depth to which it nests: a set has a depth of its own, and another one
if it lists several items. A bracket that opens is told with whether it makes a group. -/
inductive Token
  | atom (r : Regex) (depth : Nat)
  | opening (grouping : Bool)
  | closing
  | bar
  | repeated (q : Repetition)
deriving DecidableEq

namespace Token

def char (c : Char) : Token := atom (text [c]) 0

/-- Where a reader of symbols stands. What it has collected of a set or a count is
kept in reverse order. -/
inductive Mode
  | outside
  | opened
  | marked
  | repetition (q : Repetition)
  | count (digits : Text)
  | setStart
  | setFront (negated : Bool) (front : List Interval)
  | setInside (negated : Bool) (front : List Interval) (symbols : List Symbol)

def ofSet? (negated : Bool) (front : List Interval) (symbols : List Symbol) : Option Token :=
  (Symbol.intervals? symbols.reverse).map fun rs =>
    let items := front ++ rs
    let s := CharSet.ofIntervals items
    atom (ofSet (if negated then s.complement else s)) (if items.length < 2 then 1 else 2)

namespace Mode

def stepOutside : Symbol → List Token × Mode
  | .escaped c => ([.char c], outside)
  | .plain c =>
    match c with
    | '(' => ([], opened)
    | ')' => ([.closing], outside)
    | '|' => ([.bar], outside)
    | '[' => ([], setStart)
    | '{' => ([], count [])
    | '*' => ([], repetition ⟨0, none, true⟩)
    | '+' => ([], repetition ⟨1, none, true⟩)
    | '?' => ([], repetition ⟨0, some 1, true⟩)
    | '.' => ([.atom (.set .anyButNewline) 0], outside)
    | '^' => ([.atom .textStart 0], outside)
    | '$' => ([.atom .textEnd 0], outside)
    | c => ([.char c], outside)

def stepInside (negated : Bool) (front : List Interval) (symbols : List Symbol) (s : Symbol) :
    Option (List Token × Mode) :=
  if s = .plain ']' then (ofSet? negated front symbols).map fun t => ([t], outside)
  else some ([], setInside negated front (s :: symbols))

def stepFront (negated : Bool) (front : List Interval) (s : Symbol) : Option (List Token × Mode) :=
  if s = .plain '-' then some ([], setFront negated (s.interval s :: front))
  else if s = .plain ']' && front.isEmpty then some ([], setInside negated [s.interval s] [])
  else stepInside negated front [] s

/-- Reads the next symbol, which may also show that what was read before is complete. -/
def step (s : Symbol) : Mode → Option (List Token × Mode)
  | outside => some (stepOutside s)
  | opened =>
    if s = .plain '?' then some ([], marked)
    else some (.opening true :: (stepOutside s).1, (stepOutside s).2)
  | marked => if s = .plain ':' then some ([.opening false], outside) else none
  | repetition q =>
    if s = .plain '?' then some ([.repeated { q with greedy := false }], outside)
    else some (.repeated q :: (stepOutside s).1, (stepOutside s).2)
  | count digits =>
    match s with
    | .plain c =>
      if c = '}' then (Repetition.ofCount? digits.reverse).map fun q => ([], repetition q)
      else some ([], count (c :: digits))
    | .escaped _ => none
  | setStart =>
    if s = .plain '^' then some ([], setFront true []) else stepFront false [] s
  | setFront negated front => stepFront negated front s
  | setInside negated front symbols => stepInside negated front symbols s

def finish : Mode → Option (List Token)
  | outside => some []
  | opened => some [.opening true]
  | repetition q => some [.repeated q]
  | _ => none

end Mode

def ofSymbols? : Mode → List Symbol → Option (List Token)
  | m, [] => m.finish
  | m, s :: rest =>
    (m.step s).bind fun (out, m) => (ofSymbols? m rest).map (out ++ ·)

def ofText? (t : Text) : Option (List Token) := (Symbol.ofText? t).bind (ofSymbols? .outside)

end Token

end TracedText.Regex
