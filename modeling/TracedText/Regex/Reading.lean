import TracedText.Regex.Footprint
import TracedText.Regex.Graph
import TracedText.Regex.Token

/-!
# Reading regular expressions

Tokens are put together level by level, where a bracket opens a level and its partner closes it. A
level holds the alternatives that are complete and the parts of the one that is not. Brackets
without a partner, and a repetition with nothing before it, are not read. The engine that comes of
this refuses, besides, what nests too deeply as it is written, or would take too much memory.
-/
namespace TracedText.Regex

/-- An expression, and the depth to which it nests as it is written: each repetition, each pair of
brackets, and each list of several parts or alternatives lies deeper than what it holds. -/
structure Nested where
  regex : Regex
  depth : Nat
deriving DecidableEq

namespace Nested

def listDepth : List Nested → Nat
  | [] => 0
  | [x] => x.depth
  | xs => xs.foldl (fun d x => max d x.depth) 0 + 1

def concat (xs : List Nested) : Nested := ⟨Regex.concat (xs.map regex), listDepth xs⟩

def alternation (xs : List Nested) : Nested := ⟨Regex.alternation (xs.map regex), listDepth xs⟩

def repeated (x : Nested) (q : Repetition) : Nested :=
  ⟨repetition x.regex q.least q.most q.greedy, x.depth + 1⟩

/-- Puts brackets around an expression, which make it a group if they have an index. -/
def bracketed (x : Nested) : Option Nat → Nested
  | some i => ⟨.group i x.regex, x.depth + 1⟩
  | none => ⟨x.regex, x.depth + 1⟩

def depthLimit : Nat := 250

end Nested

/-- The alternatives of one level and the parts of the last of them, all in reverse order, and the
index of the group that the level is, if it is one. -/
structure Level where
  group : Option Nat
  branches : List Nested
  parts : List Nested
deriving DecidableEq

namespace Level

def new (group : Option Nat) : Level := ⟨group, [], []⟩

def add (l : Level) (x : Nested) : Level := { l with parts := x :: l.parts }

def branch (l : Level) : Level :=
  { l with branches := .concat l.parts.reverse :: l.branches, parts := [] }

def repeatLast? (l : Level) (q : Repetition) : Option Level :=
  match l.parts with
  | [] => none
  | x :: xs => some { l with parts := x.repeated q :: xs }

def toNested (l : Level) : Nested := .alternation l.branch.branches.reverse

end Level

/-- Reads the tokens of the innermost level on, within the levels around it, when `groups` groups
have been opened so far. -/
def ofTokens? (groups : Nat) : Level → List Level → List Token → Option Nested
  | l, [], [] => some l.toNested
  | _, _ :: _, [] => none
  | l, outer, .atom r depth :: ts => ofTokens? groups (l.add ⟨r, depth⟩) outer ts
  | l, outer, .opening true :: ts => ofTokens? (groups + 1) (.new (some groups)) (l :: outer) ts
  | l, outer, .opening false :: ts => ofTokens? groups (.new none) (l :: outer) ts
  | l, up :: outer, .closing :: ts =>
    ofTokens? groups (up.add (l.toNested.bracketed l.group)) outer ts
  | _, [], .closing :: _ => none
  | l, outer, .bar :: ts => ofTokens? groups l.branch outer ts
  | l, outer, .repeated q :: ts => (l.repeatLast? q).bind fun l => ofTokens? groups l outer ts

namespace Nested

/-- Reads an expression of any depth. -/
def ofText? (w : Text) : Option Nested :=
  (Token.ofText? w).bind (ofTokens? 0 (.new none) [])

def isAccepted (x : Nested) : Bool := x.depth ≤ depthLimit && x.regex.fits

end Nested

def compiled (r : Regex) : CompiledRegex :=
  let s := Searcher.ofMatcher r.graph.matcher
  ⟨s.first?, s.all⟩

/-- Reads an expression and compiles it, unless it is refused. -/
def engine : RegexEngine where
  compile? w := ((Nested.ofText? w).filter Nested.isAccepted).map fun x => x.regex.compiled

end TracedText.Regex
