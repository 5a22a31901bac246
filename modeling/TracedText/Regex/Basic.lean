import TracedText.Regex.CharSet

/-!
# Regular expressions

The order of alternatives, and the greediness of a repetition, say which match is preferred.
`concat`, `alternation` and `repetition` put expressions together in a simplified form: lists stand
flat, texts side by side are one text, alternatives of one character each are one set, and what all
alternatives begin with stands in front of them, once. The last of these shows: a front that can
match in several ways is tried in its preferred way with every alternative, before it is tried in
another way with the first.
-/
namespace TracedText

/-- A repetition without `most` has no upper bound. A group is told from others by its index. -/
inductive Regex
  | text (t : Text)
  | set (chars : CharSet)
  | textStart
  | textEnd
  | group (index : Nat) (body : Regex)
  | seq (first second : Regex)
  | alt (preferred other : Regex)
  | repeated (body : Regex) (least : Nat) (most : Option Nat) (greedy : Bool)
deriving DecidableEq

namespace Regex

def empty : Regex := text []

/-- Whether a match may hold no character at all. -/
def nullable : Regex → Bool
  | text t => t.isEmpty
  | set _ => false
  | textStart | textEnd => true
  | group _ r => r.nullable
  | seq a b => a.nullable && b.nullable
  | alt a b => a.nullable || b.nullable
  | repeated r least _ _ => least == 0 || r.nullable

/-- Whether no match holds a character. -/
def onlyEmpty : Regex → Bool
  | text t => t.isEmpty
  | set _ => false
  | textStart | textEnd => true
  | group _ r => r.onlyEmpty
  | seq a b => a.onlyEmpty && b.onlyEmpty
  | alt a b => a.onlyEmpty && b.onlyEmpty
  | repeated r _ _ _ => r.onlyEmpty

def ofSet (s : CharSet) : Regex :=
  match s.single? with
  | some c => text [c]
  | none => set s

def parts : Regex → List Regex
  | text t => if t.isEmpty then [] else [text t]
  | seq a b => a.parts ++ b.parts
  | r => [r]

def ofParts : List Regex → Regex
  | [] => empty
  | [r] => r
  | r :: rs => seq r (ofParts rs)

/-- Puts a part in front of others, as one with the first of them if both are texts. -/
def joinPart : Regex → List Regex → List Regex
  | text t, text u :: rs => text (t ++ u) :: rs
  | r, rs => r :: rs

def concat (rs : List Regex) : Regex := ofParts ((rs.flatMap parts).foldr joinPart [])

def branches : Regex → List Regex
  | alt a b => a.branches ++ b.branches
  | r => [r]

def ofBranches : List Regex → Regex
  | [] => set ⟨[]⟩
  | [r] => r
  | r :: rs => alt r (ofBranches rs)

def char? : Regex → Option Char
  | text [c] => some c
  | _ => none

def set? : Regex → Option CharSet
  | set s => some s
  | _ => none

/-- The set that holds what each of the alternatives holds, if all of them are single characters or
all of them are sets. -/
def mergedSet? (rs : List Regex) : Option CharSet :=
  match rs.mapM char? with
  | some cs => some (.ofChars cs)
  | none => (rs.mapM set?).map (·.foldl .union ⟨[]⟩)

/-- An alternation of branches that have no front in common. -/
def choice : List Regex → Regex
  | [r] => r
  | rs =>
    match mergedSet? rs with
    | some s => ofSet s
    | none => ofBranches rs

def commonFront : List Regex → List Regex → List Regex
  | a :: as, b :: bs => if a = b then a :: commonFront as bs else []
  | _, _ => []

/-- The parts that all branches begin with. A branch of a single part has no front. -/
def sharedFront (rs : List Regex) : List Regex :=
  match rs.map parts with
  | ps :: qs :: rest =>
    if (ps :: qs :: rest).any (·.length < 2) then [] else (qs :: rest).foldl commonFront ps
  | _ => []

def alternation (rs : List Regex) : Regex :=
  let rs := rs.flatMap branches
  match sharedFront rs with
  | [] => choice rs
  | front =>
    let rests := rs.map fun r => concat (r.parts.drop front.length)
    concat (front ++ [choice (rests.flatMap branches)])

/-- A body that matches no character need not be repeated. -/
def repetition (r : Regex) (least : Nat) (most : Option Nat) (greedy : Bool) : Regex :=
  let (least, most) :=
    if r.onlyEmpty then (min least 1, some (min (most.getD 1) 1)) else (least, most)
  if most = some 0 then empty
  else if least = 1 && most = some 1 then r
  else repeated r least most greedy

/-- Matches the text itself, character by character. -/
def ofLiteral (t : Text) : Regex := text t

theorem foldr_joinPart_chars (c : Char) (t : Text) :
    ((c :: t).map fun d => text [d]).foldr joinPart [] = [text (c :: t)] := by
  induction t generalizing c with
  | nil => rfl
  | cons d t ih => rw [List.map_cons, List.foldr_cons, ih]; rfl

theorem flatMap_parts_chars (t : Text) :
    (t.map fun c => text [c]).flatMap parts = t.map fun c => text [c] := by
  induction t with
  | nil => rfl
  | cons c t ih => rw [List.map_cons, List.flatMap_cons, ih]; rfl

theorem concat_chars (t : Text) : concat (t.map fun c => text [c]) = ofLiteral t := by
  rw [concat, flatMap_parts_chars]
  cases t with
  | nil => rfl
  | cons c t => rw [foldr_joinPart_chars]; rfl

end Regex

end TracedText
