import TracedText.Regex.Basic
import TracedText.Regex.Matcher

/-!
# Matching by states

A regular expression becomes a graph of numbered states. A state either eats one character, or
leads on without one: straight, to the first of two states rather than the second, or only at an
end of the text. The search follows all ways through the graph at once and keeps the states it
stands in ordered by preference. Each state is entered once per position, by the most preferred way
to it; this also ends every walk around a loop that eats nothing. A way that reaches the accepting
state ends all less preferred ones, while the more preferred ones go on and may still replace it.
-/
namespace TracedText.Regex

inductive State
  | eat (chars : CharSet) (next : Nat)
  | pass (next : Nat)
  | fork (first second : Nat)
  | textStart (next : Nat)
  | textEnd (next : Nat)
  | accept
deriving DecidableEq

abbrev Graph := Array State

def size : Regex → Nat
  | text t => t.length + 1
  | set _ | textStart | textEnd => 1
  | group _ r => r.size
  | seq a b => a.size + b.size
  | alt a b => a.size + b.size + 1
  | repeated r least most _ =>
    match most with
    | some m => least * r.size + (m - least) * (r.size + 1) + 1
    | none =>
      if least = 0 then if r.nullable then r.size + 2 else r.size + 1 else least * r.size + 1

def loop (greedy : Bool) (again leave : Nat) : State :=
  if greedy then .fork again leave else .fork leave again

/-- The states of a part of the graph that is entered at number `here` and left for `next`.

A repetition is written out, one copy of its body after the other, as far as it is counted. Each
copy beyond the least number is an option within the one before it. Without an upper bound, the
last copy is a loop that asks after every round whether to go on; a body that may be left out
altogether is also asked for once before the first round, in a state of its own if an empty round
leads back to it. -/
def states : Regex → Nat → Nat → List State
  | text t, here, next =>
    (t.zipIdx.map fun (c, i) => .eat (.single c) (here + i + 1)) ++ [.pass next]
  | set s, _, next => [.eat s next]
  | textStart, _, next => [.textStart next]
  | textEnd, _, next => [.textEnd next]
  | group _ r, here, next => r.states here next
  | seq a b, here, next => a.states here (here + a.size) ++ b.states (here + a.size) next
  | alt a b, here, next =>
    .fork (here + 1) (here + 1 + a.size) ::
      (a.states (here + 1) next ++ b.states (here + 1 + a.size) next)
  | repeated r least most greedy, here, next =>
    let n := r.size
    let copies (count : Nat) : List State :=
      (List.range count).flatMap fun k => r.states (here + k * n) (here + k * n + n)
    match most with
    | some m =>
      let options := here + least * n
      let leave := options + (m - least) * (n + 1)
      copies least ++
        ((List.range (m - least)).flatMap fun k =>
          let fork := options + k * (n + 1)
          loop greedy (fork + 1) leave :: r.states (fork + 1) (fork + 1 + n)) ++
        [.pass next]
    | none =>
      if least = 0 then
        if r.nullable then
          loop greedy (here + 1) next ::
            (r.states (here + 1) (here + 1 + n) ++ [loop greedy (here + 1) next])
        else loop greedy (here + 1) next :: r.states (here + 1) here
      else copies least ++ [loop greedy (here + (least - 1) * n) next]

def graph (r : Regex) : Graph := (r.states 0 r.size ++ [State.accept]).toArray

namespace Graph

def onward (g : Graph) (atStart atEnd : Bool) (i : Nat) : List Nat :=
  match g[i]? with
  | some (.pass next) => [next]
  | some (.fork first second) => [first, second]
  | some (.textStart next) => if atStart then [next] else []
  | some (.textEnd next) => if atEnd then [next] else []
  | _ => []

/-- Enters the states of a list and all that they lead on to, each before the next of the
list and none twice. `entered` marks the states that have been entered, and `stand` lists
them, the last one first. -/
def enter (g : Graph) (atStart atEnd : Bool) :
    Nat → List Nat → Array Bool → List Nat → List Nat
  | 0, _, _, stand => stand
  | _, [], _, stand => stand
  | fuel + 1, i :: waiting, entered, stand =>
    if entered.getD i true then g.enter atStart atEnd fuel waiting entered stand
    else
      g.enter atStart atEnd fuel (g.onward atStart atEnd i ++ waiting)
        (entered.setIfInBounds i true) (i :: stand)

/-- All states that can be stood in at a position, by preference. A state is waited for once for
each of the `starts`, and at most twice for each state that leads on to it. -/
def reach (g : Graph) (atStart atEnd : Bool) (starts : List Nat) : List Nat :=
  (g.enter atStart atEnd (starts.length + 2 * g.size) starts (.replicate g.size false) []).reverse

def accepts (g : Graph) (i : Nat) : Bool := g[i]? == some .accept

def eat? (g : Graph) (c : Char) (i : Nat) : Option Nat :=
  match g[i]? with
  | some (.eat s next) => if s.contains c then some next else none
  | _ => none

/-- The states entered by eating a character. Those after an accepting state are dropped. -/
def advance (g : Graph) (c : Char) (stand : List Nat) : List Nat :=
  (stand.takeWhile (!g.accepts ·)).filterMap (g.eat? c)

/-- The length of the preferred match, when `eaten` characters have led to `starts` and `best` is
the preferred match so far. -/
def run (g : Graph) (atStart : Bool) (starts : List Nat) (eaten : Nat) (best : Option Nat) :
    Text → Option Nat
  | [] => if (g.reach atStart true starts).any g.accepts then some eaten else best
  | c :: t =>
    let stand := g.reach atStart false starts
    let best := if stand.any g.accepts then some eaten else best
    match g.advance c stand with
    | [] => best
    | next => g.run false next (eaten + 1) best t

def matcher (g : Graph) : Matcher := fun atStart t => g.run atStart [0] 0 none t

end TracedText.Regex.Graph
