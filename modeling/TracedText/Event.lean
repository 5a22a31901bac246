import TracedText.Sweep

/-!
# Events

What the operations of a buffer report about themselves. An edit reports the splice it becomes,
with the number of pieces before the splice is widened; on a buffer without pieces it reports
nothing. A sweep over all matches reports how many there were when it is done. A source edit
reports only that no piece contains it, and stays silent when its positions are out of order.
-/
namespace TracedText

variable {δ : Type}

inductive Level
  | trace
  | debug
deriving DecidableEq

def Level.label : Level → String
  | trace => "TRACE"
  | debug => "DEBUG"

inductive Event
  | spliced (start stop firstIndex lastIndex pieces : Nat)
  | replacedAll (count : Nat)
  | sourceMissed (start stop : Nat)
deriving DecidableEq

namespace Event

def level : Event → Level
  | spliced .. | sourceMissed .. => .trace
  | replacedAll _ => .debug

def message : Event → String
  | spliced .. => "splice segments"
  | replacedAll _ => "replaced all matches"
  | sourceMissed .. => "no segment contains source range"

/-- The numbers that belong to an event, with their names. -/
def fields : Event → List (String × Nat)
  | spliced start stop firstIndex lastIndex pieces =>
    [("start", start), ("end", stop), ("start_index", firstIndex), ("end_index", lastIndex),
      ("pieces", pieces)]
  | replacedAll count => [("matches", count)]
  | sourceMissed start stop => [("start", start), ("end", stop)]

end Event

namespace Buffer

def editEvents (b : Buffer δ) (e : Edit δ) : List Event :=
  if b.pieces.isEmpty then []
  else [.spliced e.start e.stop (e.firstIndex b.pieces) (e.lastIndex b.pieces)
    (e.pieces b.pieces).length]

/-- The events of edits that are carried out one after the other. -/
def editsEvents (b : Buffer δ) : List (Edit δ) → List Event
  | [] => []
  | e :: es => b.editEvents e ++ (b.apply e).editsEvents es

/-- The events of replacing all matches, given the turns. -/
def sweepEvents (b : Buffer δ) (us : List (Turn δ)) : List Event :=
  b.editsEvents (us.map Turn.edit) ++ [.replacedAll us.length]

def sourceEvents (b : Buffer δ) (e : SourceEdit δ) : List Event :=
  if e.start ≤ e.stop && (e.target? b.pieces).isNone then [.sourceMissed e.start e.stop] else []

end Buffer

end TracedText
