import TracedText.Search

/-!
# Searching with a matcher

A matcher says whether a text matches at its front, and how many characters of it do. A search
tries it at one position after the other. `firstFrom` stops at the first match. `allFrom` goes
on where a match ends, so that matches never overlap; an empty match right where the last one
ended is passed over.
-/
namespace TracedText

/-- Told whether the given text is preceded by nothing, gives the number of characters
that match at its front. -/
abbrev Matcher := Bool → Text → Option Nat

namespace Matcher

def literal (needle : Text) : Matcher :=
  fun _ t => if needle.isPrefixOf t then some needle.length else none

def spanAt (pos n : Nat) (t : Text) : Span := ⟨pos, pos + octetLength (t.take n)⟩

def firstFrom (m : Matcher) (atStart : Bool) (pos : Nat) : Text → Option Span
  | [] => (m atStart []).map (spanAt pos · [])
  | c :: t =>
    match m atStart (c :: t) with
    | some n => some (spanAt pos n (c :: t))
    | none => m.firstFrom false (pos + c.utf8Size) t

/-- All matches in a text that starts at octet `pos`. The match before goes on for `covered` more
characters; when there are none, `ended` tells whether it ends right here. -/
def allFrom (m : Matcher) (atStart : Bool) (pos covered : Nat) (ended : Bool) : Text → List Span
  | [] =>
    match m atStart [] with
    | some n => if ended then [] else [spanAt pos n []]
    | none => []
  | c :: t =>
    match covered with
    | k + 1 => m.allFrom false (pos + c.utf8Size) k ended t
    | 0 =>
      match m atStart (c :: t) with
      | some (n + 1) =>
        spanAt pos (n + 1) (c :: t) :: m.allFrom false (pos + c.utf8Size) n true t
      | some 0 =>
        (if ended then [] else [spanAt pos 0 (c :: t)]) ++
          m.allFrom false (pos + c.utf8Size) 0 false t
      | none => m.allFrom false (pos + c.utf8Size) 0 false t

end Matcher

def Searcher.ofMatcher (m : Matcher) : Searcher := ⟨m.firstFrom true 0, m.allFrom true 0 0 false⟩

end TracedText
