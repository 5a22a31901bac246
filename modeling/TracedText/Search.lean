import TracedText.Text

/-!
# Searching a text

What is searched for may be a text, a single character or a regular expression. Each kind of pattern
has a search of its own for its first match and for all of them, and works out the spans of its
matches, in octets, in its own way. An engine for regular expressions is whatever compiles an
expression into two such searches; nothing is said here about how it does so.
-/
namespace TracedText

/-- Where a needle first stands in a text that starts at octet `pos`. -/
def occurrence? (needle : Text) (pos : Nat) : Text → Option Nat
  | [] => if needle.isEmpty then some pos else none
  | c :: t =>
    if needle.isPrefixOf (c :: t) then some pos else occurrence? needle (pos + c.utf8Size) t

/-- Where a needle stands in a text that starts at octet `pos`, with the part of the
text that is found there. The occurrence before goes on for `covered` more characters,
and none may overlap it. -/
def occurrences (needle : Text) (pos covered : Nat) : Text → List (Nat × Text)
  | [] => if needle.isEmpty then [(pos, [])] else []
  | c :: t =>
    match covered with
    | k + 1 => occurrences needle (pos + c.utf8Size) k t
    | 0 =>
      if needle.isPrefixOf (c :: t) then
        (pos, (c :: t).take needle.length) ::
          occurrences needle (pos + c.utf8Size) (needle.length - 1) t
      else occurrences needle (pos + c.utf8Size) 0 t

def charOccurrence? (c : Char) (pos : Nat) : Text → Option Nat
  | [] => none
  | d :: t => if d = c then some pos else charOccurrence? c (pos + d.utf8Size) t

def charOccurrences (c : Char) (pos : Nat) : Text → List (Nat × Text)
  | [] => []
  | d :: t =>
    if d = c then (pos, [d]) :: charOccurrences c (pos + d.utf8Size) t
    else charOccurrences c (pos + d.utf8Size) t

/-- Finds the first match in a text, and all of them in order. -/
structure Searcher where
  first? : Text → Option Span
  all : Text → List Span

structure CompiledRegex where
  find : Text → Option Span
  findIter : Text → List Span

/-- An engine refuses expressions that it cannot read or that would take too much room. -/
structure RegexEngine where
  compile? : Text → Option CompiledRegex

namespace Searcher

def literal (needle : Text) : Searcher where
  first? t := (occurrence? needle 0 t).map fun start => ⟨start, start + octetLength needle⟩
  all t := (occurrences needle 0 0 t).map fun (start, m) => ⟨start, start + octetLength m⟩

def string (s : String) : Searcher where
  first? t := (literal s.toList).first? t
  all t := (literal s.toList).all t

def char (c : Char) : Searcher where
  first? t := (charOccurrence? c 0 t).map fun start => ⟨start, start + c.utf8Size⟩
  all t := (charOccurrences c 0 t).map fun (start, m) => ⟨start, start + octetLength m⟩

def regex (r : CompiledRegex) : Searcher where
  first? t := r.find t
  all t := r.findIter t

def ref (s : Searcher) : Searcher where
  first? t := s.first? t
  all t := s.all t

end Searcher

end TracedText
