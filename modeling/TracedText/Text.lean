/-!
# Texts and the two ways to measure them

A text is a list of characters, and positions in it count characters. Searches report their
matches in octets of the UTF-8 form instead, so this module also measures and cuts a text in
octets. A cut takes whole characters only: a position inside a character counts as the one
before that character.
-/
namespace TracedText

abbrev Text := List Char

structure Span where
  start : Nat
  stop : Nat
deriving DecidableEq

def Span.length (s : Span) : Nat := s.stop - s.start

/-- The number of octets in the UTF-8 form of a text. -/
def octetLength : Text → Nat
  | [] => 0
  | c :: t => c.utf8Size + octetLength t

/-- The characters that lie within the first `n` octets. -/
def takeOctets : Nat → Text → Text
  | _, [] => []
  | n, c :: t => if c.utf8Size ≤ n then c :: takeOctets (n - c.utf8Size) t else []

/-- What follows `takeOctets n`. -/
def dropOctets : Nat → Text → Text
  | _, [] => []
  | n, c :: t => if c.utf8Size ≤ n then dropOctets (n - c.utf8Size) t else c :: t

/-- The octet at which character `n` begins, or the end of the text where there are fewer. -/
def octetAt : Text → Nat → Nat
  | [], _ => 0
  | _ :: _, 0 => 0
  | c :: t, n + 1 => c.utf8Size + octetAt t n

/-- The part of a text that a span of octets covers. -/
def slice (t : Text) (s : Span) : Text := takeOctets s.length (dropOctets s.start t)

theorem takeOctets_append_dropOctets (n : Nat) (t : Text) :
    takeOctets n t ++ dropOctets n t = t := by
  induction t generalizing n with
  | nil => rfl
  | cons c t ih =>
    simp only [takeOctets, dropOctets]
    split
    · rw [List.cons_append, ih]
    · rfl

@[simp] theorem takeOctets_octetAt (t : Text) (n : Nat) :
    takeOctets (octetAt t n) t = t.take n := by
  induction t generalizing n with
  | nil => exact List.take_nil.symm
  | cons c t ih =>
    have hc := c.utf8Size_pos
    cases n with
    | zero => exact if_neg (Nat.not_le.mpr hc)
    | succ n =>
      rw [octetAt, takeOctets, if_pos (Nat.le_add_right _ _), Nat.add_sub_cancel_left, ih,
        List.take_succ_cons]

@[simp] theorem dropOctets_octetAt (t : Text) (n : Nat) :
    dropOctets (octetAt t n) t = t.drop n := by
  have h := takeOctets_append_dropOctets (octetAt t n) t
  rw [takeOctets_octetAt] at h
  exact List.append_cancel_left (h.trans (List.take_append_drop n t).symm)

theorem octetLength_append (t u : Text) : octetLength (t ++ u) = octetLength t + octetLength u := by
  induction t with
  | nil => simp only [List.nil_append, octetLength, Nat.zero_add]
  | cons c t ih => simp only [List.cons_append, octetLength, ih, Nat.add_assoc]

theorem takeOctets_octetLength (t u : Text) : takeOctets (octetLength t) (t ++ u) = t := by
  induction t with
  | nil =>
    cases u with
    | nil => rfl
    | cons c u =>
      have := c.utf8Size_pos
      simp only [List.nil_append, octetLength, takeOctets]
      rw [if_neg (by omega)]
  | cons c t ih =>
    simp only [List.cons_append, octetLength, takeOctets]
    rw [if_pos (by omega), Nat.add_sub_cancel_left, ih]

theorem dropOctets_octetLength (t u : Text) : dropOctets (octetLength t) (t ++ u) = u :=
  List.append_cancel_left
    ((congrArg (· ++ _) (takeOctets_octetLength t u)).symm.trans
      (takeOctets_append_dropOctets (octetLength t) (t ++ u)))

end TracedText
