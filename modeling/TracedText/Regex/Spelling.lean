import TracedText.Text

/-!
# Texts written as regular expressions

A text can be written as a regular expression that matches it and nothing else, character by
character: as they are, behind backslashes, or as sets of one member.
-/
namespace TracedText.Regex

/-- The characters that, standing by themselves, say something about others. -/
def signs : List Char := ['\\', '(', ')', '|', '[', '{', '*', '+', '?', '.', '^', '$']

def escaped? (c : Char) : Option Char :=
  if c = 'n' then some '\n'
  else if c.toNat < 128 && !c.isAlphanum && c != '<' && c != '>' then some c
  else none

/-- The ways to write a character that is to match itself. A set that has no backslash must not
begin with what would open another set or negate it. -/
inductive SpellsChar (c : Char) : Text → Prop
  | plain (h : c ∉ signs) : SpellsChar c [c]
  | escaped {d : Char} (h : escaped? d = some c) : SpellsChar c ['\\', d]
  | inSet (h : c ≠ '\\' ∧ c ≠ '[' ∧ c ≠ '^') : SpellsChar c ['[', c, ']']
  | escapedInSet {d : Char} (h : escaped? d = some c) : SpellsChar c ['[', '\\', d, ']']

inductive Spells : Text → Text → Prop
  | nil : Spells [] []
  | cons {c : Char} {t v w : Text} (hc : SpellsChar c v) (h : Spells t w) : Spells (c :: t) (v ++ w)

theorem exists_spellsChar (c : Char) : ∃ w, SpellsChar c w := by
  by_cases h : c ∈ signs
  · have hescape : signs.all (fun c => escaped? c == some c) = true := by decide
    exact ⟨_, .escaped (beq_iff_eq.mp (List.all_eq_true.mp hescape c h))⟩
  · exact ⟨_, .plain h⟩

theorem exists_spells (t : Text) : ∃ w, Spells t w := by
  induction t with
  | nil => exact ⟨[], .nil⟩
  | cons c t ih =>
    obtain ⟨v, hc⟩ := exists_spellsChar c
    obtain ⟨w, h⟩ := ih
    exact ⟨v ++ w, .cons hc h⟩

end TracedText.Regex
