import TracedText.Piece

/-!
# Where each character comes from

The traced form of a list of pieces has one entry for every character of its text: the character,
and its origin if the piece is located. The origin of a character is the place of the piece that
holds this character alone, so cutting and joining pieces never changes it.
-/
namespace TracedText

variable {δ : Type}

structure Origin (δ : Type) where
  source : Option String
  data : Option δ
  place : Place
deriving DecidableEq

structure TracedChar (δ : Type) where
  char : Char
  origin : Option (Origin δ)
deriving DecidableEq

/-- The place of character `k` of a piece of `n` characters. -/
def Place.ofChar (n k : Nat) : Place → Place
  | offset s => offset (s + k)
  | range s e => range (s + k) (e - (n - 1 - k))

def Excerpt.origin (x : Excerpt δ) (k : Nat) : Origin δ :=
  ⟨x.source, x.data, x.place.ofChar x.length k⟩

def Piece.traced : Piece δ → List (TracedChar δ)
  | bare t => t.map fun c => ⟨c, none⟩
  | located x => x.text.mapIdx fun k c => ⟨c, some (x.origin k)⟩

def traced (ps : List (Piece δ)) : List (TracedChar δ) := ps.flatMap Piece.traced

theorem Piece.map_char_traced (p : Piece δ) : p.traced.map TracedChar.char = p.text := by
  cases p with
  | bare t => simp only [traced, text, List.map_map, Function.comp_def, List.map_id']
  | located x =>
    apply List.ext_getElem?
    intro i
    simp only [traced, text, List.getElem?_map, List.getElem?_mapIdx, Option.map_map,
      Function.comp_def, Option.map_id']

theorem map_char_traced (ps : List (Piece δ)) : (traced ps).map TracedChar.char = flatten ps := by
  simp only [traced, flatten, List.map_flatMap, Piece.map_char_traced]

theorem traced_append (ps qs : List (Piece δ)) : traced (ps ++ qs) = traced ps ++ traced qs :=
  List.flatMap_append

end TracedText
