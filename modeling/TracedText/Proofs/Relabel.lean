import TracedText.Proofs.Agreement
import TracedText.Proofs.Hereditary

/-!
# Operations do not depend on what excerpts stand for

A relabelling changes the excerpts of a list, but not their texts. All that an edit by position
looks at are the lengths of the pieces and which of them are bare, and these stay. So to relabel
a buffer and then edit it is to edit it and then relabel it, as long as the parts of a
relabelled excerpt are the relabelled parts. Searches see the text alone, so the same holds of a
sweep when the replacer gives relabelled pieces.
-/
namespace TracedText

variable {σ δ : Type}

structure Relabeling (δ : Type) where
  excerpt : Excerpt δ → Excerpt δ
  text_excerpt : ∀ x, (excerpt x).text = x.text

namespace Relabeling

variable (f : Relabeling δ)

def piece : Piece δ → Piece δ
  | .bare t => .bare t
  | .located x => .located (f.excerpt x)

def pieces (ps : List (Piece δ)) : List (Piece δ) := ps.map f.piece

def splice (s : Splice δ) : Splice δ := ⟨s.first, s.past, f.pieces s.pieces⟩

def edit (e : Edit δ) : Edit δ := ⟨e.start, e.stop, f.pieces e.new⟩

def turn (u : Turn δ) : Turn δ := ⟨u.start, u.stop, u.shift, f.piece u.piece⟩

def buffer (b : Buffer δ) : Buffer δ := ⟨f.pieces b.pieces⟩

/-- The replacer that gives the relabelled pieces. -/
def replacer (r : Replacer σ δ) : Replacer σ δ := fun t => f.piece <$> r t

/-- The parts of the relabelled excerpt are the relabelled parts. -/
structure Respects (x : Excerpt δ) : Prop where
  take : ∀ n, f.excerpt (x.take n) = (f.excerpt x).take n
  drop : ∀ n, f.excerpt (x.drop n) = (f.excerpt x).drop n

section Layout

@[simp] theorem text_piece (p : Piece δ) : (f.piece p).text = p.text := by
  cases p with
  | bare t => rfl
  | located x => exact f.text_excerpt x

@[simp] theorem length_piece (p : Piece δ) : (f.piece p).length = p.length := by
  rw [Piece.length, text_piece, Piece.length]

theorem flatten_pieces (ps : List (Piece δ)) : flatten (f.pieces ps) = flatten ps := by
  simp only [flatten, pieces, List.flatMap_map, text_piece]

theorem totalLength_pieces (ps : List (Piece δ)) : totalLength (f.pieces ps) = totalLength ps := by
  rw [← length_flatten, flatten_pieces, length_flatten]

theorem offsetsFrom_pieces (start : Nat) (ps : List (Piece δ)) :
    offsetsFrom start (f.pieces ps) = offsetsFrom start ps := by
  induction ps generalizing start with
  | nil => rfl
  | cons p ps ih =>
    have hcons : f.pieces (p :: ps) = f.piece p :: f.pieces ps := rfl
    rw [hcons, offsetsFrom, length_piece, ih, offsetsFrom]

theorem offsets_pieces (ps : List (Piece δ)) : offsets (f.pieces ps) = offsets ps :=
  f.offsetsFrom_pieces 0 ps

theorem getElem?_pieces (ps : List (Piece δ)) (i : Nat) :
    (f.pieces ps)[i]? = ps[i]?.map f.piece := List.getElem?_map

theorem pieces_append (ps qs : List (Piece δ)) : f.pieces (ps ++ qs) = f.pieces ps ++ f.pieces qs :=
  List.map_append

theorem length_pieces (ps : List (Piece δ)) : (f.pieces ps).length = ps.length := List.length_map _

theorem take_pieces (n : Nat) (ps : List (Piece δ)) : (f.pieces ps).take n = f.pieces (ps.take n) :=
  List.map_take.symm

theorem drop_pieces (n : Nat) (ps : List (Piece δ)) : (f.pieces ps).drop n = f.pieces (ps.drop n) :=
  List.map_drop.symm

theorem lengthBefore_pieces (ps : List (Piece δ)) (i : Nat) :
    lengthBefore (f.pieces ps) i = lengthBefore ps i := by
  rw [lengthBefore, take_pieces, totalLength_pieces, lengthBefore]

end Layout

section Splicing

theorem isEmptyBare_piece (p : Piece δ) : (f.piece p).isEmptyBare = p.isEmptyBare := by
  cases p <;> rfl

theorem joinCons_pieces (p : Piece δ) (ps : List (Piece δ)) :
    joinCons (f.piece p) (f.pieces ps) = f.pieces (joinCons p ps) := by
  cases p with
  | located x => rfl
  | bare t =>
    cases ps with
    | nil => rfl
    | cons q ps => cases q <;> rfl

theorem coalesce_pieces (ps : List (Piece δ)) :
    coalesce (f.pieces ps) = f.pieces (coalesce ps) := by
  induction ps with
  | nil => rfl
  | cons p ps ih =>
    have hcons : f.pieces (p :: ps) = f.piece p :: f.pieces ps := rfl
    rw [hcons, coalesce_cons, coalesce_cons, isEmptyBare_piece, ih, joinCons_pieces]
    split <;> rfl

theorem bareAt_pieces (ps : List (Piece δ)) (i : Nat) :
    bareAt (f.pieces ps) i = f.pieces (bareAt ps i) := by
  rw [bareAt, getElem?_pieces, bareAt]
  cases ps[i]? with
  | none => rfl
  | some p => cases p <;> rfl

theorem bareBefore_pieces (ps : List (Piece δ)) (i : Nat) :
    bareBefore (f.pieces ps) i = f.pieces (bareBefore ps i) := by
  cases i with
  | zero => rfl
  | succ i => exact f.bareAt_pieces ps i

theorem applyTo_splice (s : Splice δ) (ps : List (Piece δ)) :
    ((f.splice s).widen (f.pieces ps)).applyTo (f.pieces ps) =
      f.pieces ((s.widen ps).applyTo ps) := by
  rw [Splice.applyTo_widen, Splice.applyTo_widen, bareBefore_pieces, bareAt_pieces]
  simp only [splice, length_pieces, ← pieces_append, coalesce_pieces, take_pieces, drop_pieces]

end Splicing

section Editing

variable {f} {e : Edit δ} {ps : List (Piece δ)} {p : Piece δ}

theorem piece_take (hp : ∀ x, p = .located x → f.Respects x) (n : Nat) :
    f.piece (p.take n) = (f.piece p).take n := by
  cases p with
  | bare t => rfl
  | located x => exact congrArg Piece.located ((hp x rfl).take n)

theorem piece_drop (hp : ∀ x, p = .located x → f.Respects x) (n : Nat) :
    f.piece (p.drop n) = (f.piece p).drop n := by
  cases p with
  | bare t => rfl
  | located x => exact congrArg Piece.located ((hp x rfl).drop n)

theorem piece_dropFrom (hp : ∀ x, p = .located x → f.Respects x) (cut : Int) :
    f.piece (p.dropFrom cut) = (f.piece p).dropFrom cut := by
  rw [Piece.dropFrom, Piece.dropFrom, length_piece, piece_drop hp]

theorem head_edit (e : Edit δ) (offset : Nat) (hp : ∀ x, p = .located x → f.Respects x) :
    (f.edit e).head (offset, f.piece p) = f.pieces (e.head (offset, p)) := by
  simp only [Edit.head, edit, ← piece_take hp]
  split <;> rfl

theorem tail_edit (e : Edit δ) (offset : Nat) (hp : ∀ x, p = .located x → f.Respects x) :
    (f.edit e).tail (offset, f.piece p) = f.pieces (e.tail (offset, p)) := by
  simp only [Edit.tail, edit, ← piece_drop hp, length_piece]
  split <;> rfl

theorem firstIndex_edit (f : Relabeling δ) (e : Edit δ) (ps : List (Piece δ)) :
    (f.edit e).firstIndex (f.pieces ps) = e.firstIndex ps := by
  rw [Edit.firstIndex, offsets_pieces]
  rfl

theorem lastIndex_edit (f : Relabeling δ) (e : Edit δ) (ps : List (Piece δ)) :
    (f.edit e).lastIndex (f.pieces ps) = e.lastIndex ps := by
  rw [Edit.lastIndex, offsets_pieces]
  rfl

/-- What is kept of the piece at a position, by one of the two cuts. -/
theorem elim_placed_pieces {kept kept' : Nat × Piece δ → List (Piece δ)}
    (h : ∀ offset, ∀ p ∈ ps, kept' (offset, f.piece p) = f.pieces (kept (offset, p))) (i : Nat) :
    (placed (f.pieces ps))[i]?.elim [] kept' = f.pieces ((placed ps)[i]?.elim [] kept) := by
  rw [getElem?_placed, getElem?_placed, getElem?_pieces, lengthBefore_pieces]
  cases hi : ps[i]? with
  | none => rfl
  | some p => exact h _ p (List.mem_of_getElem? hi)

theorem applyTo_edit (hps : EachExcerpt f.Respects ps) :
    (f.edit e).applyTo (f.pieces ps) = f.pieces (e.applyTo ps) := by
  have hcut : ∀ p ∈ ps, ∀ x, p = .located x → f.Respects x := by
    rintro p hp x rfl
    exact hps x (mem_excerpts.mpr hp)
  have hempty : (f.pieces ps).isEmpty = ps.isEmpty := by cases ps <;> rfl
  have hsplice : (f.edit e).splice (f.pieces ps) = f.splice (e.splice ps) := by
    rw [Edit.splice, Edit.splice, hempty, firstIndex_edit, lastIndex_edit]
    split
    · rfl
    · rw [Edit.pieces, firstIndex_edit, lastIndex_edit,
        elim_placed_pieces fun o p hp => head_edit e o (hcut p hp),
        elim_placed_pieces fun o p hp => tail_edit e o (hcut p hp)]
      simp only [edit, splice, Edit.pieces, pieces_append]
  rw [Edit.applyTo, hsplice, applyTo_splice, Edit.applyTo]

end Editing

section Buffers

variable {f} {b : Buffer δ}

theorem text_buffer (f : Relabeling δ) (b : Buffer δ) : (f.buffer b).text = b.text :=
  f.flatten_pieces b.pieces

theorem length_buffer (f : Relabeling δ) (b : Buffer δ) : (f.buffer b).length = b.length :=
  f.totalLength_pieces b.pieces

theorem apply_edit (hb : EachExcerpt f.Respects b.pieces) (e : Edit δ) :
    (f.buffer b).apply (f.edit e) = f.buffer (b.apply e) :=
  congrArg Buffer.mk (applyTo_edit hb)

theorem tryApply_edit (hb : EachExcerpt f.Respects b.pieces) (e : Edit δ) :
    (f.buffer b).tryApply (f.edit e) = (b.tryApply e).map f.buffer := by
  have hcheck : (f.edit e).check (f.buffer b).length = e.check b.length := by
    rw [length_buffer]
    rfl
  rw [Buffer.tryApply, hcheck, apply_edit hb, Buffer.tryApply]
  cases e.check b.length <;> rfl

theorem growth_turn (f : Relabeling δ) (u : Turn δ) : (f.turn u).growth = u.growth := by
  simp only [Turn.growth, turn, length_piece]

/-- A replacer that gives relabelled pieces makes for relabelled turns. -/
theorem turns_replacer (f : Relabeling δ) (r : Replacer σ δ) (t : Text) (c : Cursor) (shift : Int)
    (ms : List Span) (a : σ) :
    turns (f.replacer r) t c shift ms a =
      ((turns r t c shift ms a).1.map f.turn, (turns r t c shift ms a).2) := by
  induction ms generalizing c shift a with
  | nil => rfl
  | cons m ms ih =>
    have hgiven :
        f.replacer r (slice t m) a = (f.piece (r (slice t m) a).1, (r (slice t m) a).2) := rfl
    have hgrowth (start stop : Nat) (p : Piece δ) :
        (⟨start, stop, shift, f.piece p⟩ : Turn δ).growth =
          (⟨start, stop, shift, p⟩ : Turn δ).growth :=
      f.growth_turn ⟨start, stop, shift, p⟩
    simp only [turns_cons, hgiven, hgrowth, ih, List.map_cons, turn]

variable {Q : Excerpt δ → Prop} (hQ : Hereditary Q) (hrespects : ∀ x, Q x → f.Respects x)
include hQ hrespects

theorem applyAll_turns {us : List (Turn δ)} (hb : EachExcerpt Q b.pieces)
    (hnew : ∀ u ∈ us, EachExcerpt Q [u.piece]) :
    (f.buffer b).applyAll ((us.map f.turn).map Turn.edit) =
      f.buffer (b.applyAll (us.map Turn.edit)) := by
  induction us generalizing b with
  | nil => rfl
  | cons u us ih =>
    have hstep := apply_edit (fun x hx => hrespects x (hb x hx)) u.edit
    have hnext : EachExcerpt Q (b.apply u.edit).pieces := hQ.applyTo hb (hnew u List.mem_cons_self)
    have hrest := ih hnext fun v hv => hnew v (List.mem_cons_of_mem u hv)
    rw [← hstep] at hrest
    exact hrest

variable (hb : EachExcerpt Q b.pieces) (s : Searcher) (r : Replacer σ δ) (a : σ)
include hb

theorem replaceFirst_replacer (hnew : ∀ u ∈ (b.firstTurns s r a).1, EachExcerpt Q [u.piece]) :
    (f.buffer b).replaceFirst s (f.replacer r) a =
      (b.replaceFirst s r a).map (Prod.map id f.buffer) id := by
  have hturns : (f.buffer b).firstTurns s (f.replacer r) a =
      ((b.firstTurns s r a).1.map f.turn, (b.firstTurns s r a).2) := by
    rw [Buffer.firstTurns, text_buffer]
    exact f.turns_replacer r b.text _ _ _ a
  have hout := applyAll_turns hQ hrespects hb hnew
  have hempty : ((b.firstTurns s r a).1.map f.turn).isEmpty = (b.firstTurns s r a).1.isEmpty := by
    cases (b.firstTurns s r a).1 <;> rfl
  rw [Buffer.replaceFirst_eq, hturns, hout, hempty, Buffer.replaceFirst_eq]
  rfl

theorem replaceAll_replacer (hnew : ∀ u ∈ (b.allTurns s r a).1, EachExcerpt Q [u.piece]) :
    (f.buffer b).replaceAll s (f.replacer r) a =
      (b.replaceAll s r a).map (Prod.map id f.buffer) id := by
  have hturns : (f.buffer b).allTurns s (f.replacer r) a =
      ((b.allTurns s r a).1.map f.turn, (b.allTurns s r a).2) := by
    rw [Buffer.allTurns, text_buffer]
    exact f.turns_replacer r b.text _ _ _ a
  have hout := applyAll_turns hQ hrespects hb hnew
  rw [Buffer.replaceAll_eq_turns, hturns, hout, List.length_map, Buffer.replaceAll_eq_turns]
  rfl

end Buffers

end Relabeling

end TracedText
