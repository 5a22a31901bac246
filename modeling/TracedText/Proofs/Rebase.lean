import TracedText.Proofs.Ancestry
import TracedText.Proofs.Relabel

/-!
# Moving a source along

When text is put in front of a source, all positions in it move by one amount. A buffer is moved
along by adding this amount to the places of all its excerpts from that source. Edits by
position, searches and source edits of other sources do not notice, and a source edit of this
source has to be moved too. Ends of ranges are what could go wrong, as an end that is cut below
zero stops there, and one that was moved before does not. No end of an excerpt that has room is
ever cut that far.

Words of 64 bits are another limit. An excerpt that fits them after it was moved did so
before, and so do all its parts, so in words everything holds of buffers and pieces that fit
after they were moved.
-/
namespace TracedText

variable {σ δ : Type} {source : Option String} {d : Nat}

namespace Place

def shift (d : Nat) : Place → Place
  | offset s => offset (s + d)
  | range s e => range (s + d) (e + d)

theorem span_shift (p : Place) (n : Nat) :
    (p.shift d).span n = ⟨(p.span n).start + d, (p.span n).stop + d⟩ := by
  cases p with
  | offset s => simp only [shift, span, Nat.add_right_comm]
  | range s e => rfl

theorem shift_dropFront (p : Place) (n : Nat) :
    (p.dropFront n).shift d = (p.shift d).dropFront n := by
  cases p <;> simp only [shift, dropFront, Nat.add_right_comm]

theorem shift_zero (p : Place) : p.shift 0 = p := by cases p <;> rfl

/-- The end of a range that is not cut below zero moves along. -/
theorem shift_dropBack {p : Place} {m n : Nat} (h : n ≤ (p.span m).stop) :
    (p.dropBack n).shift d = (p.shift d).dropBack n := by
  cases p with
  | offset s => rfl
  | range s e =>
    have hend : e - n + d = e + d - n := by
      simp only [span] at h
      omega
    simp only [shift, dropBack, hend]

end Place

/-- By how much positions in source `s` move. -/
def advance (source : Option String) (d : Nat) (s : Option String) : Nat :=
  if s = source then d else 0

theorem Excerpt.HasRoom.length_le_stop {x : Excerpt δ} (h : x.HasRoom) :
    x.length ≤ x.span.stop := by
  have hexcess := Excerpt.hasRoom_iff.mp h
  unfold Excerpt.excess at hexcess
  omega

/-- Room in one source. -/
def RoomIn (source : Option String) (x : Excerpt δ) : Prop := x.source = source → x.HasRoom

instance (source : Option String) : DecidablePred (RoomIn (δ := δ) source) := fun x =>
  inferInstanceAs (Decidable (x.source = source → x.HasRoom))

theorem hereditary_roomIn (source : Option String) : Hereditary (RoomIn (δ := δ) source) where
  take _ n h hs := ((h hs).take_descendsFrom n).hasRoom (h hs)
  drop x n h hs := (x.drop_descendsFrom n).hasRoom (h hs)

/-- Adds `d` to the places of all excerpts from one source. -/
def Relabeling.rebase (source : Option String) (d : Nat) : Relabeling δ where
  excerpt x := { x with place := x.place.shift (advance source d x.source) }
  text_excerpt _ := rfl

/-- The source edit that names the same characters of its source, with pieces
that are moved along. -/
def SourceEdit.rebase (source : Option String) (d : Nat) (e : SourceEdit δ) : SourceEdit δ :=
  ⟨e.source, e.start + advance source d e.source, e.stop + advance source d e.source,
    (Relabeling.rebase source d).pieces e.new⟩

namespace Relabeling

theorem respects_rebase {x : Excerpt δ} (h : RoomIn source x) :
    (rebase (δ := δ) source d).Respects x where
  take n := by
    have hplace : (x.place.dropBack (x.length - n)).shift (advance source d x.source) =
        (x.place.shift (advance source d x.source)).dropBack (x.length - n) := by
      by_cases hs : x.source = source
      · have hstop : x.length - n ≤ x.span.stop :=
          Nat.le_trans (Nat.sub_le _ _) (h hs).length_le_stop
        exact Place.shift_dropBack hstop
      · rw [advance, if_neg hs, Place.shift_zero, Place.shift_zero]
    exact congrArg (fun p => { x.take n with place := p }) hplace
  drop n := congrArg (fun p => { x.drop n with place := p })
    (x.place.shift_dropFront (min n x.length))

theorem span_rebase (x : Excerpt δ) :
    ((rebase source d).excerpt x).span =
      ⟨x.span.start + advance source d x.source, x.span.stop + advance source d x.source⟩ :=
  x.place.span_shift x.length

theorem fitsWords_of_rebase {x : Excerpt δ}
    (h : ((rebase source d).excerpt x).FitsWords) : x.FitsWords := by
  have hlength : ((rebase source d).excerpt x).length = x.length := rfl
  simp only [Excerpt.FitsWords, span_rebase, hlength] at h ⊢
  omega

end Relabeling

namespace SourceEdit

open Relabeling

variable {e : SourceEdit δ} {x : Excerpt δ} {ps : List (Piece δ)}

theorem isWithin_rebase (e : SourceEdit δ) (x : Excerpt δ) :
    (e.rebase source d).isWithin ((Relabeling.rebase source d).excerpt x) = e.isWithin x := by
  rw [Bool.eq_iff_iff, isWithin_iff, isWithin_iff, span_rebase]
  change (x.source = e.source ∧ x.span.start + advance source d x.source ≤
    e.start + advance source d e.source ∧ e.stop + advance source d e.source ≤
      x.span.stop + advance source d x.source) ↔ _
  refine and_congr_right fun hs => ?_
  rw [hs, Nat.add_le_add_iff_right, Nat.add_le_add_iff_right]

theorem target?_rebase (e : SourceEdit δ) (ps : List (Piece δ)) :
    (e.rebase source d).target? ((Relabeling.rebase source d).pieces ps) =
      (e.target? ps).map (Prod.map id (Relabeling.rebase source d).excerpt) := by
  rw [target?, pieces, List.zipIdx_map, List.findSome?_map, target?, List.map_findSome?]
  congr 1
  funext pi
  obtain ⟨p, i⟩ := pi
  cases p with
  | bare t => rfl
  | located x =>
    change (if (e.rebase source d).isWithin _ then _ else _) =
      Option.map _ (if e.isWithin x then _ else _)
    rw [isWithin_rebase]
    split <;> rfl

section Target

variable (hin : e.isWithin x = true) (hx : (Relabeling.rebase source d).Respects x)
include hin hx

theorem head_rebase : (e.rebase source d).head ((Relabeling.rebase source d).excerpt x) =
    (Relabeling.rebase source d).pieces (e.head x) := by
  obtain ⟨hs, -, -⟩ := isWithin_iff.mp hin
  have htake := piece_take (p := .located x) (fun y hy => Piece.located.inj hy ▸ hx)
    (e.start - x.span.start)
  simp only [head, span_rebase, SourceEdit.rebase, hs, Nat.add_sub_add_right,
    Nat.add_lt_add_iff_right]
  split
  · exact congrArg (fun p => [p]) htake.symm
  · rfl

theorem tail_rebase : (e.rebase source d).tail ((Relabeling.rebase source d).excerpt x) =
    (Relabeling.rebase source d).pieces (e.tail x) := by
  obtain ⟨hs, -, -⟩ := isWithin_iff.mp hin
  have hdrop := piece_dropFrom (p := .located x) (fun y hy => Piece.located.inj hy ▸ hx)
    (-↑(x.span.stop - e.stop))
  simp only [tail, span_rebase, SourceEdit.rebase, hs, Nat.add_sub_add_right,
    Nat.add_lt_add_iff_right]
  split
  · exact congrArg (fun p => [p]) hdrop.symm
  · rfl

end Target

theorem applyTo?_rebase (e : SourceEdit δ) (hps : EachExcerpt (RoomIn source) ps) :
    (e.rebase source d).applyTo? ((Relabeling.rebase source d).pieces ps) =
      (e.applyTo? ps).map (Relabeling.rebase source d).pieces := by
  have hord : (e.rebase source d).stop < (e.rebase source d).start ↔ e.stop < e.start :=
    Nat.add_lt_add_iff_right
  simp only [applyTo?, hord, target?_rebase]
  split
  · rfl
  · cases htarget : e.target? ps with
    | none => rfl
    | some target =>
      obtain ⟨i, x⟩ := target
      obtain ⟨hi, hin⟩ := getElem?_of_target? htarget
      have hx := respects_rebase (d := d) (hps x (mem_excerpts.mpr (List.mem_of_getElem? hi)))
      have hsplice : (e.rebase source d).splice (i, (Relabeling.rebase source d).excerpt x) =
          (Relabeling.rebase source d).splice (e.splice (i, x)) := by
        rw [splice, head_rebase hin hx, tail_rebase hin hx]
        simp only [SourceEdit.rebase, Relabeling.splice, splice, pieces_append]
      simp only [Option.map_some, Prod.map, id, hsplice, applyTo_splice]

end SourceEdit

namespace Buffer

open Relabeling

variable {b : Buffer δ}

theorem replaceSource_rebase (hb : EachExcerpt (RoomIn source) b.pieces) (e : SourceEdit δ) :
    ((rebase source d).buffer b).replaceSource (e.rebase source d) =
      (b.replaceSource e).map id (rebase source d).buffer := by
  have hout : ((rebase source d).buffer b).applySource? (e.rebase source d) =
      (b.applySource? e).map (rebase source d).buffer := by
    rw [applySource?, applySource?]
    change ((e.rebase source d).applyTo? ((rebase source d).pieces b.pieces)).map ofList = _
    rw [e.applyTo?_rebase hb, Option.map_map, Option.map_map]
    rfl
  rw [replaceSource, replaceSource, hout]
  cases b.applySource? e <;> rfl

/-- Positions in one source are moved by `d`, in a buffer and in all pieces that are put in. When
the excerpts from this source have room, every operation then has the same answer, and its outcome
is moved by `d` as well. A source edit of this source has to be moved too, and that of any other
stays. In words of 64 bits this holds of moved buffers, pieces and source edits that fit them. -/
theorem rebase_commutes (source : Option String) (d : Nat) {b : Buffer δ}
    (hb : EachExcerpt (RoomIn source) b.pieces) :
    (∀ e : Edit δ, ((rebase source d).buffer b).apply ((rebase source d).edit e) =
      (rebase source d).buffer (b.apply e)) ∧
    (∀ e : Edit δ, ((rebase source d).buffer b).tryApply ((rebase source d).edit e) =
      (b.tryApply e).map (rebase source d).buffer) ∧
    (∀ {σ : Type} (s : Searcher) (r : Replacer σ δ) (a : σ),
      (∀ u ∈ (b.firstTurns s r a).1, EachExcerpt (RoomIn source) [u.piece]) →
      ((rebase source d).buffer b).replaceFirst s ((rebase source d).replacer r) a =
        (b.replaceFirst s r a).map (Prod.map id (rebase source d).buffer) id) ∧
    (∀ {σ : Type} (s : Searcher) (r : Replacer σ δ) (a : σ),
      (∀ u ∈ (b.allTurns s r a).1, EachExcerpt (RoomIn source) [u.piece]) →
      ((rebase source d).buffer b).replaceAll s ((rebase source d).replacer r) a =
        (b.replaceAll s r a).map (Prod.map id (rebase source d).buffer) id) ∧
    (∀ e : SourceEdit δ, e.source = source →
      ((rebase source d).buffer b).replaceSource
        ⟨source, e.start + d, e.stop + d, (rebase source d).pieces e.new⟩ =
        (b.replaceSource e).map id (rebase source d).buffer) ∧
    (∀ e : SourceEdit δ, e.source ≠ source →
      ((rebase source d).buffer b).replaceSource
        ⟨e.source, e.start, e.stop, (rebase source d).pieces e.new⟩ =
        (b.replaceSource e).map id (rebase source d).buffer) := by
  have hrespects : ∀ x : Excerpt δ, RoomIn source x → (rebase source d).Respects x :=
    fun x => respects_rebase
  have hpieces : EachExcerpt (rebase source d).Respects b.pieces :=
    fun x hx => hrespects x (hb x hx)
  have hroom := hereditary_roomIn (δ := δ) source
  refine ⟨apply_edit hpieces, tryApply_edit hpieces, replaceFirst_replacer hroom hrespects hb,
    replaceAll_replacer hroom hrespects hb, fun e hs => ?_, fun e hs => ?_⟩
  · have hmoved := replaceSource_rebase (d := d) hb e
    rw [SourceEdit.rebase, advance, if_pos hs, hs] at hmoved
    exact hmoved
  · have hmoved := replaceSource_rebase (d := d) hb e
    rw [SourceEdit.rebase, advance, if_neg hs] at hmoved
    exact hmoved

/-- The range of the source that moves has an end past its text. That of the other one is
inverted, and its end stops at zero when the sweep cuts it. -/
theorem rebase_commutes_two_sources :
    let b : Buffer Nat := ⟨[.located ⟨['a', 'b', 'c'], some "s", .range 4 8, some 1⟩, .bare ['-'],
      .located ⟨['d', 'b', 'e'], none, .range 9 1, none⟩]⟩
    let r : Replacer Nat Nat := fun _ n => (.located ⟨['x', 'y'], some "s", .offset n, none⟩, n + 1)
    let f : Relabeling Nat := rebase (some "s") 10
    let out : Buffer Nat := ⟨[.located ⟨['a'], some "s", .range 14 16, some 1⟩,
      .located ⟨['x', 'y'], some "s", .offset 10, none⟩,
      .located ⟨['c'], some "s", .range 16 18, some 1⟩, .bare ['-'],
      .located ⟨['d'], none, .range 9 0, none⟩, .located ⟨['x', 'y'], some "s", .offset 11, none⟩,
      .located ⟨['e'], none, .range 11 1, none⟩]⟩
    let e : SourceEdit Nat := ⟨some "s", 5, 6, [.located ⟨['x'], some "s", .offset 2, none⟩]⟩
    let edited : Buffer Nat := ⟨[.located ⟨['a'], some "s", .range 14 16, some 1⟩,
      .located ⟨['x'], some "s", .offset 12, none⟩,
      .located ⟨['b', 'c'], some "s", .range 15 18, some 1⟩, .bare ['-'],
      .located ⟨['d', 'b', 'e'], none, .range 9 1, none⟩]⟩
    EachExcerpt (RoomIn (some "s")) b.pieces ∧
      (∀ u ∈ (b.allTurns (.char 'b') r 0).1, EachExcerpt (RoomIn (some "s")) [u.piece]) ∧
      (f.buffer b).replaceAll (.char 'b') (f.replacer r) 0 = ((2, out), 2) ∧
      (f.buffer b).replaceSource ⟨some "s", 15, 16, f.pieces e.new⟩ = (true, edited) := by
  intro b r f out e edited
  have hb : EachExcerpt (RoomIn (some "s")) b.pieces := by decide
  have hnew : ∀ u ∈ (b.allTurns (.char 'b') r 0).1, EachExcerpt (RoomIn (some "s")) [u.piece] := by
    decide
  obtain ⟨-, -, -, hall, hsource, -⟩ := rebase_commutes (some "s") 10 hb
  have hmoved : (b.replaceAll (.char 'b') r 0).map (Prod.map id f.buffer) id = ((2, out), 2) := by
    decide
  have hedited : (b.replaceSource e).map id f.buffer = (true, edited) := by decide
  exact ⟨hb, hnew, (hall (.char 'b') r 0 hnew).trans hmoved, (hsource e rfl).trans hedited⟩

end Buffer

end TracedText
