import TracedText.Proofs.Thinning

/-!
# Properties that parts inherit

No operation makes an excerpt anew. Those that a buffer holds after it are excerpts that were
there, excerpts that were put in, and what cuts leave of either. So a property of excerpts that
cuts keep lasts through all operations, as long as what is put in has it. This needs no order of
the positions: an edit whose start is after its stop keeps parts that overlap, but parts they are.

One such property is that words of 64 bits hold all positions of an excerpt. In buffers whose
excerpts are of this kind no sum of source positions leaves such words.
-/
namespace TracedText

variable {δ : Type} {Q : Excerpt δ → Prop} {ps qs : List (Piece δ)}

/-- A property that a cut at either end keeps. -/
structure Hereditary (Q : Excerpt δ → Prop) : Prop where
  take : ∀ x n, Q x → Q (x.take n)
  drop : ∀ x n, Q x → Q (x.drop n)

/-- All excerpts among the pieces have the property. -/
def EachExcerpt (Q : Excerpt δ → Prop) (ps : List (Piece δ)) : Prop := ∀ x ∈ excerpts ps, Q x

instance [DecidablePred Q] : Decidable (EachExcerpt Q ps) :=
  inferInstanceAs (Decidable (∀ x ∈ excerpts ps, Q x))

namespace EachExcerpt

theorem append (hps : EachExcerpt Q ps) (hqs : EachExcerpt Q qs) : EachExcerpt Q (ps ++ qs) := by
  intro x hx
  rw [excerpts_append] at hx
  exact (List.mem_append.mp hx).elim (hps x) (hqs x)

theorem mono (h : qs ⊆ ps) (hps : EachExcerpt Q ps) : EachExcerpt Q qs :=
  fun x hx => hps x (mem_excerpts.mpr (h (mem_excerpts.mp hx)))

theorem congr (h : excerpts qs = excerpts ps) (hps : EachExcerpt Q ps) : EachExcerpt Q qs :=
  fun x hx => hps x (h ▸ hx)

end EachExcerpt

namespace Hereditary

variable (hQ : Hereditary Q) (hps : EachExcerpt Q ps)
include hQ hps

theorem singleton_take {p : Piece δ} (hp : p ∈ ps) (n : Nat) : EachExcerpt Q [p.take n] := by
  intro y hy
  cases p with
  | bare t => cases hy
  | located x =>
    obtain rfl : y = x.take n := List.mem_singleton.mp hy
    exact hQ.take x n (hps x (mem_excerpts.mpr hp))

theorem singleton_drop {p : Piece δ} (hp : p ∈ ps) (n : Nat) : EachExcerpt Q [p.drop n] := by
  intro y hy
  cases p with
  | bare t => cases hy
  | located x =>
    obtain rfl : y = x.drop n := List.mem_singleton.mp hy
    exact hQ.drop x n (hps x (mem_excerpts.mpr hp))

theorem front (e : Edit δ) : EachExcerpt Q (e.front ps) := by
  refine (hps.mono (List.take_subset _ _)).append ?_
  rw [getElem?_placed]
  cases hp : ps[e.firstIndex ps]? with
  | none => exact fun x hx => nomatch hx
  | some p =>
    exact (hQ.singleton_take hps (List.mem_of_getElem? hp) _).mono (e.head_sublist _ p).subset

theorem back (e : Edit δ) : EachExcerpt Q (e.back ps) := by
  refine EachExcerpt.append ?_ (hps.mono (List.drop_subset _ _))
  rw [getElem?_placed]
  cases hp : ps[e.lastIndex ps]? with
  | none => exact fun x hx => nomatch hx
  | some p =>
    exact (hQ.singleton_drop hps (List.mem_of_getElem? hp) _).mono (e.tail_sublist _ p).subset

/-- An edit, whatever its positions are. -/
theorem applyTo {e : Edit δ} (hnew : EachExcerpt Q e.new) : EachExcerpt Q (e.applyTo ps) := by
  by_cases h : ps = []
  · subst h
    refine hnew.congr ?_
    rw [excerpts_eq_flatMap, excerpts_eq_flatMap]
    exact e.flatMap_applyTo_nil seamless_excerpt?
  · refine (((hQ.front hps e).append hnew).append (hQ.back hps e)).congr ?_
    rw [excerpts_append, excerpts_append]
    simp only [excerpts_eq_flatMap]
    exact e.flatMap_applyTo seamless_excerpt? h

theorem splice {e : SourceEdit δ} {i : Nat} {x : Excerpt δ} (hi : ps[i]? = some (.located x))
    (hnew : EachExcerpt Q e.new) :
    EachExcerpt Q (((e.splice (i, x)).widen ps).applyTo ps) := by
  have hx := List.mem_of_getElem? hi
  have hhead : EachExcerpt Q (e.head x) :=
    (hQ.singleton_take hps hx _).mono (e.head_sublist x).subset
  have htail : EachExcerpt Q (e.tail x) :=
    (hQ.singleton_drop hps hx _).mono (sublist_singleton _).subset
  have hfront := (hps.mono (List.take_subset i ps)).append hhead
  have hback := htail.append (hps.mono (List.drop_subset (i + 1) ps))
  refine ((hfront.append hnew).append hback).congr ?_
  rw [excerpts_append, excerpts_append]
  simp only [excerpts_eq_flatMap]
  exact SourceEdit.flatMap_splice seamless_excerpt? i

end Hereditary

variable {P : Piece δ → Prop}

/-- Whatever operations put in pieces with `P`, all excerpts keep a property that parts inherit. -/
theorem Hereditary.kept (hQ : Hereditary Q) (hP : ∀ x, P (.located x) → Q x) :
    Kept (fun _ => True) P (fun b => EachExcerpt Q b.pieces) := by
  have hnew {ps : List (Piece δ)} (h : ∀ p ∈ ps, P p) : EachExcerpt Q ps :=
    fun x hx => hP x (h _ (mem_excerpts.mp hx))
  have hone {p : Piece δ} (hp : P p) : EachExcerpt Q [p] :=
    hnew fun q hq => List.mem_singleton.mp hq ▸ hp
  refine ⟨fun _ _ => trivial, fun b e _ h hb => hQ.applyTo hb (hnew h), fun b e h hb => ?_,
    fun b p hp hb => hb.append (hone hp), fun b p hp hb => (hone hp).append hb⟩
  cases hdone : (b.replaceSource e).1 with
  | false => rwa [b.replaceSource_of_eq_false e hdone]
  | true =>
    obtain ⟨-, i, x, htarget, hout⟩ := b.replaceSource_of_eq_true e hdone
    rw [hout]
    exact hQ.splice hb (SourceEdit.getElem?_of_target? htarget).1 (hnew h)

/-- Both ends of the stretch of the source, and the start moved by any part of the text, are
positions that a word of 64 bits holds. -/
def Excerpt.FitsWords (x : Excerpt δ) : Prop :=
  x.span.start + x.length < UInt64.size ∧ x.span.stop < UInt64.size

theorem hereditary_fitsWords : Hereditary (Excerpt.FitsWords (δ := δ)) where
  take x n h := by
    have hstop := x.span_stop_take_le n
    simp only [Excerpt.FitsWords, Excerpt.length_take, Excerpt.span_start_take] at h ⊢
    omega
  drop x n h := by
    simp only [Excerpt.FitsWords, Excerpt.length_drop, Excerpt.span_start_drop,
      Excerpt.span_stop_drop] at h ⊢
    omega

/-- No operation adds source positions up to more than a word holds, unless it is given an excerpt
that does not fit. -/
theorem run_keeps_words {b b' : Buffer δ} (hb : EachExcerpt Excerpt.FitsWords b.pieces)
    (hP : ∀ x, P (.located x) → x.FitsWords) (h : Run (fun _ => True) P b b') :
    EachExcerpt Excerpt.FitsWords b'.pieces :=
  (hereditary_fitsWords.kept hP).run h hb

end TracedText
