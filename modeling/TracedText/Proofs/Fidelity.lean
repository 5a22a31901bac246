import TracedText.Proofs.Thinning

/-!
# Surviving characters still name where they came from

A buffer is made from a source text, and operations in any number and order put in bare text and
excerpts of other sources. What the buffer then holds of its source are true quotes: each excerpt
is the text at the positions it names, and the positions of one excerpt come before those of the
next. A list of excerpts stays so when it is thinned, which is all that operations do to it.
-/
namespace TracedText

variable {δ : Type} {t : Text} {x : Excerpt δ} {xs ys : List (Excerpt δ)}

/-- The excerpt is the part of the text that starts at `o`. -/
def Excerpt.Reads (t : Text) (o : Nat) (x : Excerpt δ) : Prop :=
  o + x.length ≤ t.length ∧ x.text = (t.drop o).take x.length

/-- The excerpt is the part of the text that its offset names. -/
def Excerpt.Quotes (t : Text) (x : Excerpt δ) : Prop :=
  ∃ o, x.place = .offset o ∧ o + x.length ≤ t.length ∧ x.text = (t.drop o).take x.length

/-- All excerpts quote the text, and each one ends before the next starts. -/
structure Faithful (t : Text) (xs : List (Excerpt δ)) : Prop where
  quotes : ∀ x ∈ xs, x.Quotes t
  ascending : xs.Pairwise fun x y => x.span.stop ≤ y.span.start

namespace Excerpt

theorem Quotes.isExact (h : x.Quotes t) : x.IsExact := by
  obtain ⟨o, hplace, -⟩ := h
  exact isExact_of_offset hplace

theorem Quotes.span_start_le (h : x.Quotes t) : x.span.start ≤ x.span.stop := by
  rw [show x.span.stop = x.span.start + x.length from h.isExact]
  exact Nat.le_add_right _ _

/-- Text that was not cut yet. -/
theorem reads_self (x : Excerpt δ) : x.Reads x.text 0 :=
  ⟨Nat.le_of_eq (Nat.zero_add _), List.take_length.symm⟩

theorem Reads.take {o : Nat} (h : x.Reads t o) (n : Nat) : (x.take n).Reads t o := by
  obtain ⟨hle, htext⟩ := h
  refine ⟨?_, ?_⟩
  · rw [length_take]
    omega
  · rw [length_take, ← List.take_take, ← htext, text_take]

theorem Reads.drop {o : Nat} (h : x.Reads t o) (n : Nat) :
    (x.drop n).Reads t (o + min n x.length) := by
  obtain ⟨hle, htext⟩ := h
  refine ⟨?_, ?_⟩
  · rw [length_drop]
    omega
  · have hlength : x.length - min n x.length = x.length - n := by omega
    rw [length_drop, ← hlength, ← List.drop_drop, ← List.drop_take, ← htext, text_drop]
    exact List.drop_eq_drop_min

theorem Quotes.take (h : x.Quotes t) (n : Nat) : (x.take n).Quotes t := by
  obtain ⟨o, hplace, hreads⟩ := h
  exact ⟨o, place_take_of_offset hplace n, Reads.take hreads n⟩

theorem Quotes.drop (h : x.Quotes t) (n : Nat) : (x.drop n).Quotes t := by
  obtain ⟨o, hplace, hreads⟩ := h
  exact ⟨_, place_drop_of_offset hplace n, Reads.drop hreads n⟩

/-- Cutting in order leaves two stretches in order, inside the old one. -/
theorem Quotes.span_cut (h : x.Quotes t) {m n : Nat} (hmn : m ≤ n) :
    (x.take m).span.start = x.span.start ∧ (x.take m).span.stop ≤ (x.drop n).span.start ∧
      (x.drop n).span.stop = x.span.stop := by
  have hstart := x.span_start_take m
  have hstop := x.span_stop_drop n
  have htake := (h.take m).isExact
  have hdrop := (h.drop n).isExact
  have hexact := h.isExact
  simp only [IsExact, length_take, length_drop] at htake hdrop hexact
  omega

end Excerpt

namespace Faithful

theorem sublist (h : Faithful t xs) (hys : ys.Sublist xs) : Faithful t ys :=
  ⟨fun x hx => h.quotes x (hys.subset hx), h.ascending.sublist hys⟩

theorem split {m n : Nat} (h : Faithful t (xs ++ x :: ys)) (hmn : m ≤ n) :
    Faithful t (xs ++ x.take m :: x.drop n :: ys) := by
  have hx := h.quotes x (List.mem_append_right xs List.mem_cons_self)
  obtain ⟨hstart, hcut, hstop⟩ := hx.span_cut hmn
  have hfront := (hx.take m).span_start_le
  have hback := (hx.drop n).span_start_le
  obtain ⟨hxs, hrest, hbefore⟩ := List.pairwise_append.mp h.ascending
  obtain ⟨hafter, hys⟩ := List.pairwise_cons.mp hrest
  constructor
  · intro y hy
    rcases List.mem_append.mp hy with hy | hy
    · exact h.quotes y (List.mem_append_left _ hy)
    rcases List.mem_cons.mp hy with rfl | hy
    · exact hx.take m
    rcases List.mem_cons.mp hy with rfl | hy
    · exact hx.drop n
    · exact h.quotes y (List.mem_append_right xs (List.mem_cons_of_mem x hy))
  · refine List.pairwise_append.mpr ⟨hxs, List.pairwise_cons.mpr ⟨?_, List.pairwise_cons.mpr
      ⟨?_, hys⟩⟩, ?_⟩
    · intro y hy
      rcases List.mem_cons.mp hy with rfl | hy
      · exact hcut
      · have hnext := hafter y hy
        omega
    · intro y hy
      have hnext := hafter y hy
      omega
    · intro y hy z hz
      have hprev := hbefore y hy x List.mem_cons_self
      rcases List.mem_cons.mp hz with rfl | hz
      · omega
      rcases List.mem_cons.mp hz with rfl | hz
      · omega
      · exact hbefore y hy z (List.mem_cons_of_mem x hz)

theorem thinned (h : Faithful t xs) (hthin : Thinned xs ys) : Faithful t ys := by
  induction hthin with
  | refl => exact h
  | tail _ hstep ih =>
    cases hstep with
    | sublist hsub => exact ih.sublist hsub
    | split xs ys x hmn => exact ih.split hmn

end Faithful

section Runs

variable (t : Text) (source : Option String)

theorem faithful_ofSource :
    Faithful t (excerptsFrom source (Buffer.ofSource (δ := δ) t source).pieces) := by
  have hone : Faithful (δ := δ) t [⟨t, source, .offset 0, none⟩] := by
    constructor
    · intro x hx
      rw [List.mem_singleton.mp hx]
      exact ⟨0, rfl, Excerpt.reads_self _⟩
    · exact List.pairwise_singleton _ _
  exact hone.sublist List.filter_sublist

/-- Whatever a list of true quotes is thinned to, operations only thin it further. -/
theorem thinned_kept {t : Text} {xs : List (Excerpt δ)} (hxs : Faithful t xs) :
    Kept Edit.InOrder (fun p => p.isForeign source = true)
      (fun b => Thinned xs (excerptsFrom source b.pieces)) where
  allows _ h := h
  edit b _ hord hnew hb := hb.trans (Edit.thinned_applyTo hord hnew b.pieces)
  source b e hnew hb :=
    hb.trans (b.thinned_replaceSource e hnew fun x hx => ((hxs.thinned hb).quotes x hx).isExact)
  push b p hp hb := by
    have hnil : excerptsFrom source [p] = [] :=
      excerptsFrom_eq_nil source fun q hq => List.mem_singleton.mp hq ▸ hp
    change Thinned xs (excerptsFrom source (b.pieces ++ [p]))
    rwa [excerptsFrom_append, hnil, List.append_nil]
  pushFront b p hp hb := by
    have hnil : excerptsFrom source [p] = [] :=
      excerptsFrom_eq_nil source fun q hq => List.mem_singleton.mp hq ▸ hp
    change Thinned xs (excerptsFrom source (p :: b.pieces))
    rwa [excerptsFrom_cons, hnil, List.nil_append]

theorem faithful_kept : Kept (δ := δ) Edit.InOrder (fun p => p.isForeign source = true)
    (fun b => Faithful t (excerptsFrom source b.pieces)) where
  allows _ h := h
  edit b e hord hnew hb :=
    hb.thinned ((thinned_kept source hb).edit b e hord hnew (Thinned.refl _))
  source b e hnew hb := hb.thinned ((thinned_kept source hb).source b e hnew (Thinned.refl _))
  push b p hp hb := hb.thinned ((thinned_kept source hb).push b p hp (Thinned.refl _))
  pushFront b p hp hb := hb.thinned ((thinned_kept source hb).pushFront b p hp (Thinned.refl _))

theorem thinned_run {b b' : Buffer δ}
    (hxs : Faithful t (excerptsFrom source b.pieces))
    (h : Run Edit.InOrder (fun p => p.isForeign source = true) b b') :
    Thinned (excerptsFrom source b.pieces) (excerptsFrom source b'.pieces) :=
  (thinned_kept source hxs).run h (Thinned.refl _)

/-- Whatever operations a buffer goes through after it was made from a source text, all it holds of
that source are quotes of the text, in ascending and disjoint stretches. -/
theorem run_faithful (b : Buffer δ)
    (h : Run Edit.InOrder (fun p => p.isForeign source = true) (Buffer.ofSource t source) b) :
    Faithful t (excerptsFrom source b.pieces) :=
  (faithful_kept t source).run h (faithful_ofSource t source)

/-- An edit by position, one by source position that leaves a range of another source, and
a sweep that deletes. -/
theorem run_faithful_three_steps :
    let t : Text := ['a', 'b', 'c', 'd', 'e', 'f']
    let b₁ : Buffer Nat := (Buffer.ofSource t (some "s")).apply ⟨1, 2, [.bare ['-', '-']]⟩
    let b₂ := (b₁.replaceSource ⟨some "s", 3, 4, [.located ⟨['x'], some "t", .range 5 2, none⟩]⟩).2
    let b₃ := (b₂.replaceAll (.char 'e') (.constant (.bare [])) ()).1.2
    Run Edit.InOrder (fun p => p.isForeign (some "s") = true) (Buffer.ofSource t (some "s")) b₃ ∧
      excerptsFrom (some "s") b₃.pieces = [⟨['a'], some "s", .offset 0, none⟩,
        ⟨['c'], some "s", .offset 2, none⟩, ⟨['f'], some "s", .offset 5, none⟩] ∧
      Faithful t (excerptsFrom (some "s") b₃.pieces) := by
  intro t b₁ b₂ b₃
  have hrun : Run Edit.InOrder (fun p => p.isForeign (some "s") = true)
      (Buffer.ofSource t (some "s")) b₃ :=
    ((Relation.ReflTransGen.single (.edit _ (by decide) (by decide))).tail
      (.sourceEdit _ (by decide))).tail (.replaceAll _ _ _ (by decide))
  exact ⟨hrun, by decide, run_faithful t (some "s") b₃ hrun⟩

end Runs

end TracedText
