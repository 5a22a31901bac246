import Mathlib.Data.Set.Basic
import TracedText.Proofs.Fidelity

/-!
# What is gone from a source stays gone

A buffer covers a position of a source when the position lies in the stretch of one of its excerpts
of that source. The two parts of an excerpt that is cut lie in its stretch, so a list of excerpts
covers nothing new when it is thinned, and operations that put in nothing from the source do no more
than that. A source edit needs an excerpt that covers all of its positions. So it is refused as soon
as one of these is gone, and ever after.
-/
namespace TracedText

variable {δ : Type} {source : Option String}

/-- The positions that some excerpt stands for. -/
def covered (xs : List (Excerpt δ)) : Set Nat := {n | ∃ x ∈ xs, x.span.start ≤ n ∧ n < x.span.stop}

instance (xs : List (Excerpt δ)) (n : Nat) : Decidable (n ∈ covered xs) :=
  inferInstanceAs (Decidable (∃ x ∈ xs, x.span.start ≤ n ∧ n < x.span.stop))

theorem covered_mono {xs ys : List (Excerpt δ)} (h : ys ⊆ xs) : covered ys ⊆ covered xs := by
  rintro n ⟨y, hy, hn⟩
  exact ⟨y, h hy, hn⟩

theorem Thins.covered_subset {xs ys : List (Excerpt δ)} (h : Thins xs ys) :
    covered ys ⊆ covered xs := by
  cases h with
  | sublist h => exact covered_mono h.subset
  | split xs ys x hmn =>
    rintro k ⟨y, hy, hstart, hstop⟩
    have hwhole : x ∈ xs ++ x :: ys := List.mem_append_right xs List.mem_cons_self
    rcases List.mem_append.mp hy with hy | hy
    · exact ⟨y, List.mem_append_left _ hy, hstart, hstop⟩
    rcases List.mem_cons.mp hy with rfl | hy
    · rw [x.span_start_take] at hstart
      exact ⟨x, hwhole, hstart, Nat.lt_of_lt_of_le hstop (x.span_stop_take_le _)⟩
    rcases List.mem_cons.mp hy with rfl | hy
    · rw [x.span_start_drop] at hstart
      rw [x.span_stop_drop] at hstop
      exact ⟨x, hwhole, Nat.le_of_add_right_le hstart, hstop⟩
    · exact ⟨y, List.mem_append_right xs (List.mem_cons_of_mem x hy), hstart, hstop⟩

theorem Thinned.covered_subset {xs ys : List (Excerpt δ)} (h : Thinned xs ys) :
    covered ys ⊆ covered xs := by
  induction h with
  | refl => exact Set.Subset.refl _
  | tail _ hstep ih => exact hstep.covered_subset.trans ih

namespace Buffer

def covered (source : Option String) (b : Buffer δ) : Set Nat :=
  TracedText.covered (excerptsFrom source b.pieces)

instance (b : Buffer δ) (n : Nat) : Decidable (n ∈ b.covered source) :=
  inferInstanceAs (Decidable (n ∈ TracedText.covered (excerptsFrom source b.pieces)))

/-- The excerpt that a source edit acts on covers all of its positions. -/
theorem mem_covered_of_replaceSource {b : Buffer δ} {e : SourceEdit δ}
    (h : (b.replaceSource e).1 = true) {n : Nat} (hstart : e.start ≤ n) (hstop : n < e.stop) :
    n ∈ b.covered e.source := by
  obtain ⟨-, i, x, htarget, -⟩ := b.replaceSource_of_eq_true e h
  obtain ⟨hi, hin⟩ := SourceEdit.getElem?_of_target? htarget
  obtain ⟨hsource, hle, hge⟩ := SourceEdit.isWithin_iff.mp hin
  have hx : x ∈ excerptsFrom e.source b.pieces :=
    List.mem_filter.mpr ⟨mem_excerpts.mpr (List.mem_of_getElem? hi), beq_iff_eq.mpr hsource⟩
  exact ⟨x, hx, Nat.le_trans hle hstart, Nat.lt_of_lt_of_le hstop hge⟩

theorem replaceSource_of_not_mem_covered {b : Buffer δ} {e : SourceEdit δ} {n : Nat}
    (hstart : e.start ≤ n) (hstop : n < e.stop) (h : n ∉ b.covered e.source) :
    b.replaceSource e = (false, b) := by
  have hrefused : (b.replaceSource e).1 = false := by
    cases hdone : (b.replaceSource e).1 with
    | false => rfl
    | true => exact absurd (mem_covered_of_replaceSource hdone hstart hstop) h
  exact Prod.ext hrefused (b.replaceSource_of_eq_false e hrefused)

end Buffer

/-- Take any two buffers of a run that starts with a source text and puts in nothing from its
source. The later one covers no position of the source that the earlier one does not. A position
that is not covered makes all source edits over it fail, in the later one too. -/
theorem run_never_regains (t : Text) (source : Option String) {b b' : Buffer δ}
    (h : Run Edit.InOrder (fun p => p.isForeign source = true) (Buffer.ofSource t source) b)
    (h' : Run Edit.InOrder (fun p => p.isForeign source = true) b b') :
    b'.covered source ⊆ b.covered source ∧
      ∀ n ∉ b.covered source, ∀ e : SourceEdit δ, e.source = source → e.start ≤ n → n < e.stop →
        b'.replaceSource e = (false, b') := by
  have hfaithful := (faithful_kept t source).run h (faithful_ofSource t source)
  have hsubset : b'.covered source ⊆ b.covered source :=
    (thinned_run t source hfaithful h').covered_subset
  refine ⟨hsubset, ?_⟩
  rintro n hn e rfl hstart hstop
  exact Buffer.replaceSource_of_not_mem_covered hstart hstop fun hmem => hn (hsubset hmem)

/-- An edit by position takes two characters of the source out. A sweep puts text like theirs
back, and an excerpt of another source has their positions, but a source edit over one of them
still fails. One over a position that was never taken out does not. -/
theorem run_never_regains_refuses :
    let t : Text := ['a', 'b', 'c', 'd', 'e', 'f']
    let b : Buffer Nat := (Buffer.ofSource t (some "s")).apply ⟨1, 3, [.bare ['-']]⟩
    let b₁ := (b.replaceAll (.char '-') (.constant (.bare ['b', 'c'])) ()).1.2
    let b₂ := b₁.push (.located ⟨['b', 'c'], some "t", .offset 1, none⟩)
    Run Edit.InOrder (fun p => p.isForeign (some "s") = true) (Buffer.ofSource t (some "s")) b ∧
      Run Edit.InOrder (fun p => p.isForeign (some "s") = true) b b₂ ∧
      b₂.covered (some "s") ⊆ b.covered (some "s") ∧ 2 ∉ b.covered (some "s") ∧
      b₂.replaceSource ⟨some "s", 2, 4, [.bare ['!']]⟩ = (false, b₂) ∧
      (b₂.replaceSource ⟨some "s", 3, 4, [.bare ['!']]⟩).1 = true := by
  intro t b b₁ b₂
  have hrun : Run Edit.InOrder (fun p => p.isForeign (some "s") = true)
      (Buffer.ofSource t (some "s")) b :=
    Relation.ReflTransGen.single (.edit _ (by decide) (by decide))
  have hrun' : Run Edit.InOrder (fun p => p.isForeign (some "s") = true) b b₂ :=
    (Relation.ReflTransGen.single (.replaceAll _ _ _ (by decide))).tail (.push _ (by decide))
  have hgone : 2 ∉ b.covered (some "s") := by decide
  obtain ⟨hsubset, hrefused⟩ := run_never_regains t (some "s") hrun hrun'
  exact ⟨hrun, hrun', hsubset, hgone, hrefused 2 hgone _ rfl (by decide) (by decide), by decide⟩

end TracedText
