import Mathlib.Logic.Relation
import TracedText.Proofs.SweepTrace

/-!
# Runs of operations on a buffer

A step is one operation. Its kind of unchecked edits and of pieces put in is left open: `E`
says which positions unchecked edits may have, and `P` what the pieces are like. Sweeps come
down to edits in order, so an invariant only has to be looked at for edits, source edits and
the two ways of pushing.
-/
namespace TracedText

variable {σ δ : Type}

/-- Operations that put in pieces with `P`, and whose unchecked edits obey `E`. -/
inductive Step (E : Edit δ → Prop) (P : Piece δ → Prop) (b : Buffer δ) : Buffer δ → Prop
  | edit (e : Edit δ) (he : E e) (hnew : ∀ p ∈ e.new, P p) : Step E P b (b.apply e)
  | tryEdit (e : Edit δ) (hnew : ∀ p ∈ e.new, P p) : Step E P b ((b.tryApply e).toOption.getD b)
  | sourceEdit (e : SourceEdit δ) (hnew : ∀ p ∈ e.new, P p) : Step E P b (b.replaceSource e).2
  | replaceFirst {σ : Type} (s : Searcher) (r : Replacer σ δ) (a : σ)
      (hnew : ∀ u ∈ (b.firstTurns s r a).1, P u.piece) : Step E P b (b.replaceFirst s r a).1.2
  | replaceAll {σ : Type} (s : Searcher) (r : Replacer σ δ) (a : σ)
      (hnew : ∀ u ∈ (b.allTurns s r a).1, P u.piece) : Step E P b (b.replaceAll s r a).1.2
  | push (p : Piece δ) (hp : P p) : Step E P b (b.push p)
  | pushFront (p : Piece δ) (hp : P p) : Step E P b (b.pushFront p)

/-- Any number of steps, one after the other. -/
def Run (E : Edit δ → Prop) (P : Piece δ → Prop) : Buffer δ → Buffer δ → Prop :=
  Relation.ReflTransGen (Step E P)

/-- The start is not after the stop. -/
def Edit.InOrder (e : Edit δ) : Prop := e.start ≤ e.stop

instance (e : Edit δ) : Decidable e.InOrder := Nat.decLe _ _

theorem Cursor.le_charAt (c : Cursor) (t : Text) (n : Nat) : c.char ≤ c.charAt t n :=
  Nat.le_add_right _ _

theorem layTurns_in_order (t : Text) (c : Cursor) (shift : Int) (rs : List (Span × Piece δ)) :
    ∀ u ∈ layTurns t c shift rs, u.start ≤ u.stop := by
  induction rs generalizing c shift with
  | nil => exact fun u hu => (nomatch hu)
  | cons x rs ih =>
    intro u hu
    rcases List.mem_cons.mp hu with rfl | hu
    · exact Cursor.le_charAt ⟨x.1.start, c.charAt t x.1.start⟩ t x.1.stop
    · exact ih _ _ u hu

theorem Turn.inOrder_edit {u : Turn δ} (h : u.start ≤ u.stop) : u.edit.InOrder := by
  unfold Edit.InOrder Turn.edit
  dsimp only
  omega

theorem turns_in_order (r : Replacer σ δ) (t : Text) (ms : List Span) (a : σ) :
    ∀ u ∈ (turns r t ⟨0, 0⟩ 0 ms a).1, u.edit.InOrder := by
  rw [turns_eq_layTurns]
  exact fun u hu => Turn.inOrder_edit (layTurns_in_order t _ _ _ u hu)

/-- What has to be shown of a property of buffers for it to last through all runs. -/
structure Kept (E : Edit δ → Prop) (P : Piece δ → Prop) (I : Buffer δ → Prop) : Prop where
  allows : ∀ e : Edit δ, e.InOrder → E e
  edit : ∀ b e, E e → (∀ p ∈ e.new, P p) → I b → I (b.apply e)
  source : ∀ b e, (∀ p ∈ e.new, P p) → I b → I (b.replaceSource e).2
  push : ∀ b p, P p → I b → I (b.push p)
  pushFront : ∀ b p, P p → I b → I (b.pushFront p)

namespace Kept

variable {E : Edit δ → Prop} {P : Piece δ → Prop} {I : Buffer δ → Prop} (hkept : Kept E P I)
include hkept

theorem applyAll {b : Buffer δ} {us : List (Turn δ)} (hord : ∀ u ∈ us, u.edit.InOrder)
    (hnew : ∀ u ∈ us, P u.piece) (hb : I b) : I (b.applyAll (us.map Turn.edit)) := by
  induction us generalizing b with
  | nil => exact hb
  | cons u us ih =>
    apply ih (fun v hv => hord v (List.mem_cons_of_mem u hv))
      (fun v hv => hnew v (List.mem_cons_of_mem u hv))
    apply hkept.edit b u.edit (hkept.allows u.edit (hord u List.mem_cons_self)) _ hb
    intro p hp
    rw [List.mem_singleton.mp hp]
    exact hnew u List.mem_cons_self

theorem tryEdit {b : Buffer δ} (e : Edit δ) (hnew : ∀ p ∈ e.new, P p) (hb : I b) :
    I ((b.tryApply e).toOption.getD b) := by
  cases h : b.tryApply e with
  | error err => exact hb
  | ok b' =>
    obtain ⟨hord, -, rfl⟩ := (b.tryApply_eq_ok_iff b' e).mp h
    exact hkept.edit b e (hkept.allows e hord) hnew hb

theorem step {b b' : Buffer δ} (h : Step E P b b') (hb : I b) : I b' := by
  cases h with
  | edit e he hnew => exact hkept.edit b e he hnew hb
  | tryEdit e hnew => exact hkept.tryEdit e hnew hb
  | sourceEdit e hnew => exact hkept.source b e hnew hb
  | replaceFirst s r a hnew => exact hkept.applyAll (turns_in_order r b.text _ a) hnew hb
  | replaceAll s r a hnew => exact hkept.applyAll (turns_in_order r b.text _ a) hnew hb
  | push p hp => exact hkept.push b p hp hb
  | pushFront p hp => exact hkept.pushFront b p hp hb

theorem run {b b' : Buffer δ} (h : Run E P b b') (hb : I b) : I b' := by
  induction h with
  | refl => exact hb
  | tail _ hstep ih => exact hkept.step hstep ih

end Kept

end TracedText
