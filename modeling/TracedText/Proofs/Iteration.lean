import TracedText.Proofs.Boundary

/-!
# From match to match

Of the matches that start at a position one is preferred, and `stop?` tells where it stops. A
search for all matches takes the leftmost of those that are still ahead and resumes where it
stops. An empty match right where the last one stopped is passed over: the search resumes one
octet further on.

This rule leaves no choice. When all matches consist of whole characters, what it gives is in order
and apart, and of two matches that touch neither is empty.
-/
namespace TracedText

variable {t : Text} {stop? : Nat → Option Nat} {pos pos' q : Nat} {last last' : Option Nat}
  {s s' : Span} {ms ms' : List Span}

/-- What a search from a position has to find first. -/
def IsLeftmost (stop? : Nat → Option Nat) (pos : Nat) : Option Span → Prop
  | none => ∀ p, pos ≤ p → stop? p = none
  | some s =>
    pos ≤ s.start ∧ stop? s.start = some s.stop ∧ ∀ p, pos ≤ p → p < s.start → stop? p = none

/-- What a search has to find from `pos` on, when the last match stopped at `last`. -/
inductive Iterates (stop? : Nat → Option Nat) : Nat → Option Nat → List Span → Prop
  | done {pos : Nat} {last : Option Nat} (h : IsLeftmost stop? pos none) :
      Iterates stop? pos last []
  | step {pos : Nat} {last : Option Nat} {s : Span} {ms : List Span}
      (h : IsLeftmost stop? pos (some s)) (hnew : s.start = s.stop → last ≠ some s.stop)
      (hrest : Iterates stop? s.stop (some s.stop) ms) : Iterates stop? pos last (s :: ms)
  | skip {pos : Nat} {ms : List Span} (h : stop? pos = some pos)
      (hrest : Iterates stop? (pos + 1) (some pos) ms) : Iterates stop? pos (some pos) ms

/-- What a search finds in a text: spans of whole characters, in order and apart. Of two that touch
neither is empty. -/
structure IsSearchResult (t : Text) (ms : List Span) : Prop where
  wellFormed : IsMatchList t ms
  within : ∀ m ∈ ms, m.stop ≤ octetLength t
  clears : ms.Pairwise Span.Clears

/-- All matches consist of whole characters. -/
def WholeChars (t : Text) (stop? : Nat → Option Nat) : Prop :=
  ∀ p q, stop? p = some q → IsBoundary t p ∧ IsBoundary t q ∧ p ≤ q

namespace IsLeftmost

theorem start_le (h : IsLeftmost stop? pos (some s)) (hle : pos ≤ pos') (hq : stop? pos' = some q) :
    s.start ≤ pos' := by
  refine Nat.le_of_not_lt fun hlt => ?_
  have hnone := h.2.2 pos' hle hlt
  rw [hq] at hnone
  cases hnone

theorem of_stop? (h : stop? pos = some q) : IsLeftmost stop? pos (some ⟨pos, q⟩) :=
  ⟨Nat.le_refl pos, h, fun _ hp hlt => absurd hlt (Nat.not_lt.mpr hp)⟩

theorem eq_of_stop? (h : IsLeftmost stop? pos (some s)) (hq : stop? pos = some q) :
    s = ⟨pos, q⟩ := by
  obtain ⟨start, stop⟩ := s
  obtain rfl : start = pos := Nat.le_antisymm (h.start_le (Nat.le_refl pos) hq) h.1
  have hstop : stop = q := Option.some.inj (h.2.1.symm.trans hq)
  rw [hstop]

theorem unique {found found' : Option Span} (h : IsLeftmost stop? pos found)
    (h' : IsLeftmost stop? pos found') : found = found' := by
  match found, found', h, h' with
  | none, none, _, _ => rfl
  | none, some _, h, h' => exact absurd (h'.2.1.symm.trans (h _ h'.1)) nofun
  | some _, none, h, h' => exact absurd (h.2.1.symm.trans (h' _ h.1)) nofun
  | some ⟨a, b⟩, some ⟨a', b'⟩, h, h' =>
    obtain rfl : a = a' := Nat.le_antisymm (h.start_le h'.1 h'.2.1) (h'.start_le h.1 h.2.1)
    have hstop : b = b' := Option.some.inj (h.2.1.symm.trans h'.2.1)
    rw [hstop]

/-- Where nothing matches, a search may as well begin further on. -/
theorem of_clear {found : Option Span} (h : IsLeftmost stop? pos' found) (hle : pos ≤ pos')
    (hclear : ∀ p, pos ≤ p → p < pos' → stop? p = none) : IsLeftmost stop? pos found := by
  have hnone (p : Nat) (hp : pos ≤ p) (h' : pos' ≤ p → stop? p = none) : stop? p = none :=
    (Nat.lt_or_ge p pos').elim (hclear p hp) h'
  cases found with
  | none => exact fun p hp => hnone p hp (h p)
  | some s =>
    exact ⟨Nat.le_trans hle h.1, h.2.1, fun p hp hlt => hnone p hp fun hp' => h.2.2 p hp' hlt⟩

theorem of_none {found : Option Span} (h : IsLeftmost stop? (pos + 1) found)
    (hnone : stop? pos = none) : IsLeftmost stop? pos found := by
  refine h.of_clear (Nat.le_succ pos) fun p hp hlt => ?_
  obtain rfl : p = pos := Nat.le_antisymm (Nat.le_of_lt_succ hlt) hp
  exact hnone

end IsLeftmost

namespace Iterates

theorem unique (h : Iterates stop? pos last ms) (h' : Iterates stop? pos last ms') : ms = ms' := by
  induction h generalizing ms' with
  | done h =>
    cases h' with
    | done => rfl
    | step h' => exact absurd (h.unique h') nofun
    | skip h' => exact absurd (h'.symm.trans (h _ (Nat.le_refl _))) nofun
  | step h hnew _ ih =>
    cases h' with
    | done h' => exact absurd (h.unique h') nofun
    | step h' _ hrest' =>
      obtain rfl := Option.some.inj (h.unique h')
      rw [ih hrest']
    | skip h' =>
      obtain rfl := h.eq_of_stop? h'
      exact absurd rfl (hnew rfl)
  | skip h _ ih =>
    cases h' with
    | done h' => exact absurd (h.symm.trans (h' _ (Nat.le_refl _))) nofun
    | step h' hnew' =>
      obtain rfl := h'.eq_of_stop? h
      exact absurd rfl (hnew' rfl)
    | skip _ hrest' => exact ih hrest'

theorem isLeftmost_head? (h : Iterates stop? pos last ms) (hlast : last ≠ some pos) :
    IsLeftmost stop? pos ms.head? := by
  cases h with
  | done h => exact h
  | step h => exact h
  | skip => exact absurd rfl hlast

theorem of_clear (h : Iterates stop? pos' last ms) (hle : pos ≤ pos') (hlast : last ≠ some pos')
    (hclear : ∀ p, pos ≤ p → p < pos' → stop? p = none) : Iterates stop? pos last ms := by
  cases h with
  | done h => exact .done (h.of_clear hle hclear)
  | step h hnew hrest => exact .step (h.of_clear hle hclear) hnew hrest
  | skip => exact absurd rfl hlast

theorem of_none (h : Iterates stop? (pos + 1) last ms) (hlast : last ≠ some (pos + 1))
    (hnone : stop? pos = none) : Iterates stop? pos last ms := by
  refine h.of_clear (Nat.le_succ pos) hlast fun p hp hlt => ?_
  obtain rfl : p = pos := Nat.le_antisymm (Nat.le_of_lt_succ hlt) hp
  exact hnone

theorem stop?_of_mem (h : Iterates stop? pos last ms) (hs : s ∈ ms) :
    stop? s.start = some s.stop := by
  induction h with
  | done => exact absurd hs List.not_mem_nil
  | step h _ _ ih =>
    rcases List.mem_cons.mp hs with rfl | hs
    · exact h.2.1
    · exact ih hs
  | skip _ _ ih => exact ih hs

theorem of_stop? (h : stop? pos = some q) (hlt : pos < q)
    (hrest : Iterates stop? q (some q) ms) : Iterates stop? pos last (⟨pos, q⟩ :: ms) :=
  .step (.of_stop? h) (fun hempty => absurd hempty (Nat.ne_of_lt hlt)) hrest

theorem of_empty {ended : Bool} (h : stop? pos = some pos)
    (hended : ended = decide (last = some pos)) (hrest : Iterates stop? (pos + 1) (some pos) ms) :
    Iterates stop? pos last ((if ended then [] else [⟨pos, pos⟩]) ++ ms) := by
  cases ended with
  | true =>
    obtain rfl := of_decide_eq_true hended.symm
    exact .skip h hrest
  | false =>
    have hnew : last ≠ some pos := of_decide_eq_false hended.symm
    exact .step (.of_stop? h) (fun _ => hnew) (.skip h hrest)

variable (hwhole : WholeChars t stop?)
include hwhole

theorem le_start_of_mem (h : Iterates stop? pos last ms) (hs : s ∈ ms) : pos ≤ s.start := by
  induction h with
  | done => exact absurd hs List.not_mem_nil
  | step h _ _ ih =>
    rcases List.mem_cons.mp hs with rfl | hs
    · exact h.1
    · exact Nat.le_trans (Nat.le_trans h.1 (hwhole _ _ h.2.1).2.2) (ih hs)
  | skip _ _ ih => exact Nat.le_of_succ_le (ih hs)

/-- A match that touches the last one is not empty. -/
theorem start_lt_stop (h : Iterates stop? pos (some pos) ms) (hs : s ∈ ms)
    (hstart : s.start = pos) : s.start < s.stop := by
  have hstop := h.stop?_of_mem hs
  have hle := (hwhole _ _ hstop).2.2
  refine Nat.lt_of_le_of_ne hle fun hempty => ?_
  rw [hstart, ← hempty, hstart] at hstop
  -- The only way on from an empty match at the position leads past it.
  cases h with
  | done h => exact absurd (hstop.symm.trans (h _ (Nat.le_refl _))) nofun
  | step h hnew =>
    obtain rfl := h.eq_of_stop? hstop
    exact hnew rfl rfl
  | skip _ hrest =>
    have hahead := hrest.le_start_of_mem hwhole hs
    omega

theorem pairwise_clears (h : Iterates stop? pos last ms) : ms.Pairwise Span.Clears := by
  induction h with
  | done => exact .nil
  | step h _ hrest ih =>
    refine List.pairwise_cons.mpr ⟨fun s' hs' => ?_, ih⟩
    have hahead := hrest.le_start_of_mem hwhole hs'
    rcases Nat.lt_or_eq_of_le hahead with hgap | htouch
    · exact Or.inl hgap
    have hne' := hrest.start_lt_stop hwhole hs' htouch.symm
    refine Or.inr ⟨Nat.lt_of_le_of_ne (hwhole _ _ h.2.1).2.2 fun hempty => ?_, htouch, hne'⟩
    -- Of two matches that start at one place, one would not be the preferred one.
    have hstop := h.2.1
    rw [hempty, htouch, hrest.stop?_of_mem hs', Option.some.injEq] at hstop
    omega
  | skip _ _ ih => exact ih

theorem isSearchResult (h : Iterates stop? pos last ms) : IsSearchResult t ms where
  wellFormed :=
    { ordered := fun _ hs => (hwhole _ _ (h.stop?_of_mem hs)).2.2
      boundary := fun _ hs =>
        ⟨(hwhole _ _ (h.stop?_of_mem hs)).1, (hwhole _ _ (h.stop?_of_mem hs)).2.1⟩
      apart := (h.pairwise_clears hwhole).imp Span.Clears.stop_le }
  within _ hs := (hwhole _ _ (h.stop?_of_mem hs)).2.1.le_octetLength
  clears := h.pairwise_clears hwhole

end Iterates

end TracedText
