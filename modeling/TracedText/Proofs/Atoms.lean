import TracedText.Proofs.Cut
import TracedText.Proofs.NormalForm

/-!
# Atoms

The atoms of a list are its excerpts as they are and its bare text character by character. They
forget how bare text is divided and nothing else: coalescing puts them together again, so two
coalesced lists with the same atoms are equal.

A position cuts an atom only when the atom is an excerpt. `upTo` and `onward` are what stays before
a position and after it. They go through a list from the front, without offsets, and work on any
list of pieces. Where empty pieces stand at the position, the place between them does not follow
from it. What stays before goes as far as it can. What stays after takes them all in too, unless
they are left to the other side, which an insertion does so as to keep them once. The last piece of
a list is never left to the other side.
-/
namespace TracedText

variable {δ : Type} {ps qs xs ys : List (Piece δ)}

/-- Bare text falls into single characters. -/
def Piece.atoms : Piece δ → List (Piece δ)
  | bare t => t.map fun c => bare [c]
  | located x => [located x]

def atoms (ps : List (Piece δ)) : List (Piece δ) := ps.flatMap Piece.atoms

theorem seamless_atoms : Seamless (Piece.atoms (δ := δ)) := fun _ _ => List.map_append

theorem atoms_append (ps qs : List (Piece δ)) : atoms (ps ++ qs) = atoms ps ++ atoms qs :=
  List.flatMap_append

theorem atoms_cons (p : Piece δ) (ps : List (Piece δ)) : atoms (p :: ps) = p.atoms ++ atoms ps :=
  List.flatMap_cons

theorem atoms_singleton (p : Piece δ) : atoms [p] = p.atoms := List.append_nil _

theorem totalLength_atoms (ps : List (Piece δ)) : totalLength (atoms ps) = totalLength ps := by
  rw [← length_flatten, ← length_flatten]
  apply congrArg List.length
  induction ps with
  | nil => rfl
  | cons p ps ih =>
    have hatoms : flatten p.atoms = p.text := by
      cases p with
      | bare t => simp [Piece.atoms, flatten, Piece.text, List.flatMap_map]
      | located x => exact List.append_nil _
    rw [atoms_cons, flatten_append, ih, hatoms]
    rfl

section Canonical

theorem joinCons_joinCons (c : Char) (t : Text) (ps : List (Piece δ)) :
    joinCons (.bare [c]) (joinCons (.bare t) ps) = joinCons (.bare (c :: t)) ps := by
  cases ps with
  | nil => rfl
  | cons p ps => cases p <;> rfl

theorem coalesce_bare_atoms (c : Char) (t : Text) (ps : List (Piece δ)) :
    coalesce ((Piece.bare (c :: t)).atoms ++ ps) = joinCons (.bare (c :: t)) (coalesce ps) := by
  induction t generalizing c with
  | nil => exact coalesce_cons _ _
  | cons d t ih =>
    exact (coalesce_cons _ _).trans ((congrArg _ (ih d)).trans (joinCons_joinCons ..))

theorem coalesce_atoms_append (ps qs : List (Piece δ)) :
    coalesce (atoms ps ++ qs) = coalesce (ps ++ qs) := by
  induction ps with
  | nil => rfl
  | cons p ps ih =>
    rw [atoms_cons, List.append_assoc, List.cons_append, coalesce_cons, ← ih]
    cases p with
    | located x => exact coalesce_cons _ _
    | bare t =>
      cases t with
      | nil => rfl
      | cons c t => exact coalesce_bare_atoms c t _

theorem coalesce_atoms (ps : List (Piece δ)) : coalesce (atoms ps) = coalesce ps := by
  have h := coalesce_atoms_append ps []
  rwa [List.append_nil, List.append_nil] at h

/-- A coalesced list is known by its atoms. -/
theorem Coalesced.eq_of_atoms (hp : Coalesced ps) (hq : Coalesced qs) (h : atoms ps = atoms qs) :
    ps = qs := by
  rw [← hp.coalesce_eq, ← hq.coalesce_eq, ← coalesce_atoms ps, ← coalesce_atoms qs, h]

end Canonical

/-- What stays before position `n`. -/
def upTo : Nat → List (Piece δ) → List (Piece δ)
  | _, [] => []
  | n, p :: ps =>
    if p.length ≤ n ∧ ps ≠ [] then p :: upTo (n - p.length) ps
    else if 0 < n then [p.take n] else []

/-- What stays after position `n`. When an edit `inserts`, empty pieces at `n` are left out. -/
def onward (inserts : Bool) : Nat → List (Piece δ) → List (Piece δ)
  | _, [] => []
  | n, p :: ps =>
    if n < p.length then p.drop n :: ps
    else if n = 0 ∧ (inserts = true → ps = []) then p :: ps
    else onward inserts (n - p.length) ps

section Cuts

variable {a b c d n : Nat} {p : Piece δ} {inserts : Bool}

theorem upTo_cons_of_le (hle : p.length ≤ n) (hps : ps ≠ []) :
    upTo n (p :: ps) = p :: upTo (n - p.length) ps := if_pos ⟨hle, hps⟩

theorem upTo_cons_of_not_le (h : ¬ (p.length ≤ n ∧ ps ≠ [])) :
    upTo n (p :: ps) = if 0 < n then [p.take n] else [] := if_neg h

theorem onward_cons_of_lt (h : n < p.length) : onward inserts n (p :: ps) = p.drop n :: ps :=
  if_pos h

theorem onward_cons_of_eq_zero (hp : p.length = 0) (hkeep : inserts = true → ps = []) :
    onward inserts 0 (p :: ps) = p :: ps := by
  rw [onward, if_neg (by omega), if_pos ⟨rfl, hkeep⟩]

theorem onward_cons_of_le (hle : p.length ≤ n) (hpass : n = 0 → inserts = true ∧ ps ≠ []) :
    onward inserts n (p :: ps) = onward inserts (n - p.length) ps := by
  rw [onward, if_neg (by omega), if_neg fun h => (hpass h.1).2 (h.2 (hpass h.1).1)]

theorem onward_false_zero (ps : List (Piece δ)) : onward false 0 ps = ps := by
  cases ps with
  | nil => rfl
  | cons p ps =>
    by_cases hp : p.length = 0
    · exact onward_cons_of_eq_zero hp fun h => absurd h Bool.false_ne_true
    · rw [onward_cons_of_lt (by omega), Piece.drop_zero]

theorem upTo_ne_nil (hn : 0 < n) (hps : ps ≠ []) : upTo n ps ≠ [] := by
  cases ps with
  | nil => exact absurd rfl hps
  | cons p ps =>
    unfold upTo
    rw [if_pos hn]
    split <;> exact List.cons_ne_nil _ _

theorem totalLength_upTo (n : Nat) (ps : List (Piece δ)) :
    totalLength (upTo n ps) = min n (totalLength ps) := by
  induction ps generalizing n with
  | nil => exact (Nat.min_zero n).symm
  | cons p ps ih =>
    by_cases hle : p.length ≤ n ∧ ps ≠ []
    · rw [upTo_cons_of_le hle.1 hle.2, totalLength, totalLength, ih]
      omega
    · have hshort : n ≤ p.length ∨ totalLength ps = 0 := by
        by_cases hps : ps = []
        · exact Or.inr (hps ▸ rfl)
        · exact Or.inl (Nat.le_of_not_le fun hn => hle ⟨hn, hps⟩)
      rw [upTo_cons_of_not_le hle]
      split
      · simp only [totalLength, Piece.length_take]
        omega
      · simp only [totalLength]
        omega

theorem upTo_append (h : totalLength xs ≤ n) (hys : ys ≠ []) :
    upTo n (xs ++ ys) = xs ++ upTo (n - totalLength xs) ys := by
  induction xs generalizing n with
  | nil => rfl
  | cons p xs ih =>
    simp only [totalLength] at h ⊢
    rw [List.cons_append, upTo_cons_of_le (by omega) (List.append_ne_nil_of_right_ne_nil xs hys),
      ih (by omega), Nat.sub_sub, List.cons_append]

theorem upTo_append_of_lt (h : n < totalLength xs) : upTo n (xs ++ ys) = upTo n xs := by
  induction xs generalizing n with
  | nil => exact absurd h (Nat.not_lt_zero n)
  | cons p xs ih =>
    simp only [totalLength] at h
    rw [List.cons_append]
    by_cases hle : p.length ≤ n
    · have hxs : xs ≠ [] := by
        rintro rfl
        simp only [totalLength] at h
        omega
      rw [upTo_cons_of_le hle (List.append_ne_nil_of_left_ne_nil hxs ys), upTo_cons_of_le hle hxs,
        ih (by omega)]
    · rw [upTo_cons_of_not_le fun h' => hle h'.1, upTo_cons_of_not_le fun h' => hle h'.1]

theorem upTo_upTo (h : a < c) (ps : List (Piece δ)) : upTo a (upTo c ps) = upTo a ps := by
  induction ps generalizing a c with
  | nil => rfl
  | cons p ps ih =>
    by_cases hc : p.length ≤ c ∧ ps ≠ []
    · rw [upTo_cons_of_le hc.1 hc.2]
      by_cases ha : p.length ≤ a
      · have hrest : upTo (c - p.length) ps ≠ [] := upTo_ne_nil (by omega) hc.2
        rw [upTo_cons_of_le ha hrest, upTo_cons_of_le ha hc.2, ih (by omega)]
      · rw [upTo_cons_of_not_le fun h' => ha h'.1, upTo_cons_of_not_le fun h' => ha h'.1]
    · have ha : ¬ (p.length ≤ a ∧ ps ≠ []) := fun h' => hc ⟨by omega, h'.2⟩
      rw [upTo_cons_of_not_le hc, if_pos (by omega), upTo_cons_of_not_le fun h' => h'.2 rfl,
        upTo_cons_of_not_le ha, Piece.take_take, Nat.min_eq_left (Nat.le_of_lt h)]

theorem onward_append (h : totalLength xs ≤ n)
    (hborder : totalLength xs = n → inserts = true ∧ ys ≠ []) :
    onward inserts n (xs ++ ys) = onward inserts (n - totalLength xs) ys := by
  induction xs generalizing n with
  | nil => rfl
  | cons p xs ih =>
    simp only [totalLength] at h hborder ⊢
    have hpass : n = 0 → inserts = true ∧ xs ++ ys ≠ [] := fun hn =>
      (hborder (by omega)).imp_right (List.append_ne_nil_of_right_ne_nil xs)
    rw [List.cons_append, onward_cons_of_le (by omega) hpass,
      ih (by omega) (fun heq => hborder (by omega)), Nat.sub_sub]

theorem onward_append_of_lt (h : n < totalLength xs) :
    onward inserts n (xs ++ ys) = onward inserts n xs ++ ys := by
  induction xs generalizing n with
  | nil => exact absurd h (Nat.not_lt_zero n)
  | cons p xs ih =>
    simp only [totalLength] at h
    rw [List.cons_append]
    by_cases hlt : n < p.length
    · rw [onward_cons_of_lt hlt, onward_cons_of_lt hlt, List.cons_append]
    have hxs : xs ≠ [] := by
      rintro rfl
      exact hlt h
    have hall := List.append_ne_nil_of_left_ne_nil hxs ys
    by_cases hkeep : n = 0 ∧ inserts = false
    · obtain ⟨rfl, rfl⟩ := hkeep
      rw [onward_false_zero, onward_false_zero, List.cons_append]
    · have hins : n = 0 → inserts = true := fun hn => by simpa [hn] using hkeep
      rw [onward_cons_of_le (by omega) fun hn => ⟨hins hn, hall⟩,
        onward_cons_of_le (by omega) fun hn => ⟨hins hn, hxs⟩, ih (by omega)]

/-- With the empty pieces at the cut kept, the first of two lists is cut alone up to its very
end. -/
theorem onward_false_append (h : n ≤ totalLength xs) :
    onward false n (xs ++ ys) = onward false n xs ++ ys := by
  induction xs generalizing n with
  | nil =>
    rw [Nat.le_zero.mp h, onward_false_zero]
    rfl
  | cons p xs ih =>
    simp only [totalLength] at h
    rw [List.cons_append]
    by_cases hlt : n < p.length
    · rw [onward_cons_of_lt hlt, onward_cons_of_lt hlt, List.cons_append]
    · by_cases hn : n = 0
      · rw [hn, onward_false_zero, onward_false_zero, List.cons_append]
      · rw [onward_cons_of_le (by omega) (absurd · hn), onward_cons_of_le (by omega) (absurd · hn),
          ih (by omega)]

/-- What an edit leaves after its stop can be cut further on, as the list could. -/
theorem onward_onward (h : b < d) (inserts' : Bool) (ps : List (Piece δ)) :
    onward inserts' (d - b) (onward inserts b ps) = onward inserts' d ps := by
  induction ps generalizing b d with
  | nil => rfl
  | cons p ps ih =>
    by_cases hlt : b < p.length
    · have hlength : (p.drop b).length = p.length - b := p.length_drop b
      rw [onward_cons_of_lt hlt]
      by_cases hd : d < p.length
      · rw [onward_cons_of_lt (by omega), onward_cons_of_lt hd, Piece.drop_drop,
          Nat.add_sub_cancel' (Nat.le_of_lt h)]
      · rw [onward_cons_of_le (by omega) (by omega), onward_cons_of_le (by omega) (by omega),
          hlength, Nat.sub_sub, Nat.add_sub_cancel' (Nat.le_of_lt hlt)]
    -- An empty piece that the first cut keeps lies before the second one.
    by_cases hkeep : b = 0 ∧ (inserts = true → ps = [])
    · obtain ⟨rfl, hkeep⟩ := hkeep
      rw [onward_cons_of_eq_zero (by omega) hkeep, Nat.sub_zero]
    · have hpass : b = 0 → inserts = true ∧ ps ≠ [] := fun hb =>
        Classical.not_imp.mp fun h' => hkeep ⟨hb, h'⟩
      have hrest := ih (b := b - p.length) (d := d - p.length) (by omega)
      rw [Nat.sub_sub_sub_cancel_right (by omega)] at hrest
      rw [onward_cons_of_le (by omega) hpass, onward_cons_of_le (by omega) (by omega), hrest]

/-- It makes no difference at which end a list is cut first. -/
theorem upTo_onward (h : b < c) (inserts : Bool) (ps : List (Piece δ)) :
    upTo (c - b) (onward inserts b ps) = onward inserts b (upTo c ps) := by
  induction ps generalizing b c with
  | nil => rfl
  | cons p ps ih =>
    by_cases hlt : b < p.length
    · have hlength : (p.drop b).length = p.length - b := p.length_drop b
      rw [onward_cons_of_lt hlt]
      by_cases hc : p.length ≤ c ∧ ps ≠ []
      · rw [upTo_cons_of_le (by omega) hc.2, upTo_cons_of_le hc.1 hc.2, onward_cons_of_lt hlt,
          hlength, Nat.sub_sub, Nat.add_sub_cancel' (Nat.le_of_lt hlt)]
      · have hshort : b < (p.take c).length := by
          rw [Piece.length_take]
          omega
        rw [upTo_cons_of_not_le fun h' => hc ⟨by omega, h'.2⟩, upTo_cons_of_not_le hc,
          if_pos (by omega), if_pos (by omega), onward_cons_of_lt hshort,
          Piece.drop_take (Nat.le_of_lt h)]
    -- The cut at `c` lies past the last piece and changes nothing.
    by_cases hps : ps = []
    · subst hps
      have hempty : (p.take c).length = p.length := by
        rw [Piece.length_take]
        omega
      rw [upTo_cons_of_not_le fun h' => h'.2 rfl, if_pos (by omega)]
      by_cases hb : b = 0
      · subst hb
        rw [onward_cons_of_eq_zero (by omega) fun _ => rfl,
          onward_cons_of_eq_zero (by omega) fun _ => rfl,
          upTo_cons_of_not_le fun h' => h'.2 rfl, Nat.sub_zero, if_pos h]
      · rw [onward_cons_of_le (by omega) (absurd · hb), onward_cons_of_le (by omega) (absurd · hb)]
        rfl
    · have hrest : upTo (c - p.length) ps ≠ [] := upTo_ne_nil (by omega) hps
      rw [upTo_cons_of_le (by omega) hps]
      by_cases hkeep : b = 0 ∧ inserts = false
      · obtain ⟨rfl, rfl⟩ := hkeep
        rw [onward_false_zero, onward_false_zero, Nat.sub_zero, upTo_cons_of_le (by omega) hps]
      · have hins : b = 0 → inserts = true := fun hb => by simpa [hb] using hkeep
        have hcut := ih (b := b - p.length) (c := c - p.length) (by omega)
        rw [Nat.sub_sub_sub_cancel_right (by omega)] at hcut
        rw [onward_cons_of_le (by omega) fun hb => ⟨hins hb, hps⟩,
          onward_cons_of_le (by omega) fun hb => ⟨hins hb, hrest⟩, hcut]

/-- As `upTo_onward`, where nothing lies between the two cuts but empty pieces. -/
theorem upTo_zero_onward (b : Nat) (ps : List (Piece δ)) :
    upTo 0 (onward false b ps) = onward false b (upTo b ps) := by
  induction ps generalizing b with
  | nil => rfl
  | cons p ps ih =>
    by_cases hb : b = 0
    · rw [hb, onward_false_zero, onward_false_zero]
    by_cases hlt : b < p.length
    · have hlength : (p.take b).length = b := by
        rw [Piece.length_take]
        omega
      rw [onward_cons_of_lt hlt, upTo_cons_of_not_le (by rw [p.length_drop]; omega),
        upTo_cons_of_not_le (by omega), if_neg (Nat.lt_irrefl 0), if_pos (by omega),
        onward_cons_of_le (by omega) (absurd · hb)]
      rfl
    rw [onward_cons_of_le (by omega) (absurd · hb)]
    by_cases hps : ps = []
    · have hlength : (p.take b).length = p.length := by
        rw [Piece.length_take]
        omega
      rw [hps, upTo_cons_of_not_le fun h => h.2 rfl, if_pos (by omega),
        onward_cons_of_le (by omega) (absurd · hb)]
      rfl
    · rw [upTo_cons_of_le (by omega) hps, onward_cons_of_le (by omega) (absurd · hb), ih]

theorem totalLength_onward (n : Nat) (ps : List (Piece δ)) :
    totalLength (onward inserts n ps) = totalLength ps - n := by
  induction ps generalizing n with
  | nil => exact (Nat.zero_sub n).symm
  | cons p ps ih =>
    unfold onward
    split
    · simp only [totalLength, Piece.length_drop]
      omega
    · split
      next h => rw [h.1, Nat.sub_zero]
      next h =>
        rw [ih, totalLength]
        omega

end Cuts

end TracedText
