import TracedText.Proofs.Atoms
import TracedText.Proofs.EditTrace

/-!
# What an edit does to the atoms

An edit finds its pieces by index. On the atoms of a list it can be said without indices: the atoms
up to its start stay, then come those of its new pieces, and then those from its stop onward. The
one difference between an edit that takes something out and one that only inserts lies in the empty
pieces at the stop. The list must hold text, and no empty bare piece, which the indices would see
and the atoms do not.
-/
namespace TracedText

variable {δ : Type} {ps : List (Piece δ)} {p : Piece δ} {i n : Nat} {inserts : Bool}

theorem Coalesced.isEmptyBare_eq_false (h : Coalesced ps) (hp : p ∈ ps) :
    p.isEmptyBare = false := by
  have hnone := List.countP_eq_zero.mp (coalesced_iff.mp h).2 p hp
  simpa only [Bool.not_eq_true] using hnone

theorem ne_nil_of_totalLength_pos (h : 0 < totalLength ps) : ps ≠ [] := by
  rintro rfl
  exact absurd h (Nat.lt_irrefl 0)

section PieceAtoms

theorem Piece.totalLength_atoms (p : Piece δ) : totalLength p.atoms = p.length := by
  rw [← atoms_singleton, TracedText.totalLength_atoms]
  rfl

theorem Piece.atoms_ne_nil (h : p.isEmptyBare = false) : p.atoms ≠ [] := by
  cases p with
  | located x => exact List.cons_ne_nil _ _
  | bare t =>
    rintro hnil
    rw [List.map_eq_nil_iff.mp hnil] at h
    cases h

theorem upTo_bare_atoms (n : Nat) (t : Text) :
    upTo n (Piece.bare (δ := δ) t).atoms = (Piece.bare (t.take n)).atoms := by
  induction t generalizing n with
  | nil =>
    rw [List.take_nil]
    rfl
  | cons c t ih =>
    cases n with
    | zero => rfl
    | succ n =>
      cases t with
      | nil =>
        have htake : [c].take (n + 1) = [c] := List.take_of_length_le (Nat.le_add_left 1 n)
        refine (upTo_cons_of_not_le fun h => h.2 rfl).trans ((if_pos (Nat.zero_lt_succ n)).trans ?_)
        rw [htake, Piece.take_bare, htake]
        rfl
      | cons d t =>
        exact (upTo_cons_of_le (Nat.le_add_left 1 n) (List.cons_ne_nil _ _)).trans
          (congrArg _ (ih n))

theorem upTo_atoms (n : Nat) (p : Piece δ) :
    upTo n p.atoms = atoms (if 0 < n then [p.take n] else []) := by
  cases p with
  | bare t =>
    rw [upTo_bare_atoms]
    split
    next h => rw [atoms_singleton, Piece.take_bare]
    next h =>
      rw [Nat.eq_zero_of_not_pos h]
      rfl
  | located x =>
    refine (upTo_cons_of_not_le fun h => h.2 rfl).trans ?_
    split <;> rfl

theorem onward_bare_atoms_append (n : Nat) (t : Text) (ps : List (Piece δ)) :
    onward inserts n ((Piece.bare t).atoms ++ ps) =
      if n < t.length then (Piece.bare (t.drop n)).atoms ++ ps
      else onward inserts (n - t.length) ps := by
  induction t generalizing n with
  | nil => rfl
  | cons c t ih =>
    cases n with
    | zero =>
      refine (onward_cons_of_lt Nat.zero_lt_one).trans ?_
      rw [Piece.drop_zero, List.drop_zero, List.length_cons, if_pos (Nat.zero_lt_succ _)]
      rfl
    | succ n =>
      refine (onward_cons_of_le (Nat.le_add_left 1 n) (absurd · (Nat.succ_ne_zero n))).trans ?_
      refine (ih n).trans ?_
      simp only [List.length_cons, Nat.add_lt_add_iff_right, Nat.add_sub_add_right,
        List.drop_succ_cons]

theorem onward_atoms_append (h : 0 < n ∨ 0 < p.length) :
    onward inserts n (p.atoms ++ ps) =
      if n < p.length then (p.drop n).atoms ++ ps else onward inserts (n - p.length) ps := by
  cases p with
  | bare t =>
    rw [Piece.drop_bare]
    exact onward_bare_atoms_append n t ps
  | located x =>
    by_cases hlt : n < (Piece.located x).length
    · rw [if_pos hlt]
      exact onward_cons_of_lt hlt
    · rw [if_neg hlt]
      exact onward_cons_of_le (by omega) (by omega)

theorem onward_zero_atoms_append (hbare : p.isEmptyBare = false) (h : 0 < p.length ∨ ps = []) :
    onward inserts 0 (p.atoms ++ ps) = p.atoms ++ ps := by
  by_cases hpos : 0 < p.length
  · rw [onward_atoms_append (Or.inr hpos), if_pos hpos, Piece.drop_zero]
  · cases p with
    | located x =>
      exact onward_cons_of_eq_zero (Nat.eq_zero_of_not_pos hpos) fun _ => h.resolve_left hpos
    | bare t =>
      cases t with
      | nil => cases hbare
      | cons c t => exact absurd (Nat.zero_lt_succ _) hpos

end PieceAtoms

section Split

variable (hp : ps[i]? = some p) (hbare : p.isEmptyBare = false) (hle : lengthBefore ps i ≤ n)
include hp hbare hle

theorem upTo_split :
    upTo n (atoms ps) =
      atoms (ps.take i) ++ upTo (n - lengthBefore ps i) (p.atoms ++ atoms (ps.drop (i + 1))) := by
  have hlength : totalLength (atoms (ps.take i)) = lengthBefore ps i := totalLength_atoms _
  have hrest : p.atoms ++ atoms (ps.drop (i + 1)) ≠ [] :=
    List.append_ne_nil_of_left_ne_nil (Piece.atoms_ne_nil hbare) _
  nth_rewrite 1 [eq_take_append_cons_drop hp]
  rw [atoms_append, atoms_cons, upTo_append (by omega) hrest, hlength]

theorem onward_split (hborder : lengthBefore ps i = n → inserts = true) :
    onward inserts n (atoms ps) =
      onward inserts (n - lengthBefore ps i) (p.atoms ++ atoms (ps.drop (i + 1))) := by
  have hlength : totalLength (atoms (ps.take i)) = lengthBefore ps i := totalLength_atoms _
  have hrest : p.atoms ++ atoms (ps.drop (i + 1)) ≠ [] :=
    List.append_ne_nil_of_left_ne_nil (Piece.atoms_ne_nil hbare) _
  nth_rewrite 1 [eq_take_append_cons_drop hp]
  rw [atoms_append, atoms_cons, onward_append (by omega) fun h => ⟨hborder (by omega), hrest⟩,
    hlength]

end Split

namespace Edit

variable (e : Edit δ)

theorem atoms_front (h : ps ≠ []) (hbare : ∀ p ∈ ps, p.isEmptyBare = false) :
    atoms (e.front ps) = upTo e.start (atoms ps) := by
  obtain ⟨p, hp⟩ := e.exists_first h
  have hle : lengthBefore ps (e.firstIndex ps) ≤ e.start := lengthBefore_indexAt_le e.start
  have hhead : upTo (e.start - lengthBefore ps (e.firstIndex ps))
      (p.atoms ++ atoms (ps.drop (e.firstIndex ps + 1))) =
        atoms (e.head (lengthBefore ps (e.firstIndex ps), p)) := by
    have halone : upTo (e.start - lengthBefore ps (e.firstIndex ps)) p.atoms =
        atoms (e.head (lengthBefore ps (e.firstIndex ps), p)) := by
      rw [upTo_atoms, head]
      simp only [Nat.sub_pos_iff_lt]
    rcases e.start_lt_or_drop_eq_nil hp with hlt | hlast
    · rw [upTo_append_of_lt (by rw [p.totalLength_atoms]; omega), halone]
    · rw [hlast]
      exact (congrArg _ (List.append_nil _)).trans halone
  rw [upTo_split hp (hbare p (List.mem_of_getElem? hp)) hle, hhead, front, atoms_append,
    getElem?_placed, hp]
  rfl

/-- The tail of the piece that the edit stops in, and the list after this piece. -/
theorem onward_tail {o : Nat} {zs : List (Piece δ)} (hle : o ≤ e.stop)
    (h : 0 < e.stop - o ∨ 0 < p.length)
    (hend : e.stop < o + p.length ∨ (e.stop = o + p.length ∧ inserts = false) ∨ zs = []) :
    onward inserts (e.stop - o) (p.atoms ++ zs) = atoms (e.tail (o, p)) ++ zs := by
  rw [onward_atoms_append h, tail]
  by_cases hlt : e.stop < o + p.length
  · rw [if_pos (by omega), if_pos hlt, atoms_singleton]
  · rw [if_neg (by omega), if_neg hlt]
    rcases hend with hin | ⟨heq, rfl⟩ | rfl
    · exact absurd hin hlt
    · rw [heq, Nat.add_sub_cancel_left, Nat.sub_self, onward_false_zero]
      rfl
    · rfl

/-- The back of an edit that takes a piece out. -/
theorem atoms_back_within (hp : ps[e.lastIndex ps]? = some p) (hbare : p.isEmptyBare = false)
    (hindex : e.firstIndex ps ≤ e.lastIndex ps)
    (htaken : 0 < e.stop - lengthBefore ps (e.lastIndex ps) ∨ 0 < p.length)
    (hborder : lengthBefore ps (e.lastIndex ps) = e.stop → inserts = true)
    (hend : e.stop < lengthBefore ps (e.lastIndex ps) + p.length ∨
      (e.stop = lengthBefore ps (e.lastIndex ps) + p.length ∧ inserts = false) ∨
        ps.drop (e.lastIndex ps + 1) = []) :
    atoms (e.back ps) = onward inserts e.stop (atoms ps) := by
  have hle : lengthBefore ps (e.lastIndex ps) ≤ e.stop := lengthBefore_indexBefore_le e.stop
  rw [onward_split hp hbare hle hborder,
    e.onward_tail hle htaken (hend.imp_right (Or.imp_right (congrArg atoms))), back, atoms_append,
    getElem?_placed, hp, Nat.max_eq_right (by omega)]
  rfl

theorem atoms_back_of_lt (hlt : e.start < e.stop) (h : ps ≠ [])
    (hbare : ∀ p ∈ ps, p.isEmptyBare = false) :
    atoms (e.back ps) = onward false e.stop (atoms ps) := by
  obtain ⟨p, hp⟩ := e.exists_last h
  -- No piece starts at the stop and is taken out, so an empty piece there stays.
  have hbefore : lengthBefore ps (e.lastIndex ps) < e.stop := by
    rcases indexBefore_eq_zero_or_lt e.stop ps with hzero | hbefore
    · rw [lastIndex, hzero, lengthBefore_zero]
      omega
    · exact hbefore
  have hindex : e.firstIndex ps ≤ e.lastIndex ps := by
    refine Nat.le_of_not_lt fun hindex => ?_
    have hborder := e.eq_border_of_lastIndex_lt (Nat.le_of_lt hlt) h hindex
    omega
  refine e.atoms_back_within hp (hbare p (List.mem_of_getElem? hp)) hindex (by omega) (by omega) ?_
  rcases e.stop_within_last with hin | hlast
  · rw [lengthBefore_succ hp] at hin
    exact (Nat.lt_or_eq_of_le hin).imp_right fun heq => Or.inl ⟨heq, rfl⟩
  · exact Or.inr (Or.inr hlast)

/-- Where an insertion takes no piece out, the piece it starts in is kept whole. -/
theorem atoms_back_of_lastIndex_lt (heq : e.start = e.stop) (h : ps ≠ [])
    (hbare : ∀ p ∈ ps, p.isEmptyBare = false) (hindex : e.lastIndex ps < e.firstIndex ps) :
    atoms (e.back ps) = onward true e.stop (atoms ps) := by
  obtain ⟨p, hp⟩ := e.exists_first h
  obtain ⟨q, hq⟩ := e.exists_last h
  have hord : e.start ≤ e.stop := Nat.le_of_eq heq
  have hborder := (e.eq_border_of_lastIndex_lt hord h hindex).2
  have hwhole : 0 < p.length ∨ atoms (ps.drop (e.firstIndex ps + 1)) = [] := by
    rcases e.start_lt_or_drop_eq_nil hp with hlt | hlast
    · omega
    · exact Or.inr (congrArg atoms hlast)
  have hbareAt := hbare p (List.mem_of_getElem? hp)
  rw [onward_split hp hbareAt (Nat.le_of_eq hborder.symm) fun _ => rfl, ← hborder, Nat.sub_self,
    onward_zero_atoms_append hbareAt hwhole, back, getElem?_placed, hq, Option.map_some,
    Option.elim_some, e.tail_eq_nil_of_lastIndex_lt hord h hq hindex, Nat.max_eq_left hindex,
    List.drop_eq_getElem?_toList_append, hp]
  exact atoms_cons _ _

/-- Where an insertion does take a piece out, it starts and stops in this piece. -/
theorem lastIndex_eq_firstIndex (heq : e.start = e.stop) (h : ps ≠ [])
    (hindex : e.firstIndex ps ≤ e.lastIndex ps) : e.lastIndex ps = e.firstIndex ps := by
  refine (Nat.lt_or_eq_of_le hindex).elim (fun hlt => ?_) Eq.symm
  have hbefore : lengthBefore ps (e.lastIndex ps) ≤ e.stop := lengthBefore_indexBefore_le e.stop
  have hafter := lt_lengthBefore_of_indexAt_lt e.start hlt (indexBefore_lt_length e.stop h)
  omega

theorem atoms_back_of_firstIndex_le (heq : e.start = e.stop) (hpos : 0 < totalLength ps)
    (hbare : ∀ p ∈ ps, p.isEmptyBare = false) (hindex : e.firstIndex ps ≤ e.lastIndex ps) :
    atoms (e.back ps) = onward true e.stop (atoms ps) := by
  have h := ne_nil_of_totalLength_pos hpos
  obtain ⟨p, hp⟩ := e.exists_last h
  have hle : lengthBefore ps (e.lastIndex ps) ≤ e.stop := lengthBefore_indexBefore_le e.stop
  have hwithin : e.stop < lengthBefore ps (e.lastIndex ps) + p.length ∨
      ps.drop (e.lastIndex ps + 1) = [] := by
    rw [e.lastIndex_eq_firstIndex heq h hindex] at hp ⊢
    exact heq ▸ e.start_lt_or_drop_eq_nil hp
  have htaken : 0 < e.stop - lengthBefore ps (e.lastIndex ps) ∨ 0 < p.length := by
    rcases indexBefore_eq_zero_or_lt e.stop ps with hzero | hbefore
    · rcases hwithin with hin | hlast
      · omega
      -- The piece is the whole list, and there is text in it.
      · have hall := congrArg totalLength (eq_take_append_cons_drop hp)
        rw [hlast, show e.lastIndex ps = 0 from hzero] at hall
        simp only [List.take_zero, List.nil_append, totalLength] at hall
        omega
    · exact Or.inl (Nat.sub_pos_of_lt hbefore)
  exact e.atoms_back_within hp (hbare p (List.mem_of_getElem? hp)) hindex htaken (fun _ => rfl)
    (hwithin.imp_right Or.inr)

theorem atoms_back (hord : e.start ≤ e.stop) (hpos : 0 < totalLength ps)
    (hbare : ∀ p ∈ ps, p.isEmptyBare = false) :
    atoms (e.back ps) = onward (e.start = e.stop) e.stop (atoms ps) := by
  have h := ne_nil_of_totalLength_pos hpos
  rcases Nat.lt_or_eq_of_le hord with hlt | heq
  · rw [decide_eq_false (Nat.ne_of_lt hlt)]
    exact e.atoms_back_of_lt hlt h hbare
  · rw [decide_eq_true heq]
    rcases Nat.lt_or_ge (e.lastIndex ps) (e.firstIndex ps) with hindex | hindex
    · exact e.atoms_back_of_lastIndex_lt heq h hbare hindex
    · exact e.atoms_back_of_firstIndex_le heq hpos hbare hindex

/-- What an edit in order does to a list of atoms. -/
def onAtoms (ps : List (Piece δ)) : List (Piece δ) :=
  upTo e.start ps ++ atoms e.new ++ onward (e.start = e.stop) e.stop ps

theorem atoms_applyTo (hord : e.start ≤ e.stop) (hpos : 0 < totalLength ps)
    (hbare : ∀ p ∈ ps, p.isEmptyBare = false) :
    atoms (e.applyTo ps) = e.onAtoms (atoms ps) := by
  have h := ne_nil_of_totalLength_pos hpos
  rw [onAtoms, ← e.atoms_front h hbare, ← e.atoms_back hord hpos hbare]
  exact e.flatMap_applyTo seamless_atoms h

theorem totalLength_onAtoms (ps : List (Piece δ)) :
    totalLength (e.onAtoms ps) =
      min e.start (totalLength ps) + totalLength e.new + (totalLength ps - e.stop) := by
  rw [onAtoms, totalLength_append, totalLength_append, totalLength_upTo, totalLength_atoms,
    totalLength_onward]

end Edit

end TracedText
