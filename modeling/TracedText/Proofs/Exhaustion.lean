import TracedText.Proofs.Matches
import TracedText.Proofs.SweepTrace

/-!
# Replacing the first match until none is left

A sweep searches the text once, and shifts what it has found. To replace the first match again
and again is to search each time, in a text that has other pieces in it already. For a single
character that no new piece has, both come to the same: all in front of the place where a match
was replaced stays clear of the character, so the next match is the next one of the old text,
and it stands in the new text where the shift says.
-/
namespace TracedText

variable {σ δ : Type} {c : Char} {t u v w : Text}

theorem count_append_cons (h : c ∉ w) (v : Text) : (w ++ c :: v).count c = v.count c + 1 := by
  rw [List.count_append, List.count_eq_zero.mpr h, List.count_cons_self, Nat.zero_add]

/-- From one `c` to the next, up to a text that has none. -/
theorem occurrence_induction (c : Char) {motive : Text → Prop} (clear : ∀ v, c ∉ v → motive v)
    (next : ∀ w v, c ∉ w → motive v → motive (w ++ c :: v)) (v : Text) : motive v := by
  generalize hn : v.count c = n
  induction n generalizing v with
  | zero => exact clear v (List.count_eq_zero.mp hn)
  | succ n ih =>
    have hmem : c ∈ v := List.count_pos_iff.mp (by omega)
    obtain ⟨w, v, rfl, hw⟩ := List.eq_append_cons_of_mem hmem
    rw [count_append_cons hw] at hn
    exact next w v hw (ih v (Nat.succ.inj hn))

theorem charOccurrences_of_not_mem (h : c ∉ t) (pos : Nat) : charOccurrences c pos t = [] := by
  induction t generalizing pos with
  | nil => rfl
  | cons d t ih =>
    have hne : d ≠ c := fun heq => h (heq ▸ List.mem_cons_self)
    rw [charOccurrences, if_neg hne]
    exact ih (fun hmem => h (List.mem_cons_of_mem d hmem)) _

theorem charOccurrences_append_cons (h : c ∉ t) (pos : Nat) (u : Text) :
    charOccurrences c pos (t ++ c :: u) =
      (pos + octetLength t, [c]) :: charOccurrences c (pos + octetLength (t ++ [c])) u := by
  induction t generalizing pos with
  | nil =>
    rw [List.nil_append, charOccurrences, if_pos rfl]
    rfl
  | cons d t ih =>
    have hne : d ≠ c := fun heq => h (heq ▸ List.mem_cons_self)
    have ht : c ∉ t := fun hmem => h (List.mem_cons_of_mem d hmem)
    rw [List.cons_append, charOccurrences, if_neg hne]
    simp only [ih ht, List.cons_append, octetLength, Nat.add_assoc]

/-- The matches of `c` in a text that starts at octet `pos`. -/
def charSpans (c : Char) (pos : Nat) (t : Text) : List Span :=
  (charOccurrences c pos t).map fun (start, m) => ⟨start, start + octetLength m⟩

theorem charSpans_of_not_mem (h : c ∉ t) (pos : Nat) : charSpans c pos t = [] := by
  rw [charSpans, charOccurrences_of_not_mem h, List.map_nil]

theorem charSpans_append_cons (h : c ∉ t) (pos : Nat) (u : Text) :
    charSpans c pos (t ++ c :: u) = ⟨pos + octetLength t, pos + octetLength (t ++ [c])⟩ ::
      charSpans c (pos + octetLength (t ++ [c])) u := by
  have hstop : pos + octetLength (t ++ [c]) = pos + octetLength t + octetLength [c] := by
    rw [octetLength_append, Nat.add_assoc]
  rw [charSpans, charOccurrences_append_cons h, List.map_cons, hstop]
  rfl

theorem first?_char (c : Char) (t : Text) :
    (Searcher.char c).first? t = (charSpans c 0 t).head? := by
  have hfirst := Searcher.first?_ofMatcher (.literal [c]) t
  rw [← Searcher.char_eq_ofMatcher] at hfirst
  exact hfirst

theorem turns_append (r : Replacer σ δ) (u w x v : Text) (shift : Int) (ms : List Span) (a : σ) :
    turns r (u ++ w ++ x ++ v) ⟨octetLength u, u.length⟩ shift
        (⟨octetLength (u ++ w), octetLength (u ++ w ++ x)⟩ :: ms) a =
      let turn : Turn δ := ⟨(u ++ w).length, (u ++ w ++ x).length, shift, (r x a).1⟩
      let rest := turns r (u ++ w ++ x ++ v) ⟨octetLength (u ++ w ++ x), (u ++ w ++ x).length⟩
        (shift + turn.growth) ms (r x a).2
      (turn :: rest.1, rest.2) := by
  have hgap : slice (u ++ w ++ x ++ v) ⟨octetLength u, octetLength (u ++ w)⟩ = w := by
    rw [List.append_assoc (u ++ w) x v]
    exact slice_append u w (x ++ v)
  have hshown := slice_append (u ++ w) x v
  simp only [turns_cons, Cursor.charAt, hgap, hshown, List.length_append]

/-- The turns of a sweep for `c` that has `u` behind it and `v` to come. -/
def turnsFrom (c : Char) (r : Replacer σ δ) (u v : Text) (shift : Int) : StateM σ (List (Turn δ)) :=
  turns r (u ++ v) ⟨octetLength u, u.length⟩ shift (charSpans c (octetLength u) v)

theorem turnsFrom_of_not_mem (h : c ∉ v) (r : Replacer σ δ) (u : Text) (shift : Int) (a : σ) :
    turnsFrom c r u v shift a = ([], a) := by
  rw [turnsFrom, charSpans_of_not_mem h]
  rfl

theorem turnsFrom_append_cons (h : c ∉ w) (r : Replacer σ δ) (u v : Text) (shift : Int) (a : σ) :
    turnsFrom c r u (w ++ c :: v) shift a =
      let turn : Turn δ := ⟨(u ++ w).length, (u ++ w ++ [c]).length, shift, (r [c] a).1⟩
      let rest := turnsFrom c r (u ++ w ++ [c]) v (shift + turn.growth) (r [c] a).2
      (turn :: rest.1, rest.2) := by
  have htext : u ++ (w ++ c :: v) = u ++ w ++ [c] ++ v := by
    rw [List.append_assoc, List.append_assoc, List.singleton_append]
  rw [turnsFrom, charSpans_append_cons h, htext, ← octetLength_append, ← octetLength_append,
    ← List.append_assoc, turns_append]
  rfl

theorem length_turnsFrom (r : Replacer σ δ) (u v : Text) (shift : Int) (a : σ) :
    (turnsFrom c r u v shift a).1.length = v.count c := by
  induction v using occurrence_induction c generalizing u shift a with
  | clear v hv => rw [turnsFrom_of_not_mem hv, List.count_eq_zero.mpr hv, List.length_nil]
  | next w v hw ih =>
    simp only [turnsFrom_append_cons hw, count_append_cons hw, List.length_cons, ih]

/-- To write down what is shown changes nothing else, and what is shown is always `c`. -/
theorem turnsFrom_logged (r : Replacer σ δ) (u v : Text) (shift : Int) (log : List Text) (a : σ) :
    turnsFrom c r.logged u v shift (log, a) =
      let us := turnsFrom c r u v shift a
      (us.1, (log ++ List.replicate (v.count c) [c], us.2)) := by
  induction v using occurrence_induction c generalizing u shift log a with
  | clear v hv =>
    rw [turnsFrom_of_not_mem hv, turnsFrom_of_not_mem hv, List.count_eq_zero.mpr hv,
      List.replicate_zero, List.append_nil]
  | next w v hw ih =>
    have hlog (n : Nat) :
        log ++ [[c]] ++ List.replicate n [c] = log ++ List.replicate (n + 1) [c] :=
      List.append_assoc _ _ _
    simp only [turnsFrom_append_cons hw, count_append_cons hw, Replacer.logged, ih, hlog]

/-- A buffer in the middle of a sweep for `c`: in place of `u` it has `done`, which is longer by the
shift and has no `c`, and `v` is to come. -/
structure Swept (c : Char) (u v done : Text) (shift : Int) (b : Buffer δ) : Prop where
  text_eq : b.text = done ++ v
  length_done : (done.length : Int) = u.length + shift
  clear : c ∉ done

namespace Swept

variable {done : Text} {shift : Int} {b : Buffer δ} {p : Piece δ}
  (h : Swept c u (w ++ c :: v) done shift b)
include h

theorem edit_eq :
    (⟨(u ++ w).length, (u ++ w ++ [c]).length, shift, p⟩ : Turn δ).edit =
      ⟨(done ++ w).length, (done ++ w ++ [c]).length, [p]⟩ := by
  rw [Turn.edit_eq h.length_done (by simp) (by simp)]
  simp

theorem apply (hw : c ∉ w) (hp : c ∉ p.text) :
    let turn : Turn δ := ⟨(u ++ w).length, (u ++ w ++ [c]).length, shift, p⟩
    Swept c (u ++ w ++ [c]) v (done ++ w ++ p.text) (shift + turn.growth) (b.apply turn.edit) := by
  intro turn
  refine ⟨?_, ?_, ?_⟩
  · have hord : (done ++ w).length ≤ (done ++ w ++ [c]).length := by simp
    have hedit := Edit.flatten_applyTo (e := ⟨_, _, [p]⟩) hord b.pieces
    change (b.apply _).text = b.text.take _ ++ flatten [p] ++ b.text.drop _ at hedit
    have htext : b.text = done ++ w ++ [c] ++ v := by
      simp only [h.text_eq, List.append_assoc, List.singleton_append]
    have hcut : b.text.take (done ++ w).length = done ++ w := by
      rw [htext, List.append_assoc, List.take_left]
    have hnew : flatten [p] = p.text := List.append_nil _
    rw [h.edit_eq, hedit, hcut, htext, List.drop_left, hnew]
  · have hdone := h.length_done
    simp only [List.length_append, Turn.growth, Piece.length, turn]
    omega
  · simp only [List.mem_append, not_or]
    exact ⟨⟨h.clear, hw⟩, hp⟩

end Swept

namespace Buffer

variable {r : Replacer σ δ} {b : Buffer δ} {a : σ}

/-- Replaces the first match, and does so `k` times. Tells for each time whether there was one. -/
def replaceRepeatedly (s : Searcher) (r : Replacer σ δ) :
    Nat → Buffer δ → StateM σ (List Bool × Buffer δ)
  | 0, b => pure ([], b)
  | k + 1, b => do
    let (found, next) ← b.replaceFirst s r
    let (others, last) ← replaceRepeatedly s r k next
    pure (found :: others, last)

theorem replaceRepeatedly_succ (b : Buffer δ) (s : Searcher) (r : Replacer σ δ) (k : Nat) (a : σ) :
    b.replaceRepeatedly s r (k + 1) a =
      let x := b.replaceFirst s r a
      let others := x.1.2.replaceRepeatedly s r k x.2
      ((x.1.1 :: others.1.1, others.1.2), others.2) := rfl

theorem replaceFirst_of_not_mem (h : c ∉ b.text) (r : Replacer σ δ) (a : σ) :
    b.replaceFirst (.char c) r a = ((false, b), a) := by
  have hnone : (Searcher.char c).first? b.text = none := by
    rw [first?_char, charSpans_of_not_mem h, List.head?_nil]
  rw [replaceFirst_eq, firstTurns, hnone]
  rfl

theorem replaceFirst_of_text_eq (hb : b.text = w ++ c :: v) (h : c ∉ w) (r : Replacer σ δ) (a : σ) :
    b.replaceFirst (.char c) r a =
      ((true, b.apply ⟨w.length, (w ++ [c]).length, [(r [c] a).1]⟩), (r [c] a).2) := by
  have hfirst : (Searcher.char c).first? b.text = some ⟨octetLength w, octetLength (w ++ [c])⟩ := by
    rw [first?_char, hb, charSpans_append_cons h, List.head?_cons, Nat.zero_add, Nat.zero_add]
  have htext : b.text = [] ++ w ++ [c] ++ v := by
    rw [hb, List.nil_append, List.append_assoc, List.singleton_append]
  have hturn : turns r b.text ⟨0, 0⟩ 0 [⟨octetLength w, octetLength (w ++ [c])⟩] a =
      ([⟨w.length, (w ++ [c]).length, 0, (r [c] a).1⟩], (r [c] a).2) := by
    rw [htext]
    exact turns_append r [] w [c] v 0 [] a
  have hedit : (⟨w.length, (w ++ [c]).length, 0, (r [c] a).1⟩ : Turn δ).edit =
      ⟨w.length, (w ++ [c]).length, [(r [c] a).1]⟩ := by
    rw [Turn.edit, Int.add_zero, Int.add_zero, Int.toNat_natCast, Int.toNat_natCast]
  rw [replaceFirst_eq, firstTurns, hfirst, Option.toList_some, hturn]
  simp only [List.map_cons, hedit]
  rfl

theorem replaceRepeatedly_of_not_mem (h : c ∉ b.text) (r : Replacer σ δ) (k : Nat) (a : σ) :
    b.replaceRepeatedly (.char c) r k a = ((List.replicate k false, b), a) := by
  induction k with
  | zero => rfl
  | succ k ih =>
    rw [replaceRepeatedly_succ, replaceFirst_of_not_mem h]
    simp only [ih, List.replicate_succ]

/-- Each call does what the next turn does. -/
theorem replaceRepeatedly_eq_turnsFrom {done : Text} {shift : Int} (h : Swept c u v done shift b)
    (hnew : ∀ x ∈ (turnsFrom c r u v shift a).1, c ∉ x.piece.text) (k : Nat) :
    b.replaceRepeatedly (.char c) r (v.count c + k) a =
      let us := turnsFrom c r u v shift a
      ((List.replicate (v.count c) true ++ List.replicate k false,
        b.applyAll (us.1.map Turn.edit)), us.2) := by
  induction v using occurrence_induction c generalizing u done shift b a with
  | clear v hv =>
    have hb : c ∉ b.text := by
      rw [h.text_eq, List.mem_append, not_or]
      exact ⟨h.clear, hv⟩
    rw [List.count_eq_zero.mpr hv, Nat.zero_add, replaceRepeatedly_of_not_mem hb,
      turnsFrom_of_not_mem hv]
    rfl
  | next w v hw ih =>
    rw [turnsFrom_append_cons hw] at hnew ⊢
    obtain ⟨hp, hlater⟩ := List.forall_mem_cons.mp hnew
    have htext : b.text = done ++ w ++ c :: v := by rw [h.text_eq, List.append_assoc]
    have hclear : c ∉ done ++ w := by
      rw [List.mem_append, not_or]
      exact ⟨h.clear, hw⟩
    have hcall := replaceFirst_of_text_eq htext hclear r a
    -- The call finds its edit in the new text, and the turn shifts its own to the same place.
    rw [← h.edit_eq] at hcall
    have hcalls := ih (h.apply hw hp) hlater
    rw [count_append_cons hw, Nat.succ_add, replaceRepeatedly_succ, hcall]
    simp only [hcalls, List.replicate_succ, List.cons_append, List.map_cons]
    rfl

/-- When no piece that a sweep for a character puts in has this character, the sweep does the
same as to replace the first match over and over: there are as many matches as the text has of
the character, the replacer is shown the same texts, and the outcomes are equal, piece by piece.
After the last match each further call answers that there is none, and changes nothing. -/
theorem replaceRepeatedly_eq_replaceAll (b : Buffer δ) (c : Char) (r : Replacer σ δ) (a : σ)
    (hnew : ∀ u ∈ (b.allTurns (.char c) r a).1, c ∉ u.piece.text) (k : Nat) :
    let n := b.text.count c
    let all := b.replaceAll (.char c) r a
    all.1.1 = n ∧
    b.replaceRepeatedly (.char c) r (n + k) a =
      ((List.replicate n true ++ List.replicate k false, all.1.2), all.2) ∧
    ∀ log,
      (b.replaceRepeatedly (.char c) r.logged (n + k) (log, a)).2 =
        (log ++ List.replicate n [c], all.2) ∧
      (b.replaceAll (.char c) r.logged (log, a)).2 = (log ++ List.replicate n [c], all.2) := by
  intro n all
  have hswept : Swept c [] b.text [] 0 b := ⟨rfl, rfl, List.not_mem_nil⟩
  have hlogged (log : List Text) : turnsFrom c r.logged [] b.text 0 (log, a) =
      ((turnsFrom c r [] b.text 0 a).1, (log ++ List.replicate n [c], all.2)) :=
    turnsFrom_logged r [] b.text 0 log a
  refine ⟨length_turnsFrom r [] b.text 0 a, replaceRepeatedly_eq_turnsFrom hswept hnew k,
    fun log => ⟨?_, ?_⟩⟩
  · have hnew' : ∀ x ∈ (turnsFrom c r.logged [] b.text 0 (log, a)).1, c ∉ x.piece.text := by
      rw [hlogged]
      exact hnew
    rw [replaceRepeatedly_eq_turnsFrom hswept hnew' k, hlogged]
  · rw [replaceAll_eq_turns]
    exact congrArg Prod.snd (hlogged log)

/-- Characters take up to three octets. The pieces that are put in are longer than the match, as
long as it is, and empty. -/
theorem replaceRepeatedly_eq_replaceAll_long_dashes :
    let b : Buffer Nat := ⟨[.located ⟨['ä', '–'], none, .offset 3, none⟩, .bare ['–', 'ö'],
      .located ⟨['→', '–'], some "s", .range 2 9, some 1⟩]⟩
    let r : Replacer Nat Nat := fun _ n =>
      (.located ⟨List.replicate n '-', none, .offset n, none⟩, n - 1)
    let out : Buffer Nat := ⟨[.located ⟨['ä'], none, .offset 3, none⟩,
      .located ⟨['-', '-'], none, .offset 2, none⟩, .located ⟨['-'], none, .offset 1, none⟩,
      .bare ['ö'], .located ⟨['→'], some "s", .range 2 8, some 1⟩,
      .located ⟨[], none, .offset 0, none⟩]⟩
    (∀ u ∈ (b.allTurns (.char '–') r 2).1, '–' ∉ u.piece.text) ∧
      (b.replaceAll (.char '–') r 2).1.1 = 3 ∧
      b.replaceRepeatedly (.char '–') r 5 2 = (([true, true, true, false, false], out), 0) := by
  intro b r out
  have hnew : ∀ u ∈ (b.allTurns (.char '–') r 2).1, '–' ∉ u.piece.text := by decide
  have hn : b.text.count '–' = 3 := by decide
  have hout : (b.replaceAll (.char '–') r 2).1.2 = out := by decide
  have hlast : (b.replaceAll (.char '–') r 2).2 = 0 := by decide
  obtain ⟨hcount, hcalls, -⟩ := b.replaceRepeatedly_eq_replaceAll '–' r 2 hnew 2
  rw [hn, hout, hlast] at hcalls
  exact ⟨hnew, hcount.trans hn, hcalls⟩

end Buffer

end TracedText
