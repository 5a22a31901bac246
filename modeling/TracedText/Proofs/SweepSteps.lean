import TracedText.Proofs.SweepTrace

/-!
# A sweep from turn to turn

Before each turn the shift is by how much the buffer has grown, and the places that the cursor
has counted out so far are those of the match in the old text. So the shifted places are exact:
none of them is moved up to zero, none lies past the end, and the checked edit takes every one.
What the buffer holds then is the old text up to the stop of the last match, rewritten, and the
rest of it as it was.
-/
namespace TracedText

variable {α σ δ : Type}

def lastStop : Nat → List Span → Nat
  | done, [] => done
  | _, s :: ss => lastStop s.stop ss

theorem le_lastStop {done : Nat} {ss : List Span} (hle : ∀ s ∈ ss, done ≤ s.start)
    (hord : ∀ s ∈ ss, s.start ≤ s.stop) (hapart : ss.Pairwise fun s s' => s.stop ≤ s'.start) :
    done ≤ lastStop done ss := by
  induction ss generalizing done with
  | nil => exact Nat.le_refl done
  | cons s ss ih =>
    obtain ⟨hstop, hrest⟩ := List.pairwise_cons.mp hapart
    have hs := hle s List.mem_cons_self
    have hs' := hord s List.mem_cons_self
    have hlast := ih hstop (fun s' h => hord s' (List.mem_cons_of_mem s h)) hrest
    exact Nat.le_trans (Nat.le_trans hs hs') hlast

theorem replaceSpans_split (xs : List α) {done : Nat} {ss : List Span} (yss : List (List α))
    (hlength : yss.length = ss.length) (hle : ∀ s ∈ ss, done ≤ s.start)
    (hord : ∀ s ∈ ss, s.start ≤ s.stop) (hapart : ss.Pairwise fun s s' => s.stop ≤ s'.start) :
    replaceSpans xs done (ss.zip yss) =
      replaceSpans (xs.take (lastStop done ss)) done (ss.zip yss) ++
        xs.drop (lastStop done ss) := by
  induction ss generalizing done yss with
  | nil =>
    change xs.drop done = (xs.take done).drop done ++ xs.drop done
    rw [List.drop_take, Nat.sub_self, List.take_zero, List.nil_append]
  | cons s ss ih =>
    cases yss with
    | nil => cases hlength
    | cons ys yss =>
      obtain ⟨hstop, hrest⟩ := List.pairwise_cons.mp hapart
      have hords := fun s' h => hord s' (List.mem_cons_of_mem s h)
      have hlast : s.stop ≤ lastStop s.stop ss := le_lastStop hstop hords hrest
      have hs := hord s List.mem_cons_self
      have hgap : ((xs.take (lastStop s.stop ss)).drop done).take (s.start - done) =
          (xs.drop done).take (s.start - done) := by
        rw [List.drop_take, List.take_take, Nat.min_eq_left (by omega)]
      have hafter := ih yss (Nat.succ.inj hlength) hstop hords hrest
      simp only [List.zip_cons_cons, replaceSpans, lastStop, hgap, List.append_assoc]
      rw [hafter]

theorem layTurns_take (t : Text) (c : Cursor) (shift : Int) (rs : List (Span × Piece δ)) (k : Nat) :
    (layTurns t c shift rs).take k = layTurns t c shift (rs.take k) := by
  induction rs generalizing c shift k with
  | nil => rw [List.take_nil]; exact List.take_nil
  | cons x rs ih =>
    cases k with
    | zero => rfl
    | succ k => exact congrArg _ (ih _ _ k)

theorem map_piece_layTurns (t : Text) (c : Cursor) (shift : Int) (rs : List (Span × Piece δ)) :
    (layTurns t c shift rs).map Turn.piece = rs.map Prod.snd := by
  induction rs generalizing c shift with
  | nil => rfl
  | cons x rs ih => exact congrArg _ (ih _ _)

/-- What holds of a turn for a match in the text `t`, and of the buffer that it is carried out
on. -/
structure Turn.Exact (t : Text) (m : Span) (now : Buffer δ) (u : Turn δ) : Prop where
  start_eq : u.start = charCount t m.start
  stop_eq : u.stop = charCount t m.stop
  shift_eq : u.shift = now.length - t.length
  start_edit : (u.edit.start : Int) = u.start + u.shift
  stop_edit : (u.edit.stop : Int) = u.stop + u.shift
  ordered : u.edit.start ≤ u.edit.stop
  within : u.edit.stop ≤ now.length

theorem Resumes.exact {t : Text} {old done : List (TracedChar δ)} {c : Cursor} {shift : Int}
    {b : Buffer δ} (h : Resumes old done c shift b) (hold : old.length = t.length) {m : Span}
    {start stop : Nat} (hstart : start = charCount t m.start) (hstop : stop = charCount t m.stop)
    (hc : c.char ≤ start) (hord : start ≤ stop) (p : Piece δ) :
    Turn.Exact t m b ⟨start, stop, shift, p⟩ := by
  have hlength : b.length = done.length + (t.length - c.char) := by
    rw [← b.length_text, ← b.length_traced, h.traced_eq, List.length_append, List.length_drop, hold]
  have hdone := h.length_done
  have hin : stop ≤ t.length := hstop ▸ charCount_le_length t m.stop
  have hshift : shift = b.length - t.length := by omega
  refine ⟨hstart, hstop, hshift, ?_, ?_, ?_, ?_⟩
  all_goals
    simp only [Turn.edit]
    omega

theorem exists_exact_turn {t : Text} {old : List (TracedChar δ)} (hold : old.length = t.length)
    {ms : List Span} (hms : IsMatchList t ms) {ps : List (Piece δ)} (hps : ps.length = ms.length)
    {c : Cursor} (hc : c.Marks t) (hle : ∀ m ∈ ms, c.octet ≤ m.start) {shift : Int}
    {done : List (TracedChar δ)} {b : Buffer δ} (h : Resumes old done c shift b) {k : Nat}
    {m : Span} (hm : ms[k]? = some m) :
    let us := layTurns t c shift (ms.zip ps)
    ∃ u, us[k]? = some u ∧ u.Exact t m (b.applyAll ((us.take k).map Turn.edit)) := by
  induction ms generalizing ps c shift done b k with
  | nil => exact nomatch hm
  | cons m₀ ms ih =>
    cases ps with
    | nil => cases hps
    | cons p ps =>
      obtain ⟨hstart, hstop⟩ := hms.boundary m₀ List.mem_cons_self
      have hgap := hle m₀ List.mem_cons_self
      have hord := hstart.charCount_le (hms.ordered m₀ List.mem_cons_self)
      have hchar := hc.char_le hgap
      rw [List.zip_cons_cons, layTurns_cons hms hc hgap]
      cases k with
      | zero =>
        obtain rfl : m₀ = m := Option.some.inj hm
        exact ⟨_, rfl, h.exact hold rfl rfl hchar hord p⟩
      | succ k =>
        have hturn := h.apply hchar hord (hold ▸ charCount_le_length t m₀.stop) m₀.stop p
        exact ih hms.tail (Nat.succ.inj hps) (c := ⟨m₀.stop, charCount t m₀.stop⟩) ⟨hstop, rfl⟩
          hms.stop_le hturn hm

namespace Buffer

/-- The text after some of the turns of a sweep is rewritten up to the last match of these. -/
theorem text_applyAll_take (b : Buffer δ) {ms : List Span} (hms : IsMatchList b.text ms)
    {ps : List (Piece δ)} (hps : ps.length = ms.length) (k : Nat) :
    let us := layTurns b.text ⟨0, 0⟩ 0 (ms.zip ps)
    let spans := (ms.take k).map (Span.inChars b.text)
    (b.applyAll ((us.take k).map Turn.edit)).text =
      replaceSpans (b.text.take (lastStop 0 spans)) 0
        (spans.zip ((us.take k).map fun u => u.piece.text)) ++ b.text.drop (lastStop 0 spans) := by
  intro us spans
  have htake : us.take k = layTurns b.text ⟨0, 0⟩ 0 ((ms.take k).zip (ps.take k)) := by
    have hzip : (ms.zip ps).take k = (ms.take k).zip (ps.take k) := List.take_zipWith
    rw [← hzip, ← layTurns_take]
  have hcount : (ps.take k).length = (ms.take k).length := by
    rw [List.length_take, List.length_take, hps]
  have htraced := traced_applyAll_layTurns b.length_traced (hms.take k) (ps.take k)
    (Cursor.Marks.zero b.text) (fun m _ => Nat.zero_le m.start) (Resumes.zero b)
  rw [← htake, List.nil_append] at htraced
  have hpieces : (us.take k).map (fun u => u.piece.text) = (ps.take k).map Piece.text := by
    rw [← List.map_snd_zip (Nat.le_of_eq hcount), ← map_piece_layTurns b.text ⟨0, 0⟩ 0, ← htake,
      List.map_map]
    rfl
  have hspans : ((ps.take k).map Piece.text).length = spans.length := by
    rw [List.length_map, List.length_map, hcount]
  rw [← map_char_traced, htraced, map_replaceSpans, map_char_traced, map_char_zip_traced, hpieces]
  exact replaceSpans_split b.text _ hspans (fun s _ => Nat.zero_le s.start)
    (hms.take k).ordered_inChars (hms.take k).apart_inChars

/-- At each turn of a sweep the counting is exact. The places that the cursor has come to are
those of the match, counted in characters, and the shift is how much longer the buffer is by
now. Shifting a place never stops at zero, and the edit lies in order within the buffer, which
takes it when it is checked. Up to the last match the buffer holds the rewritten text, and from
there on the old one. -/
theorem sweep_is_exact (b : Buffer δ) (s : Searcher) (r : Replacer σ δ) (a : σ)
    (hms : IsMatchList b.text (s.all b.text)) :
    let ms := s.all b.text
    let us := (b.allTurns s r a).1
    let now (k : Nat) := b.applyAll ((us.take k).map Turn.edit)
    us.length = ms.length ∧ (b.replaceAll s r a).1.2 = now ms.length ∧
    (∀ k m, ms[k]? = some m → ∃ u, us[k]? = some u ∧ u.Exact b.text m (now k) ∧
      (now k).tryApply u.edit = .ok (now (k + 1))) ∧
    ∀ k, let spans := (ms.take k).map (Span.inChars b.text)
      (now k).text =
        replaceSpans (b.text.take (lastStop 0 spans)) 0
          (spans.zip ((us.take k).map fun u => u.piece.text)) ++
            b.text.drop (lastStop 0 spans) := by
  intro ms us now
  let given := (r.answers (ms.map (slice b.text)) a).1
  have hus : us = layTurns b.text ⟨0, 0⟩ 0 (ms.zip given) := by
    simp only [us, allTurns, turns_eq_layTurns]
    rfl
  have hgiven : given.length = ms.length := by
    rw [Replacer.length_answers, List.length_map]
  have hlength : us.length = ms.length := by
    rw [hus, length_layTurns, List.length_zip, hgiven, Nat.min_self]
  refine ⟨hlength, ?_, ?_, ?_⟩
  · have htake : us.take ms.length = us := List.take_of_length_le (Nat.le_of_eq hlength)
    simp only [now, htake]
    rfl
  · intro k m hm
    obtain ⟨u, hu, hexact⟩ :=
      exists_exact_turn b.length_traced hms hgiven (Cursor.Marks.zero b.text)
        (fun m _ => Nat.zero_le m.start) (Resumes.zero b) hm
    rw [← hus] at hu hexact
    refine ⟨u, hu, hexact, (tryApply_eq_ok_iff _ _ _).mpr ⟨hexact.ordered, hexact.within, ?_⟩⟩
    simp only [now, List.take_add_one, hu, Option.toList_some, List.map_append]
    exact List.foldl_append
  · have htext := b.text_applyAll_take hms hgiven
    rw [← hus] at htext
    exact htext

/-- The first piece is empty, so the second turn is moved to the left. The third is moved to the
right, since the second piece is longer than both matches before it. -/
theorem sweep_is_exact_to_the_left :
    let b : Buffer Nat := ⟨[.located ⟨['ä', '-'], none, .offset 3, none⟩, .bare ['-', 'ö'],
      .located ⟨['→', '-'], some "s", .range 2 9, some 1⟩]⟩
    let r : Replacer Nat Nat := fun _ n => (.bare (List.replicate n '!'), n + 3)
    let us := (b.allTurns (.char '-') r 0).1
    let now (k : Nat) := b.applyAll ((us.take k).map Turn.edit)
    IsMatchList b.text ((Searcher.char '-').all b.text) ∧ us.map Turn.shift = [0, -1, 1] ∧
      (now 2).text = ['ä', '!', '!', '!', 'ö', '→', '-'] ∧
      ∃ u, us[2]? = some u ∧ u.Exact b.text ⟨9, 10⟩ (now 2) ∧
        (now 2).tryApply u.edit = .ok (now 3) := by
  intro b r us now
  have hms : IsMatchList b.text ((Searcher.char '-').all b.text) :=
    ⟨by decide, by decide, by decide⟩
  obtain ⟨-, -, hturns, htext⟩ := b.sweep_is_exact (.char '-') r 0 hms
  exact ⟨hms, by decide, (htext 2).trans (by decide), hturns 2 ⟨9, 10⟩ (by decide)⟩

end Buffer

end TracedText
