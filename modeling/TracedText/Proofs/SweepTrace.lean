import TracedText.Sweep
import TracedText.Proofs.Boundary
import TracedText.Proofs.EditTrace

/-!
# What a sweep over all matches does

A sweep asks the replacer for a piece for each matched text, from left to right, and nothing else.
Once the pieces are known, the turns are laid out without the replacer. Between two turns the
buffer holds a rewritten part, and after it the old characters from the cursor on; the shift is the
difference in length between the rewritten part and the old one. A turn keeps this, so at the end
each matched stretch has been replaced and the rest is as it was.
-/
namespace TracedText

variable {α β σ δ : Type}

/-- The list from `done` on, with other stretches in place of the spans. -/
def replaceSpans (xs : List α) : Nat → List (Span × List α) → List α
  | done, [] => xs.drop done
  | done, (s, ys) :: rest =>
    (xs.drop done).take (s.start - done) ++ ys ++ replaceSpans xs s.stop rest

theorem map_replaceSpans (f : α → β) (xs : List α) (done : Nat) (rs : List (Span × List α)) :
    (replaceSpans xs done rs).map f =
      replaceSpans (xs.map f) done (rs.map fun r => (r.1, r.2.map f)) := by
  induction rs generalizing done with
  | nil => exact List.map_drop
  | cons r rs ih =>
    simp only [replaceSpans, List.map_append, List.map_take, List.map_drop, ih, List.map_cons]

/-- On boundaries, spans in octets replace the same stretches of the UTF-8 form. -/
theorem encode_replaceSpans {t : Text} {n : Nat} {ms : List Span} (hms : IsMatchList t ms)
    (hn : IsBoundary t n) (hle : ∀ m ∈ ms, n ≤ m.start) (us : List Text) :
    Utf8.encode (replaceSpans t (charCount t n) ((ms.map (Span.inChars t)).zip us)) =
      replaceSpans (Utf8.encode t) n (ms.zip (us.map Utf8.encode)) := by
  induction ms generalizing n us with
  | nil =>
    change Utf8.encode (t.drop (charCount t n)) = (Utf8.encode t).drop n
    rw [← dropOctets_eq_drop, Utf8.encode_dropOctets hn]
  | cons m ms ih =>
    cases us with
    | nil =>
      change Utf8.encode (t.drop (charCount t n)) = (Utf8.encode t).drop n
      rw [← dropOctets_eq_drop, Utf8.encode_dropOctets hn]
    | cons u us =>
      obtain ⟨hstart, hstop⟩ := hms.boundary m List.mem_cons_self
      have hgap := hle m List.mem_cons_self
      have hrest := ih hms.tail hstop hms.stop_le us
      simp only [List.map_cons, List.zip_cons_cons, replaceSpans, Utf8.encode_append]
      simp only [Span.inChars]
      rw [hrest, ← hn.slice_eq hgap, Utf8.encode_slice hn hstart hgap]

section Asking

/-- The replacer that also writes down the texts it is shown. -/
def Replacer.logged (r : Replacer σ δ) : Replacer (List Text × σ) δ :=
  fun t s => ((r t s.2).1, s.1 ++ [t], (r t s.2).2)

/-- The pieces a replacer gives for some texts, asked for one after the other. -/
def Replacer.answers (r : Replacer σ δ) (ts : List Text) : StateM σ (List (Piece δ)) := ts.mapM r

variable (r : Replacer σ δ)

theorem Replacer.answers_cons (t : Text) (ts : List Text) (a : σ) :
    r.answers (t :: ts) a =
      ((r t a).1 :: (r.answers ts (r t a).2).1, (r.answers ts (r t a).2).2) := by
  simp only [answers, List.mapM_cons]
  rfl

theorem Replacer.length_answers (ts : List Text) (a : σ) :
    (r.answers ts a).1.length = ts.length := by
  induction ts generalizing a with
  | nil => rfl
  | cons t ts ih => rw [answers_cons, List.length_cons, ih, List.length_cons]

theorem Replacer.answers_logged (ts log : List Text) (a : σ) :
    (r.logged.answers ts (log, a)).2 = (log ++ ts, (r.answers ts a).2) := by
  induction ts generalizing log a with
  | nil => exact congrArg (·, a) (List.append_nil log).symm
  | cons t ts ih =>
    rw [answers_cons, answers_cons]
    exact (ih _ _).trans (by rw [List.append_assoc]; rfl)

def layTurns (t : Text) : Cursor → Int → List (Span × Piece δ) → List (Turn δ)
  | _, _, [] => []
  | c, shift, (m, p) :: rest =>
    let start := c.charAt t m.start
    let stop := Cursor.charAt ⟨m.start, start⟩ t m.stop
    let u : Turn δ := ⟨start, stop, shift, p⟩
    u :: layTurns t ⟨m.stop, stop⟩ (shift + u.growth) rest

theorem turns_cons (t : Text) (c : Cursor) (shift : Int) (m : Span) (ms : List Span) (a : σ) :
    turns r t c shift (m :: ms) a =
      let start := c.charAt t m.start
      let stop := Cursor.charAt ⟨m.start, start⟩ t m.stop
      let given := r (slice t m) a
      let u : Turn δ := ⟨start, stop, shift, given.1⟩
      let rest := turns r t ⟨m.stop, stop⟩ (shift + u.growth) ms given.2
      (u :: rest.1, rest.2) := rfl

theorem turns_eq_layTurns (t : Text) (c : Cursor) (shift : Int) (ms : List Span) (a : σ) :
    turns r t c shift ms a =
      (layTurns t c shift (ms.zip (r.answers (ms.map (slice t)) a).1),
        (r.answers (ms.map (slice t)) a).2) := by
  induction ms generalizing c shift a with
  | nil => rfl
  | cons m ms ih =>
    rw [List.map_cons, Replacer.answers_cons, turns_cons]
    simp only [List.zip_cons_cons, layTurns, ih]

theorem length_layTurns (t : Text) (c : Cursor) (shift : Int) (rs : List (Span × Piece δ)) :
    (layTurns t c shift rs).length = rs.length := by
  induction rs generalizing c shift with
  | nil => rfl
  | cons x rs ih => simp only [layTurns, List.length_cons, ih]

end Asking

/-- The cursor stands on a boundary and counts the characters before it. -/
def Cursor.Marks (c : Cursor) (t : Text) : Prop :=
  IsBoundary t c.octet ∧ c.char = charCount t c.octet

theorem Cursor.Marks.zero (t : Text) : Cursor.Marks ⟨0, 0⟩ t :=
  ⟨isBoundary_zero t, (charCount_zero t).symm⟩

theorem Cursor.Marks.charAt_eq {c : Cursor} {t : Text} {n : Nat} (hc : c.Marks t)
    (hle : c.octet ≤ n) : c.charAt t n = charCount t n := by
  rw [charAt, hc.2, ← hc.1.charCount_eq hle]

theorem Cursor.Marks.char_le {c : Cursor} {t : Text} {n : Nat} (hc : c.Marks t)
    (hle : c.octet ≤ n) : c.char ≤ charCount t n := by
  rw [hc.2]
  exact hc.1.charCount_le hle

/-- A turn has the place of its match, counted from the front of the text. -/
theorem layTurns_cons {t : Text} {m : Span} {ms : List Span} (hms : IsMatchList t (m :: ms))
    {c : Cursor} (hc : c.Marks t) (hle : c.octet ≤ m.start) (shift : Int) (p : Piece δ)
    (rs : List (Span × Piece δ)) :
    layTurns t c shift ((m, p) :: rs) =
      let u : Turn δ := ⟨charCount t m.start, charCount t m.stop, shift, p⟩
      u :: layTurns t ⟨m.stop, charCount t m.stop⟩ (shift + u.growth) rs := by
  have hstart := (hms.boundary m List.mem_cons_self).1
  have hfrom : c.charAt t m.start = charCount t m.start := hc.charAt_eq hle
  have hto : Cursor.charAt ⟨m.start, charCount t m.start⟩ t m.stop = charCount t m.stop :=
    Cursor.Marks.charAt_eq ⟨hstart, rfl⟩ (hms.ordered m List.mem_cons_self)
  simp only [layTurns, hfrom, hto]

/-- When `len` characters stand in place of the first `k`, the edit of a turn
counts from their end. -/
theorem Turn.edit_eq {len k start stop : Nat} {shift : Int} {p : Piece δ}
    (hlen : (len : Int) = k + shift) (hstart : k ≤ start) (hstop : start ≤ stop) :
    (⟨start, stop, shift, p⟩ : Turn δ).edit = ⟨len + (start - k), len + (stop - k), [p]⟩ := by
  have hfrom : ((start : Int) + shift).toNat = len + (start - k) := by omega
  have hto : ((stop : Int) + shift).toNat = len + (stop - k) := by omega
  simp only [Turn.edit, hfrom, hto]

/-- A buffer between two turns: `done` stands in place of the old characters before the cursor,
and is longer than these by the shift. -/
structure Resumes (old done : List (TracedChar δ)) (c : Cursor) (shift : Int) (b : Buffer δ) :
    Prop where
  traced_eq : b.traced = done ++ old.drop c.char
  length_done : (done.length : Int) = c.char + shift

theorem Resumes.zero (b : Buffer δ) : Resumes b.traced [] ⟨0, 0⟩ 0 b := ⟨rfl, rfl⟩

/-- A turn takes the old characters before its start over and puts its piece after them. -/
theorem Resumes.apply {old done : List (TracedChar δ)} {c : Cursor} {shift : Int} {b : Buffer δ}
    (h : Resumes old done c shift b) {start stop : Nat} (hstart : c.char ≤ start)
    (hstop : start ≤ stop) (hlen : stop ≤ old.length) (octet : Nat) (p : Piece δ) :
    let u : Turn δ := ⟨start, stop, shift, p⟩
    Resumes old (done ++ (old.drop c.char).take (start - c.char) ++ p.traced) ⟨octet, stop⟩
      (shift + u.growth) (b.apply u.edit) := by
  intro u
  have hnew : traced [p] = p.traced := List.append_nil _
  constructor
  · have hord : done.length + (start - c.char) ≤ done.length + (stop - c.char) := by omega
    have hedit := Edit.traced_applyTo (e := ⟨_, _, [p]⟩) hord b.pieces
    change (b.apply _).traced = b.traced.take _ ++ _ ++ b.traced.drop _ at hedit
    rw [Turn.edit_eq h.length_done hstart hstop, hedit, h.traced_eq, hnew,
      List.take_length_add_append, List.drop_length_add_append, List.drop_drop,
      Nat.add_sub_cancel' (by omega)]
  · have hdone := h.length_done
    have hpiece := p.length_traced
    simp only [List.length_append, List.length_take, List.length_drop, Turn.growth, u]
    omega

theorem traced_applyAll_layTurns {t : Text} {old : List (TracedChar δ)}
    (hold : old.length = t.length) {ms : List Span} (hms : IsMatchList t ms) (ps : List (Piece δ))
    {c : Cursor} (hc : c.Marks t) (hle : ∀ m ∈ ms, c.octet ≤ m.start) {shift : Int}
    {done : List (TracedChar δ)} {b : Buffer δ} (h : Resumes old done c shift b) :
    (b.applyAll ((layTurns t c shift (ms.zip ps)).map Turn.edit)).traced =
      done ++ replaceSpans old c.char ((ms.map (Span.inChars t)).zip (ps.map Piece.traced)) := by
  induction ms generalizing ps c shift done b with
  | nil => exact h.traced_eq
  | cons m ms ih =>
    cases ps with
    | nil => exact h.traced_eq
    | cons p ps =>
      have hgap := hle m List.mem_cons_self
      have hord := hms.ordered m List.mem_cons_self
      obtain ⟨hstart, hstop⟩ := hms.boundary m List.mem_cons_self
      have hturn := h.apply (hc.char_le hgap) (hstart.charCount_le hord)
        (hold ▸ charCount_le_length t m.stop) m.stop p
      have hrest :=
        ih hms.tail ps (c := ⟨m.stop, charCount t m.stop⟩) ⟨hstop, rfl⟩ hms.stop_le hturn
      rw [List.zip_cons_cons, layTurns_cons hms hc hgap]
      simp only [List.zip_cons_cons, List.map_cons, replaceSpans]
      refine hrest.trans ?_
      simp only [Span.inChars, List.append_assoc]

namespace Buffer

theorem replaceFirst_eq (b : Buffer δ) (s : Searcher) (r : Replacer σ δ) (a : σ) :
    b.replaceFirst s r a =
      ((!(b.firstTurns s r a).1.isEmpty, b.applyAll ((b.firstTurns s r a).1.map Turn.edit)),
        (b.firstTurns s r a).2) := rfl

theorem replaceAll_eq_turns (b : Buffer δ) (s : Searcher) (r : Replacer σ δ) (a : σ) :
    b.replaceAll s r a =
      (((b.allTurns s r a).1.length, b.applyAll ((b.allTurns s r a).1.map Turn.edit)),
        (b.allTurns s r a).2) := rfl

theorem replaceAll_eq (b : Buffer δ) (s : Searcher) (r : Replacer σ δ) (a : σ) :
    b.replaceAll s r a =
      let given := r.answers ((s.all b.text).map (slice b.text)) a
      let us := layTurns b.text ⟨0, 0⟩ 0 ((s.all b.text).zip given.1)
      ((us.length, b.applyAll (us.map Turn.edit)), given.2) := by
  rw [replaceAll_eq_turns, allTurns, turns_eq_layTurns]

theorem length_traced (b : Buffer δ) : b.traced.length = b.text.length := by
  rw [length_text]
  exact TracedText.length_traced b.pieces

theorem map_char_traced (b : Buffer δ) : b.traced.map TracedChar.char = b.text :=
  TracedText.map_char_traced b.pieces

theorem map_char_zip_traced (spans : List Span) (ps : List (Piece δ)) :
    ((spans.zip (ps.map Piece.traced)).map fun r => (r.1, r.2.map TracedChar.char)) =
      spans.zip (ps.map Piece.text) := by
  have hmap : ps.map Piece.text = (ps.map Piece.traced).map (List.map TracedChar.char) := by
    rw [List.map_map]
    exact List.map_congr_left fun p _ => p.map_char_traced.symm
  rw [hmap]
  exact List.zip_map_right.symm

/-- A sweep asks for a piece for each match, shows the replacer just the matched texts in their
order, and puts the pieces in place of the matches, in the traced characters as in the octets. Only
the matches in the text as it was count. -/
theorem replaceAll_replaces_matches (b : Buffer δ) (s : Searcher) (r : Replacer σ δ) (a : σ)
    (hms : IsMatchList b.text (s.all b.text)) :
    let ms := s.all b.text
    let shown := ms.map (slice b.text)
    let given := (r.answers shown a).1
    (b.replaceAll s r a).1.1 = ms.length ∧ given.length = ms.length ∧
    shown.map Utf8.encode =
      ms.map (fun m => ((Utf8.encode b.text).drop m.start).take m.length) ∧
    (b.replaceAll s r a).2 = (r.answers shown a).2 ∧
    (∀ log, (b.replaceAll s r.logged (log, a)).2.1 = log ++ shown) ∧
    (b.replaceAll s r a).1.2.traced =
      replaceSpans b.traced 0 ((ms.map (Span.inChars b.text)).zip (given.map Piece.traced)) ∧
    Utf8.encode (b.replaceAll s r a).1.2.text =
      replaceSpans (Utf8.encode b.text) 0 (ms.zip (given.map fun p => Utf8.encode p.text)) ∧
    ∀ s' : Searcher, s'.all b.text = ms → b.replaceAll s' r a = b.replaceAll s r a := by
  intro ms shown given
  have hgiven : given.length = ms.length := by
    rw [Replacer.length_answers, List.length_map]
  have htraced : (b.replaceAll s r a).1.2.traced =
      replaceSpans b.traced 0 ((ms.map (Span.inChars b.text)).zip (given.map Piece.traced)) := by
    rw [replaceAll_eq]
    have hmarks : Cursor.Marks ⟨0, 0⟩ b.text :=
      ⟨isBoundary_zero b.text, (charCount_zero b.text).symm⟩
    exact traced_applyAll_layTurns b.length_traced hms given hmarks (fun m _ => Nat.zero_le m.start)
      (Resumes.zero b)
  refine ⟨?_, hgiven, ?_, ?_, fun log => ?_, htraced, ?_, fun s' hs' => ?_⟩
  · rw [replaceAll_eq]
    change (layTurns _ _ _ (ms.zip given)).length = _
    rw [length_layTurns, List.length_zip, hgiven, Nat.min_self]
  · rw [List.map_map]
    apply List.map_congr_left
    intro m hm
    obtain ⟨hstart, hstop⟩ := hms.boundary m hm
    exact Utf8.encode_slice hstart hstop (hms.ordered m hm)
  · rw [replaceAll_eq]
  · rw [replaceAll_eq]
    exact congrArg Prod.fst (r.answers_logged shown log a)
  · have hencode := encode_replaceSpans hms (isBoundary_zero b.text)
      (fun m _ => Nat.zero_le m.start) (given.map Piece.text)
    rw [charCount_zero] at hencode
    rw [List.map_map] at hencode
    rw [← map_char_traced, htraced, map_replaceSpans, map_char_traced, map_char_zip_traced]
    exact hencode
  · rw [replaceAll_eq, replaceAll_eq, hs']

/-- Two matches touch across a border between pieces, characters take up to three octets, and the
replacer first lengthens the text and then shortens it. -/
theorem replaceAll_replaces_matches_dashes :
    let b : Buffer Nat := ⟨[.located ⟨['ä', '-'], none, .offset 3, none⟩, .bare ['-', 'ö'],
      .located ⟨['→', '-'], some "s", .range 2 9, some 1⟩]⟩
    let r : Replacer Nat Nat := fun _ n =>
      (.located ⟨List.replicate n '!', none, .offset n, none⟩, n - 1)
    IsMatchList b.text ((Searcher.char '-').all b.text) ∧
      (b.replaceAll (.char '-') r 2).1.1 = 3 ∧
      (b.replaceAll (.char '-') r 2).1.2.traced =
        [⟨'ä', some ⟨none, none, .offset 3⟩⟩, ⟨'!', some ⟨none, none, .offset 2⟩⟩,
          ⟨'!', some ⟨none, none, .offset 3⟩⟩, ⟨'!', some ⟨none, none, .offset 1⟩⟩, ⟨'ö', none⟩,
          ⟨'→', some ⟨some "s", some 1, .range 2 8⟩⟩] := by
  intro b r
  have hms : IsMatchList b.text ((Searcher.char '-').all b.text) :=
    ⟨by decide, by decide, by decide⟩
  obtain ⟨hcount, -, -, -, -, htraced, -⟩ := b.replaceAll_replaces_matches (.char '-') r 2 hms
  exact ⟨hms, hcount.trans (by decide), htraced.trans (by decide)⟩

end Buffer

end TracedText
