import Mathlib.Data.List.Chain
import TracedText.Event
import TracedText.Proofs.SourceEditTrace
import TracedText.Proofs.SweepTrace

/-!
# What is reported

An edit on a buffer with pieces reports the splice that it becomes. The turns of a sweep report
one splice each, as seen from the buffer that the turn finds, and the sweep reports at the end
how many they were. No turn but the first can find a buffer without pieces, since matches that
clear one another leave text for the next one. A source edit reports a miss when its positions
are in order and it answers that nothing was done.
-/
namespace TracedText

variable {σ δ : Type} {b : Buffer δ} {t : Text}

namespace Buffer

def spliceEvent (b : Buffer δ) (e : Edit δ) : Event :=
  .spliced e.start e.stop (e.firstIndex b.pieces) (e.lastIndex b.pieces) (e.pieces b.pieces).length

theorem editEvents_of_ne_nil (hb : b.pieces ≠ []) (e : Edit δ) :
    b.editEvents e = [b.spliceEvent e] :=
  if_neg fun h => hb (List.isEmpty_iff.mp h)

/-- The indices that are reported are those of pieces, and the splice starts and stops with them. -/
theorem spliceEvent_eq (hb : b.pieces ≠ []) (e : Edit δ) :
    ∃ i j, i < b.pieces.length ∧ j < b.pieces.length ∧
      (e.splice b.pieces).first = i ∧ (e.splice b.pieces).past = max i (j + 1) ∧
      b.spliceEvent e = .spliced e.start e.stop i j (e.splice b.pieces).pieces.length := by
  have hsplice : e.splice b.pieces =
      ⟨e.firstIndex b.pieces, max (e.firstIndex b.pieces) (e.lastIndex b.pieces + 1),
        e.pieces b.pieces⟩ := if_neg fun h => hb (List.isEmpty_iff.mp h)
  rw [hsplice]
  exact ⟨_, _, indexAt_lt_length e.start hb, indexBefore_lt_length e.stop hb, rfl, rfl, rfl⟩

def FindsPieces (b : Buffer δ) : List (Edit δ) → Prop
  | [] => True
  | e :: es => b.pieces ≠ [] ∧ (b.apply e).FindsPieces es

theorem getElem?_editsEvents {es : List (Edit δ)} (h : b.FindsPieces es) (k : Nat) :
    (b.editsEvents es)[k]? = es[k]?.map (b.applyAll (es.take k)).spliceEvent := by
  induction es generalizing b k with
  | nil => rfl
  | cons e es ih =>
    rw [editsEvents, editEvents_of_ne_nil h.1, List.singleton_append]
    cases k with
    | zero => rfl
    | succ k => exact ih h.2 k

theorem length_editsEvents {es : List (Edit δ)} (h : b.FindsPieces es) :
    (b.editsEvents es).length = es.length := by
  induction es generalizing b with
  | nil => rfl
  | cons e es ih =>
    rw [editsEvents, editEvents_of_ne_nil h.1, List.singleton_append, List.length_cons, ih h.2,
      List.length_cons]

end Buffer

theorem Resumes.pieces_ne_nil {old done : List (TracedChar δ)} {c : Cursor} {shift : Int}
    (h : Resumes old done c shift b) (hc : c.char < old.length) : b.pieces ≠ [] := by
  intro hnil
  have htraced : b.traced = [] := congrArg traced hnil
  rw [h.traced_eq, List.append_eq_nil_iff, List.drop_eq_nil_iff] at htraced
  omega

theorem findsPieces_layTurns {old : List (TracedChar δ)} (hold : old.length = t.length)
    {ms : List Span} (hms : IsMatchList t ms) (hclears : ms.IsChain Span.Clears)
    (ps : List (Piece δ)) {c : Cursor} (hc : c.Marks t) (hle : ∀ m ∈ ms, c.octet ≤ m.start)
    {shift : Int} {done : List (TracedChar δ)} (h : Resumes old done c shift b)
    (hb : ms ≠ [] → b.pieces ≠ []) :
    b.FindsPieces ((layTurns t c shift (ms.zip ps)).map Turn.edit) := by
  -- what a turn leaves has text in it up to the next match
  induction ms generalizing ps c shift done b with
  | nil => trivial
  | cons m ms ih =>
    cases ps with
    | nil => trivial
    | cons p ps =>
      have hgap := hle m List.mem_cons_self
      have hord := hms.ordered m List.mem_cons_self
      obtain ⟨hstart, hstop⟩ := hms.boundary m List.mem_cons_self
      have hturn := h.apply (hc.char_le hgap) (hstart.charCount_le hord)
        (hold ▸ charCount_le_length t m.stop) m.stop p
      rw [List.zip_cons_cons, layTurns_cons hms hc hgap]
      refine ⟨hb (List.cons_ne_nil m ms), ih hms.tail hclears.tail ps
        (c := ⟨m.stop, charCount t m.stop⟩) ⟨hstop, rfl⟩ hms.stop_le hturn fun hne => ?_⟩
      obtain ⟨m', ms, rfl⟩ := List.exists_cons_of_ne_nil hne
      have hclear := (List.isChain_cons_cons.mp hclears).1
      have hord' := hms.tail.ordered m' List.mem_cons_self
      have hstop' := (hms.tail.boundary m' List.mem_cons_self).2
      have hlt : m.stop < m'.stop := by
        simp only [Span.Clears] at hclear
        omega
      exact hturn.pieces_ne_nil
        (hold ▸ Nat.lt_of_lt_of_le (hstop.charCount_lt hstop' hlt) (charCount_le_length t m'.stop))

namespace Buffer

/-- A sweep reports a splice for each of its turns, in order and with the shifted positions of the
turn, and then their number. -/
theorem sweepEvents_allTurns (hb : b.pieces ≠ []) (s : Searcher) (r : Replacer σ δ) (a : σ)
    (hms : IsMatchList b.text (s.all b.text)) (hclears : (s.all b.text).IsChain Span.Clears) :
    let us := (b.allTurns s r a).1
    let now (k : Nat) := b.applyAll ((us.take k).map Turn.edit)
    (∀ k u, us[k]? = some u → (b.sweepEvents us)[k]? = some ((now k).spliceEvent u.edit)) ∧
      (b.sweepEvents us)[us.length]? = some (.replacedAll us.length) ∧
      (b.sweepEvents us).length = us.length + 1 := by
  intro us now
  have hfinds : b.FindsPieces (us.map Turn.edit) := by
    simp only [us, allTurns, turns_eq_layTurns]
    exact findsPieces_layTurns b.length_traced hms hclears _ (Cursor.Marks.zero b.text)
      (fun m _ => Nat.zero_le m.start) (Resumes.zero b) fun _ => hb
  have hlength : (b.editsEvents (us.map Turn.edit)).length = us.length := by
    rw [length_editsEvents hfinds, List.length_map]
  refine ⟨fun k u hu => ?_, ?_, ?_⟩
  · have hk : k < us.length := (List.getElem?_eq_some_iff.mp hu).1
    rw [sweepEvents, List.getElem?_append_left (hlength ▸ hk), getElem?_editsEvents hfinds,
      List.getElem?_map, hu, ← List.map_take]
    rfl
  · rw [sweepEvents, List.getElem?_append_right (Nat.le_of_eq hlength), hlength, Nat.sub_self]
    rfl
  · rw [sweepEvents, List.length_append, hlength, List.length_singleton]

/-- What a source edit reports tells whether it was carried out, if its positions are in order. -/
theorem sourceEvents_eq (b : Buffer δ) (e : SourceEdit δ) :
    b.sourceEvents e =
      if e.start ≤ e.stop ∧ (b.replaceSource e).1 = false then [.sourceMissed e.start e.stop]
      else [] := by
  by_cases hord : e.start ≤ e.stop
  · have hanswer : (b.replaceSource e).1 = (e.target? b.pieces).isSome := by
      rw [replaceSource, applySource?, SourceEdit.applyTo?, if_neg (Nat.not_lt.mpr hord),
        Option.isSome_map, Option.isSome_map]
    rw [sourceEvents, hanswer]
    cases e.target? b.pieces <;> simp [hord]
  · simp [sourceEvents, hord]

end Buffer

end TracedText
