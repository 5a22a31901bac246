import TracedText.Script
import TracedText.Proofs.Fidelity
import TracedText.Proofs.Hereditary
import TracedText.Proofs.NormalForm

/-!
# Replays of edit scripts

Requests are carried out one after the other on a buffer and on a plain text. The text of the buffer
is the plain one all along, so the next request, whose positions are made for the plain text, lies
within the buffer and is never refused. The buffer stays coalesced, and what is located in it is
explained by the script: it is a part of the initial text or of what an earlier request put in.
-/
namespace TracedText

variable {δ : Type}

namespace Script

/-- The excerpt has no source and no payload, and its place is an offset. Below 10000 this
is where its text starts in the initial text. From 10000 on one of the first `k` requests
put the text in, and counted from 10000 plus the position of that request the offset is
where the text starts there. -/
structure Explains (s : Script) (k : Nat) (x : Excerpt δ) : Prop where
  source_eq : x.source = none
  data_eq : x.data = none
  place : ∃ o, x.place = .offset o ∧
    (o < 10000 ∧ x.Reads s.initial o ∨
      ∃ j q, j < k ∧ s.requests[j]? = some q ∧ q.located = true ∧ 10000 + j ≤ o ∧
        x.Reads (Utf8.decode q.insert) (o - (10000 + j)))

variable {s : Script} {k : Nat} {x : Excerpt δ}

theorem Explains.succ (h : s.Explains k x) : s.Explains (k + 1) x := by
  obtain ⟨o, hplace, hinitial | ⟨j, q, hj, hrest⟩⟩ := h.place
  · exact ⟨h.source_eq, h.data_eq, o, hplace, .inl hinitial⟩
  · exact ⟨h.source_eq, h.data_eq, o, hplace, .inr ⟨j, q, Nat.lt_succ_of_lt hj, hrest⟩⟩

/-- The offset of a part of the initial text stays below 10000, for the initial text ends there. -/
theorem hereditary_explains (hs : s.initial.length < 10000) (k : Nat) :
    Hereditary (δ := δ) (s.Explains k) where
  take x n h := by
    obtain ⟨o, hplace, hreads⟩ := h.place
    refine ⟨h.source_eq, h.data_eq, o, Excerpt.place_take_of_offset hplace n, ?_⟩
    rcases hreads with ⟨ho, hinitial⟩ | ⟨j, q, hj, hq, hlocated, ho, hinsert⟩
    · exact .inl ⟨ho, hinitial.take n⟩
    · exact .inr ⟨j, q, hj, hq, hlocated, ho, hinsert.take n⟩
  drop x n h := by
    obtain ⟨o, hplace, hreads⟩ := h.place
    refine ⟨h.source_eq, h.data_eq, _, Excerpt.place_drop_of_offset hplace n, ?_⟩
    rcases hreads with ⟨ho, hinitial⟩ | ⟨j, q, hj, hq, hlocated, ho, hinsert⟩
    · have hend := (hinitial.drop n).1
      exact .inl ⟨by omega, hinitial.drop n⟩
    · have hoffset : o + min n x.length - (10000 + j) = o - (10000 + j) + min n x.length := by omega
      refine .inr ⟨j, q, hj, hq, hlocated, by omega, ?_⟩
      rw [hoffset]
      exact hinsert.drop n

theorem eachExcerpt_piece {q : Request} (hq : s.requests[k]? = some q) :
    EachExcerpt (δ := δ) (s.Explains (k + 1)) [q.piece k] := by
  intro x hx
  have hpiece := List.mem_singleton.mp (mem_excerpts.mp hx)
  unfold Request.piece at hpiece
  cases hlocated : q.located with
  | false =>
    rw [hlocated] at hpiece
    cases hpiece
  | true =>
    rw [hlocated] at hpiece
    cases hpiece
    refine ⟨rfl, rfl, 10000 + k, rfl,
      .inr ⟨k, q, Nat.lt_succ_self k, hq, hlocated, Nat.le_refl _, ?_⟩⟩
    rw [Nat.sub_self]
    exact Excerpt.reads_self _

theorem eachExcerpt_ofText (s : Script) :
    EachExcerpt (δ := δ) (s.Explains 0) (Replay.ofText s.initial).buffer.pieces := by
  intro x hx
  obtain rfl := List.mem_singleton.mp hx
  exact ⟨rfl, rfl, 0, rfl, .inl ⟨by decide, Excerpt.reads_self _⟩⟩

end Script

theorem Request.edit_within (q : Request) (n index : Nat) :
    (q.edit n index : Edit δ).start ≤ (q.edit n index : Edit δ).stop ∧
      (q.edit n index : Edit δ).stop ≤ n := by
  have hstart : q.anchor.toNat % (n + 1) < n + 1 := Nat.mod_lt _ n.succ_pos
  have hdelete : q.delete.toNat % (n - q.anchor.toNat % (n + 1) + 1) <
      n - q.anchor.toNat % (n + 1) + 1 := Nat.mod_lt _ (Nat.succ_pos _)
  simp only [edit]
  omega

namespace Replay

/-- What holds of a replay that has carried out the first `k` requests of a script. -/
structure Matches (s : Script) (k : Nat) (r : Replay δ) : Prop where
  text_eq : r.buffer.text = r.model
  coalesced : Coalesced r.buffer.pieces
  explained : EachExcerpt (s.Explains k) r.buffer.pieces

variable {s : Script} {k : Nat} {r : Replay δ} {q : Request}

theorem Matches.length_eq (h : r.Matches s k) : r.buffer.length = r.model.length := by
  rw [← h.text_eq, r.buffer.length_text]

theorem Matches.tryApply_eq (h : r.Matches s k) (q : Request) (index : Nat) :
    r.buffer.tryApply (q.edit r.model.length index) =
      .ok (r.buffer.apply (q.edit r.model.length index)) := by
  obtain ⟨hord, hin⟩ := q.edit_within (δ := δ) r.model.length index
  exact (r.buffer.tryApply_eq_ok_iff _ _).mpr ⟨hord, h.length_eq ▸ hin, rfl⟩

/-- What one request preserves. -/
theorem Matches.step (hs : s.initial.length < 10000) (h : r.Matches s k)
    (hq : s.requests[k]? = some q) : ∃ r', r.step k q = .ok r' ∧ r'.Matches s (k + 1) := by
  let e : Edit δ := q.edit r.model.length k
  have hstep : r.step k q = .ok ⟨r.buffer.apply e, e.applyToText r.model⟩ := by
    rw [Replay.step, h.tryApply_eq]
    rfl
  refine ⟨_, hstep, ?_, ?_, ?_⟩
  · have htext := e.flatten_applyTo (q.edit_within r.model.length k).1 r.buffer.pieces
    exact htext.trans (congrArg e.applyToText h.text_eq)
  · exact (e.noWorse_applyTo r.buffer.pieces).coalesced h.coalesced
  · have hold : EachExcerpt (s.Explains (k + 1)) r.buffer.pieces :=
      fun x hx => (h.explained x hx).succ
    exact (Script.hereditary_explains hs (k + 1)).applyTo hold (Script.eachExcerpt_piece hq)

theorem run_append (r : Replay δ) (index : Nat) (qs qs' : List Request) :
    r.run index (qs ++ qs') =
      (r.run index qs).bind fun r' => r'.run (index + qs.length) qs' := by
  induction qs generalizing r index with
  | nil => rfl
  | cons q qs ih =>
    rw [List.cons_append, run, run]
    cases r.step index q with
    | error err => rfl
    | ok r' =>
      change r'.run (index + 1) (qs ++ qs') = (r'.run (index + 1) qs).bind _
      rw [ih, List.length_cons, Nat.add_assoc, Nat.add_comm 1]

theorem run_singleton (r : Replay δ) (index : Nat) (q : Request) :
    r.run index [q] = r.step index q := by
  rw [run]
  cases r.step index q <;> rfl

theorem matches_ofText (s : Script) : (ofText s.initial : Replay δ).Matches s 0 where
  text_eq := List.append_nil s.initial
  coalesced := trivial
  explained := s.eachExcerpt_ofText

theorem exists_matches (hs : s.initial.length < 10000) (hk : k ≤ s.requests.length) :
    ∃ r : Replay δ, (ofText s.initial).run 0 (s.requests.take k) = .ok r ∧ r.Matches s k := by
  induction k with
  | zero => exact ⟨_, rfl, matches_ofText s⟩
  | succ k ih =>
    obtain ⟨r, hrun, hmatches⟩ := ih (Nat.le_of_succ_le hk)
    have hq : s.requests[k]? = some s.requests[k] := List.getElem?_eq_getElem hk
    obtain ⟨r', hstep, hmatches'⟩ := hmatches.step hs hq
    refine ⟨r', ?_, hmatches'⟩
    rw [List.take_add_one, hq, Option.toList_some, run_append, hrun, Nat.zero_add,
      List.length_take_of_le (Nat.le_of_succ_le hk)]
    exact (run_singleton r k _).trans hstep

end Replay

/-- Octets that are a script can be replayed up to any of its requests. The one that comes next
there, whatever it asks for, lies in order within the text and is not refused. The two texts are
the same, bare text is joined, and the script explains all that is located. -/
theorem Script.replay_matches {bs : List UInt8} {s : Script} (h : Script.decode? bs = some s)
    {k : Nat} (hk : k ≤ s.requests.length) :
    ∃ r : Replay δ, (Replay.ofText s.initial).run 0 (s.requests.take k) = .ok r ∧
      (∀ q : Request, let e : Edit δ := q.edit r.model.length k
        e.start ≤ e.stop ∧ e.stop ≤ r.model.length ∧ r.buffer.tryApply e = .ok (r.buffer.apply e)) ∧
      r.buffer.text = r.model ∧ r.buffer.length = r.model.length ∧ Coalesced r.buffer.pieces ∧
      ∀ x ∈ excerpts r.buffer.pieces, s.Explains k x := by
  have hs : s.initial.length < 10000 := Nat.lt_of_le_of_lt (length_initial_le h) (by decide)
  obtain ⟨r, hrun, hmatches⟩ := Replay.exists_matches hs hk
  refine ⟨r, hrun, fun q => ?_, hmatches.text_eq, hmatches.length_eq, hmatches.coalesced,
    hmatches.explained⟩
  obtain ⟨hord, hin⟩ := q.edit_within r.model.length k
  exact ⟨hord, hin, hmatches.tryApply_eq q k⟩

/-- One octet of the initial text is not UTF-8, and the octets end before the last
request is read in full. -/
theorem Script.replay_matches_cut_short :
    let bs : List UInt8 := [3, 0, 0x61, 0xFF, 0x62, 2, 0, 1, 0, 1, 0, 1, 2, 0, 0x78, 0x79,
      2, 0, 0, 0, 0, 9, 0, 0x2D]
    let s : Script := ⟨['a', '\uFFFD', 'b'], [⟨1, 1, [0x78, 0x79], true⟩, ⟨2, 0, [0x2D], false⟩]⟩
    let out : Buffer Nat := ⟨[.located ⟨['a'], none, .offset 0, none⟩,
      .located ⟨['x'], none, .offset 10000, none⟩, .bare ['-'],
      .located ⟨['y'], none, .offset 10001, none⟩, .located ⟨['b'], none, .offset 2, none⟩]⟩
    Script.decode? bs = some s ∧ 2 ≤ s.requests.length ∧
      ∃ r : Replay Nat, (Replay.ofText s.initial).run 0 (s.requests.take 2) = .ok r ∧
        r = ⟨out, ['a', 'x', '-', 'y', 'b']⟩ ∧ r.buffer.text = r.model ∧
        Coalesced r.buffer.pieces ∧ ∀ x ∈ excerpts r.buffer.pieces, s.Explains 2 x := by
  intro bs s out
  have h : Script.decode? bs = some s := by decide
  have hk : 2 ≤ s.requests.length := by decide
  obtain ⟨r, hrun, -, htext, -, hcoalesced, hexplained⟩ := Script.replay_matches (δ := Nat) h hk
  have hout : ((Replay.ofText (δ := Nat) s.initial).run 0 (s.requests.take 2)).toOption =
      some ⟨out, ['a', 'x', '-', 'y', 'b']⟩ := by decide
  rw [hrun] at hout
  exact ⟨h, hk, r, hrun, Option.some.inj hout, htext, hcoalesced, hexplained⟩

end TracedText
