import TracedText.Proofs.Run
import TracedText.Proofs.SourceEditTrace

/-!
# What is left of the excerpts of one source

When nothing from a source is put in, an operation can only take excerpts of that source out and
cut them in two, where the part that comes first in the list stops before the other one starts.
This is so for edits in order. A source edit does no more than that when the excerpts are as long
as their stretch of the source: only then do a head counted from the front and a tail counted from
the back never overlap.
-/
namespace TracedText

variable {δ : Type} {xs ys zs : List (Excerpt δ)}

/-- The excerpts of one source, in the order of the list. -/
def excerptsFrom (source : Option String) (ps : List (Piece δ)) : List (Excerpt δ) :=
  (excerpts ps).filter (·.isFrom source)

/-- Not an excerpt of the source. -/
def Piece.isForeign (source : Option String) (p : Piece δ) : Bool :=
  !p.excerpt?.any (·.isFrom source)

/-- Some excerpts go, or one is cut in two. -/
inductive Thins : List (Excerpt δ) → List (Excerpt δ) → Prop
  | sublist {xs ys : List (Excerpt δ)} (h : ys.Sublist xs) : Thins xs ys
  | split (xs ys : List (Excerpt δ)) (x : Excerpt δ) {m n : Nat} (h : m ≤ n) :
      Thins (xs ++ x :: ys) (xs ++ x.take m :: x.drop n :: ys)

def Thinned : List (Excerpt δ) → List (Excerpt δ) → Prop := Relation.ReflTransGen Thins

namespace Thinned

theorem refl (xs : List (Excerpt δ)) : Thinned xs xs := Relation.ReflTransGen.refl

theorem trans (h : Thinned xs ys) (h' : Thinned ys zs) : Thinned xs zs :=
  Relation.ReflTransGen.trans h h'

theorem of_sublist (h : ys.Sublist xs) : Thinned xs ys :=
  Relation.ReflTransGen.single (.sublist h)

theorem append_left (ws : List (Excerpt δ)) (h : Thinned xs ys) :
    Thinned (ws ++ xs) (ws ++ ys) := by
  induction h with
  | refl => exact refl _
  | tail _ hstep ih =>
    refine ih.tail ?_
    cases hstep with
    | sublist h => exact .sublist (h.append_left ws)
    | split xs ys x h =>
      rw [← List.append_assoc, ← List.append_assoc]
      exact .split (ws ++ xs) ys x h

theorem append_right (ws : List (Excerpt δ)) (h : Thinned xs ys) :
    Thinned (xs ++ ws) (ys ++ ws) := by
  induction h with
  | refl => exact refl _
  | tail _ hstep ih =>
    refine ih.tail ?_
    cases hstep with
    | sublist h => exact .sublist (h.append_right ws)
    | split xs ys x h =>
      rw [List.append_assoc, List.append_assoc]
      exact .split xs (ys ++ ws) x h

theorem append {us vs : List (Excerpt δ)} (h : Thinned xs ys) (h' : Thinned us vs) :
    Thinned (xs ++ us) (ys ++ vs) :=
  (h.append_right us).trans (h'.append_left ys)

end Thinned

theorem sublist_singleton (p : Piece δ) {kept : Prop} [Decidable kept] :
    (if kept then [p] else []).Sublist [p] := by
  by_cases h : kept
  · rw [if_pos h]
  · rw [if_neg h]
    exact List.nil_sublist _

section Source

variable (source : Option String) {ps qs : List (Piece δ)}

theorem excerptsFrom_append (ps qs : List (Piece δ)) :
    excerptsFrom source (ps ++ qs) = excerptsFrom source ps ++ excerptsFrom source qs := by
  rw [excerptsFrom, excerpts_append, List.filter_append]
  rfl

theorem excerptsFrom_cons (p : Piece δ) (ps : List (Piece δ)) :
    excerptsFrom source (p :: ps) = excerptsFrom source [p] ++ excerptsFrom source ps :=
  excerptsFrom_append source [p] ps

theorem excerptsFrom_split {i : Nat} {p : Piece δ} (hp : ps[i]? = some p) :
    excerptsFrom source ps =
      excerptsFrom source (ps.take i) ++ excerptsFrom source [p] ++
        excerptsFrom source (ps.drop (i + 1)) := by
  rw [List.append_assoc, ← excerptsFrom_append, ← excerptsFrom_append]
  exact congrArg _ (eq_take_append_cons_drop hp)

theorem excerptsFrom_sublist (h : qs.Sublist ps) :
    (excerptsFrom source qs).Sublist (excerptsFrom source ps) :=
  (h.filterMap _).filter _

theorem excerptsFrom_eq_nil (h : ∀ p ∈ ps, p.isForeign source = true) :
    excerptsFrom source ps = [] := by
  rw [excerptsFrom, List.filter_eq_nil_iff]
  intro x hx hfrom
  have hforeign := h _ (mem_excerpts.mp hx)
  simp only [Piece.isForeign, Piece.excerpt?, Option.any_some, hfrom, Bool.not_true,
    Bool.false_eq_true] at hforeign

/-- The two parts of a piece that is cut twice in order. -/
theorem thinned_cut (p : Piece δ) {m n : Nat} (h : m ≤ n) :
    Thinned (excerptsFrom source [p]) (excerptsFrom source [p.take m, p.drop n]) := by
  cases p with
  | bare t => exact Thinned.refl _
  | located x =>
    cases hx : x.isFrom source with
    | false =>
      have hnil :
          excerptsFrom source [Piece.take m (.located x), Piece.drop n (.located x)] = [] := by
        apply excerptsFrom_eq_nil
        intro p hp
        rcases List.mem_cons.mp hp with rfl | hp
        · exact congrArg not hx
        · rw [List.mem_singleton.mp hp]
          exact congrArg not hx
      rw [hnil]
      exact Thinned.of_sublist (List.nil_sublist _)
    | true =>
      have hone : excerptsFrom source [Piece.located x] = [x] := List.filter_cons_of_pos hx
      have htwo : excerptsFrom source [Piece.take m (.located x), Piece.drop n (.located x)] =
          [x.take m, x.drop n] :=
        (List.filter_cons_of_pos (l := [x.drop n]) hx).trans
          (congrArg _ (List.filter_cons_of_pos hx))
      rw [hone, htwo]
      exact Relation.ReflTransGen.single (.split [] [] x h)

/-- Parts of a piece, each of them there or not. -/
theorem thinned_parts (p : Piece δ) {m n : Nat} (h : m ≤ n)
    (hqs : qs.Sublist [p.take m, p.drop n]) :
    Thinned (excerptsFrom source [p]) (excerptsFrom source qs) :=
  (thinned_cut source p h).trans (Thinned.of_sublist (excerptsFrom_sublist source hqs))

/-- What is left of two lists of pieces that stand around others, in a seamless view. -/
theorem excerptsFrom_eq_of_flatMap (front back : List (Piece δ)) {rs new : List (Piece δ)}
    (hnew : ∀ p ∈ new, p.isForeign source = true)
    (h : ∀ view : Piece δ → List (Excerpt δ), Seamless view →
      rs.flatMap view = front.flatMap view ++ new.flatMap view ++ back.flatMap view) :
    excerptsFrom source rs = excerptsFrom source front ++ excerptsFrom source back := by
  have hview := h _ seamless_excerpt?
  simp only [← excerpts_eq_flatMap] at hview
  have hnil : (excerpts new).filter (·.isFrom source) = [] := excerptsFrom_eq_nil source hnew
  rw [excerptsFrom, hview, List.filter_append, List.filter_append, hnil, List.append_nil]
  rfl

end Source

namespace Edit

variable (e : Edit δ) {ps : List (Piece δ)}

theorem head_sublist (a : Nat) (p : Piece δ) : (e.head (a, p)).Sublist [p.take (e.start - a)] :=
  sublist_singleton _

theorem tail_sublist (a : Nat) (p : Piece δ) : (e.tail (a, p)).Sublist [p.drop (e.stop - a)] :=
  sublist_singleton _

variable {e} {source : Option String} (hord : e.InOrder)
include hord

theorem thinned_front_back (h : ps ≠ []) :
    Thinned (excerptsFrom source ps)
      (excerptsFrom source (e.front ps) ++ excerptsFrom source (e.back ps)) := by
  obtain ⟨p, hp⟩ := e.exists_first h
  obtain ⟨q, hq⟩ := e.exists_last h
  simp only [front, back, getElem?_placed, hp, hq, Option.map_some, Option.elim_some,
    excerptsFrom_append]
  rcases Nat.lt_trichotomy (e.lastIndex ps) (e.firstIndex ps) with hlt | heq | hgt
  · rw [e.head_eq_nil_of_lastIndex_lt hord h hlt, e.tail_eq_nil_of_lastIndex_lt hord h hq hlt,
      Nat.max_eq_left hlt, ← excerptsFrom_append, ← excerptsFrom_append, ← excerptsFrom_append,
      List.append_nil, List.nil_append, List.take_append_drop]
    exact Thinned.refl _
  · -- Both cuts fall on the same piece.
    rw [← heq] at hp ⊢
    obtain rfl : q = p := Option.some.inj (hq.symm.trans hp)
    have hcut : e.start - lengthBefore ps (e.lastIndex ps) ≤
        e.stop - lengthBefore ps (e.lastIndex ps) := Nat.sub_le_sub_right hord _
    have hparts := thinned_parts source q hcut
      ((e.head_sublist (lengthBefore ps (e.lastIndex ps)) q).append
        (e.tail_sublist (lengthBefore ps (e.lastIndex ps)) q))
    rw [excerptsFrom_append] at hparts
    rw [excerptsFrom_split source hq, Nat.max_eq_right (Nat.le_succ _)]
    have hall := ((Thinned.refl (excerptsFrom source (ps.take (e.lastIndex ps)))).append
      hparts).append (Thinned.refl (excerptsFrom source (ps.drop (e.lastIndex ps + 1))))
    simpa only [List.append_assoc] using hall
  · -- The pieces between the two that are cut go.
    have hhead := thinned_parts source p (Nat.le_refl _)
      ((e.head_sublist (lengthBefore ps (e.firstIndex ps)) p).trans (List.sublist_append_left _ _))
    have htail := thinned_parts source q (Nat.le_refl (e.stop - lengthBefore ps (e.lastIndex ps)))
      ((e.tail_sublist (lengthBefore ps (e.lastIndex ps)) q).trans (List.sublist_cons_self _ _))
    have hrest :
        (ps.drop (e.firstIndex ps + 1))[e.lastIndex ps - (e.firstIndex ps + 1)]? = some q := by
      rw [List.getElem?_drop, Nat.add_sub_cancel' hgt, hq]
    rw [excerptsFrom_split source hp, excerptsFrom_split source hrest, List.drop_drop,
      show e.firstIndex ps + 1 + (e.lastIndex ps - (e.firstIndex ps + 1) + 1) =
          e.lastIndex ps + 1 by omega,
      Nat.max_eq_right (by omega)]
    have hall := ((Thinned.refl (excerptsFrom source (ps.take (e.firstIndex ps)))).append
      hhead).append (((Thinned.of_sublist (List.nil_sublist (excerptsFrom source
        ((ps.drop (e.firstIndex ps + 1)).take (e.lastIndex ps - (e.firstIndex ps + 1)))))).append
          htail).append (Thinned.refl (excerptsFrom source (ps.drop (e.lastIndex ps + 1)))))
    simpa only [List.append_assoc, List.nil_append] using hall

theorem thinned_applyTo (hnew : ∀ p ∈ e.new, p.isForeign source = true) (ps : List (Piece δ)) :
    Thinned (excerptsFrom source ps) (excerptsFrom source (e.applyTo ps)) := by
  by_cases h : ps = []
  · subst h
    have hall := excerptsFrom_eq_of_flatMap source [] [] hnew
      (fun view hview => (e.flatMap_applyTo_nil hview).trans (List.append_nil _).symm)
    rw [hall]
    exact Thinned.refl _
  · rw [excerptsFrom_eq_of_flatMap source (e.front ps) (e.back ps) hnew
      fun view hview => e.flatMap_applyTo hview h]
    exact thinned_front_back hord h

end Edit

namespace SourceEdit

variable {e : SourceEdit δ} {ps : List (Piece δ)} {x : Excerpt δ} {source : Option String}

theorem head_sublist (e : SourceEdit δ) (x : Excerpt δ) :
    (e.head x).Sublist [Piece.take (e.start - x.span.start) (.located x)] :=
  sublist_singleton _

theorem tail_sublist (hx : x.IsExact) (hin : e.isWithin x = true) (hord : e.start ≤ e.stop) :
    (e.tail x).Sublist [Piece.drop (e.stop - x.span.start) (.located x)] := by
  rw [tail_eq hx hin hord]
  exact sublist_singleton _

/-- Parts of an excerpt are from the same source as the excerpt. -/
theorem isForeign_of_mem_head_tail (hx : x.isFrom source = false) {p : Piece δ}
    (hp : p ∈ e.head x ++ e.tail x) : p.isForeign source = true := by
  rcases List.mem_append.mp hp with hp | hp
  · rw [List.mem_singleton.mp ((e.head_sublist x).subset hp)]
    exact congrArg not hx
  · have htail : (e.tail x).Sublist [Piece.dropFrom (-↑(x.span.stop - e.stop)) (.located x)] :=
      sublist_singleton _
    rw [List.mem_singleton.mp (htail.subset hp)]
    exact congrArg not hx

theorem thinned_head_tail (hx : x.isFrom source = true → x.IsExact) (hin : e.isWithin x = true)
    (hord : e.start ≤ e.stop) :
    Thinned (excerptsFrom source [.located x]) (excerptsFrom source (e.head x ++ e.tail x)) := by
  cases hfrom : x.isFrom source with
  | false =>
    rw [excerptsFrom_eq_nil source fun p hp => isForeign_of_mem_head_tail hfrom hp]
    exact Thinned.of_sublist (List.nil_sublist _)
  | true =>
    exact thinned_parts source (.located x) (Nat.sub_le_sub_right hord x.span.start)
      ((e.head_sublist x).append (tail_sublist (hx hfrom) hin hord))

end SourceEdit

theorem Buffer.thinned_replaceSource {source : Option String} (b : Buffer δ) (e : SourceEdit δ)
    (hnew : ∀ p ∈ e.new, p.isForeign source = true)
    (hexact : ∀ x ∈ excerptsFrom source b.pieces, x.IsExact) :
    Thinned (excerptsFrom source b.pieces) (excerptsFrom source (b.replaceSource e).2.pieces) := by
  cases hdone : (b.replaceSource e).1 with
  | false =>
    rw [b.replaceSource_of_eq_false e hdone]
    exact Thinned.refl _
  | true =>
    obtain ⟨hord, i, x, htarget, hout⟩ := b.replaceSource_of_eq_true e hdone
    obtain ⟨hi, hin⟩ := SourceEdit.getElem?_of_target? htarget
    have hmem := mem_excerpts.mpr (List.mem_of_getElem? hi)
    have hparts := SourceEdit.thinned_head_tail
      (fun hfrom => hexact x (List.mem_filter.mpr ⟨hmem, hfrom⟩)) hin hord
    rw [hout, excerptsFrom_split source hi, excerptsFrom_eq_of_flatMap source
      (b.pieces.take i ++ e.head x) (e.tail x ++ b.pieces.drop (i + 1)) hnew
      fun view hview => SourceEdit.flatMap_splice hview i]
    have hall := ((Thinned.refl (excerptsFrom source (b.pieces.take i))).append hparts).append
      (Thinned.refl (excerptsFrom source (b.pieces.drop (i + 1))))
    simpa only [excerptsFrom_append, List.append_assoc] using hall

end TracedText
