/-
What can be reached by dragging.

A drop moves one node among its siblings, so what is reached by any number of drops differs
from the tree as it was in the order of child lists.  All such trees are reached.  Two
neighbours change places by one drop, which is enough for any permutation of one child
list; and one child list after the other is put in order, each drop on the tree as it has
become by then.  A single rearrangement of the whole tree does as much:

* `Tree.DragsTo` — the trees that are reached by dragging;
* `Tree.Obtained.dragsTo_swap` — two neighbours change places;
* `Tree.Obtained.dragsTo_put` — any order of one child list;
* `Tree.Obtained.dragsTo_of_permutes` — any order of all child lists;
* `Tree.Permutes.run_rearrange_root` — all of it at once;
* `Tree.dragsTo_iff` — the trees that are reached either way.
-/
import FormulaEditor.Proofs.Moving

namespace FormulaEditor

open Branch

namespace Tree

/-- What can be made of a tree by picking up a node and dropping it, any number of times. -/
inductive DragsTo (t : Tree) : Tree → Prop
  | refl : DragsTo t t
  | drop {u u' : Tree} {path path' : Path} {drag : Drag} {position : Nat} : DragsTo t u →
      Drag.start u path = .ok drag → (drag.drop position).run u = .ok path' u' → DragsTo t u'

variable {t t' u : Tree} {up : Handle} {operator : Operator} {place : Option Handle} {tag : Tag}

namespace DragsTo

theorem trans (h : t.DragsTo u) (h' : u.DragsTo t') : t.DragsTo t' := by
  induction h' with
  | refl => exact h
  | drop _ hstart hrun ih => exact .drop ih hstart hrun

theorem obtained (h : t.DragsTo u) (ht : t.Obtained) : u.Obtained := by
  induction h with
  | refl => exact ht
  | @drop u u' _ _ drag position _ _ hrun ih =>
    exact Edit.leaves_of_run hrun ▸ .drop drag position ih

/-- Whatever is dropped, the order of child lists is all that changes. -/
theorem permutes (h : t.DragsTo u) (ht : t.IsForest) : t.Permutes u := by
  induction h with
  | refl => exact .refl t
  | @drop u u' _ _ drag position _ _ hrun ih =>
    exact ih.trans ((drag.isPermuting_drop position).permutes (ih.isForest ht) hrun)

end DragsTo

/-! ### One child list -/

/-- Moving an element behind its right neighbour. -/
theorem insertIdx_erase_swap {α : Type} [DecidableEq α] {left right : List α} {a b : α}
    (hnodup : (left ++ a :: b :: right).Nodup) :
    ((left ++ a :: b :: right).erase a).insertIdx (left.length + 1) a
      = left ++ b :: a :: right := by
  have hnot : a ∉ left := fun hmem =>
    (List.nodup_append.mp hnodup).2.2 a hmem a (List.mem_cons_self ..) rfl
  rw [List.erase_append_right _ hnot, List.erase_cons_head]
  have hinsert := Arrangement.insertIdx_length_append (left ++ [b]) right a
  simpa using hinsert

/-- Two neighbours change places when the one on the left is dropped behind the other one. -/
theorem Obtained.dragsTo_swap (ht : t.Obtained) {left right : List Handle} {a b : Handle}
    (hget : t.get? up = some ⟨.compound operator (left ++ a :: b :: right), place, tag⟩) :
    t.DragsTo (t.put up (some ⟨.compound operator (left ++ b :: a :: right), place, tag⟩)) := by
  have hproper := ht.isProper
  obtain ⟨path, hpath⟩ := (hproper.reaches up _ hget).exists_nodeAt
  obtain ⟨branch, rfl, hb⟩ := hproper.toIsForest.exists_bears hget
  have hnode := Option.some_inj.mp (hb.get.symm.trans hget)
  cases branch with
  | literal => cases hnode
  | compound up tag' operator' parts =>
    obtain ⟨hcontent, _, rfl⟩ := Node.mk.inj hnode
    obtain ⟨rfl, htops⟩ := Content.compound.inj hcontent
    have hnodup : (left ++ a :: b :: right).Nodup := htops ▸ nodup_tops hb.parts.nodup
    have hlen : parts.length = left.length + (right.length + 2) := by
      simpa using congrArg List.length htops
    have hfirst : (parts.map top)[left.length]? = some a := by simp [htops]
    rw [List.getElem?_map] at hfirst
    obtain ⟨part, hpart, rfl⟩ := Option.map_eq_some_iff.mp hfirst
    obtain ⟨drag, hstart⟩ := Drag.exists_start hb hpath hpart
    obtain ⟨rfl, _, hbegun⟩ := Drag.begunOn_of_start hb hpath hpart hstart
    have hlt : left.length + 1 < parts.length := by omega
    obtain ⟨t', order, hrun, _, _, _, _, _, horder, rfl⟩ :=
      hbegun.exists_move hproper.toIsForest ht.hasOwnTags hlt
    rw [htops, insertIdx_erase_swap hnodup] at horder
    rw [horder] at hrun
    exact .drop .refl hstart hrun

/-- Any permutation of a child list is reached by swaps of neighbours.  What stands in front
of the permuted part stays. -/
theorem Obtained.dragsTo_put (ht : t.Obtained) {l l' : List Handle} (hperm : l.Perm l')
    {front : List Handle}
    (hget : t.get? up = some ⟨.compound operator (front ++ l), place, tag⟩) :
    t.DragsTo (t.put up (some ⟨.compound operator (front ++ l'), place, tag⟩)) := by
  induction hperm generalizing t front with
  | nil =>
    have hsame := (SameExcept.put t up (t.get? up)).eq fun id hid => by
      rw [List.mem_singleton.mp hid, get?_put_self _ (lt_size_of_get? hget)]
    rw [← hget, hsame]
    exact .refl
  | cons a _ ih =>
    rw [List.append_cons] at hget ⊢
    exact ih ht hget
  | swap a b l => exact ht.dragsTo_swap hget
  | @trans _ l _ _ _ ih ih' =>
    have hmid := ih ht hget
    have hrest := ih' (hmid.obtained ht) (get?_put_self _ (lt_size_of_get? hget))
    rw [put_put_same] at hrest
    exact hmid.trans hrest

/-! ### All child lists -/

/-- One slot that differs in the order of its child list is put in order. -/
theorem Obtained.exists_dragsTo_get (ht : t.Obtained) (h : t.Permutes t') (id : Handle) :
    ∃ u, t.DragsTo u ∧ u.get? id = t'.get? id ∧ t.SameExcept u [id] := by
  have hrel := h.rel id
  cases hget : t.get? id with
  | none =>
    rw [hget] at hrel
    generalize t'.get? id = slot at hrel
    cases hrel
    exact ⟨t, .refl, hget, .refl t _⟩
  | some node =>
    obtain ⟨⟨content', place', tag'⟩, hget', hcontent, hplace, htag⟩ := h.get hget
    obtain ⟨content, place, tag⟩ := node
    obtain rfl : place' = place := hplace
    obtain rfl : tag' = tag := htag
    rw [hget']
    cases hcontent with
    | literal => exact ⟨t, .refl, hget, .refl t _⟩
    | @compound operator children children' hperm =>
      have hget : t.get? id = some ⟨.compound operator ([] ++ children), place', tag'⟩ := hget
      exact ⟨_, ht.dragsTo_put hperm hget, get?_put_self _ (lt_size_of_get? hget), .put t id _⟩

/-- The induction is on the slots that may differ: each is put in order on the tree as it
is by then. -/
theorem Obtained.dragsTo_of_permutes {ids : List Handle} (ht : t.Obtained) (h : t.Permutes t')
    (hsame : t.SameExcept t' ids) : t.DragsTo t' := by
  induction ids generalizing t with
  | nil =>
    rw [hsame.eq fun id hid => absurd hid List.not_mem_nil]
    exact .refl
  | cons id ids ih =>
    obtain ⟨u, hu, hid, hput⟩ := ht.exists_dragsTo_get h id
    have hpermutes := hu.permutes ht.isProper.toIsForest
    have hrest : u.SameExcept t' ids := by
      refine ⟨hsame.size.trans hput.size.symm, hsame.root.trans hput.root.symm,
        hsame.nextTag.trans hput.nextTag.symm, fun other hother => ?_⟩
      by_cases heq : other = id
      · rw [heq, hid]
      · rw [hput.get? other (by rwa [List.mem_singleton]),
          hsame.get? other (by simp [heq, hother])]
    exact hu.trans (ih (hu.obtained ht) (hpermutes.symm.trans h) hrest)

/-- Slots without a node have none in either order. -/
theorem Permutes.sameExcept {b : Branch} (h : t.Permutes t') (hb : t.IsWhole b) :
    t.SameExcept t' b.handles := by
  refine ⟨h.size, h.root, h.nextTag, fun id hid => ?_⟩
  have hnone : t.get? id = none :=
    Option.not_isSome_iff_eq_none.mp fun hlive => hid (hb.mem id hlive)
  have hrel := h.rel id
  rw [hnone] at hrel ⊢
  generalize t'.get? id = slot at hrel
  cases hrel
  rfl

/-- Any order of the child lists is reached by one rearrangement that is aimed at it. -/
theorem Permutes.run_rearrange_root {b : Branch} (h : t.Permutes t') (hb : t.IsWhole b)
    (htags : t.HasOwnTags) : (Edit.rearrange t.root t' t'.root).run t = .ok () t' := by
  obtain ⟨r, hr, hshuffles⟩ := h.exists_shuffles hb.bears
  obtain ⟨u, hrun, hreorders⟩ := Edit.run_rearrange hb.bears hshuffles hr
    (matches_of_bare_eq rfl (hr.nodup_tags (h.hasOwnTags htags)))
  rw [hreorders.unique ⟨hshuffles, hr, h.sameExcept hb⟩, hshuffles.top] at hrun
  rwa [h.root, hb.root]

/-- By dragging one node after the other, a tree becomes any tree that differs from it in the
order of child lists, and no other one.  These are also the trees that it can be rearranged
into at once. -/
theorem dragsTo_iff (ht : t.Obtained) (t' : Tree) :
    (t.DragsTo t' ↔ t.Permutes t') ∧
    (t.DragsTo t' ↔ (Edit.rearrange t.root t' t'.root).run t = .ok () t') := by
  have hproper := ht.isProper
  obtain ⟨b, hb, _⟩ := hproper.exists_isWhole
  have hpermutes : t.DragsTo t' ↔ t.Permutes t' :=
    ⟨fun h => h.permutes hproper.toIsForest, fun h => ht.dragsTo_of_permutes h (h.sameExcept hb)⟩
  refine ⟨hpermutes, hpermutes.trans ⟨fun h => h.run_rearrange_root hb ht.hasOwnTags, ?_⟩⟩
  exact (Edit.isPermuting_rearrange t.root t' t'.root).permutes hproper.toIsForest

/-- A sum with a product in it, turned round at both levels. -/
theorem dragsTo_iff_sum : ∃ t t' : Tree, parse "a+b*c" = .ok t ∧
    t'.get? ⟨0⟩ = some ⟨.compound .add [⟨2⟩, ⟨1⟩], none, ⟨0⟩⟩ ∧
    t'.get? ⟨2⟩ = some ⟨.compound .mul [⟨4⟩, ⟨3⟩], some ⟨0⟩, ⟨2⟩⟩ ∧
    (Edit.rearrange t.root t' t'.root).run t = .ok () t' ∧ t.Permutes t' ∧ t.DragsTo t' := by
  obtain ⟨t, hparse, ht⟩ := exists_sum_product
  obtain ⟨t', ht'⟩ : ∃ t' : Tree, t' = ⟨#[some ⟨.compound .add [⟨2⟩, ⟨1⟩], none, ⟨0⟩⟩,
      some ⟨.literal "a", some ⟨0⟩, ⟨1⟩⟩, some ⟨.compound .mul [⟨4⟩, ⟨3⟩], some ⟨0⟩, ⟨2⟩⟩,
      some ⟨.literal "b", some ⟨2⟩, ⟨3⟩⟩, some ⟨.literal "c", some ⟨2⟩, ⟨4⟩⟩], ⟨0⟩, 5⟩ := ⟨_, rfl⟩
  have hrun : (Edit.rearrange t.root t' t'.root).run t = .ok () t' := by
    rw [ht, ht']
    cbv
  obtain ⟨hpermutes, hrearranged⟩ := dragsTo_iff (.parse hparse) t'
  have hdrags := hrearranged.mpr hrun
  refine ⟨t, t', hparse, ?_, ?_, hrun, hpermutes.mp hdrags, hdrags⟩
  · rw [ht']
    rfl
  · rw [ht']
    rfl

end Tree

end FormulaEditor
