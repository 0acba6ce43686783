/-
Dropping on any tree.

A drag holds on to nothing of the tree that it was begun on, so it may be dropped on a
tree that has been edited since, or on another tree altogether, whose names and tags are
anything.  A drop first rearranges the tree and only then looks where the dragged node
has come to stand.  That cannot undo what was done, but neither can it fail:

* `Drag.BegunOn.run_drop_of_ok` — if the tree can be rearranged, the path leads to a node
  with the tag of the dragged one;
* `Drag.BegunOn.run_drop_cases` — the outcomes of a drop;
* `Drag.drop_atomic` — so a drop that fails has left the tree as it was.
-/
import FormulaEditor.Proofs.Dragging

namespace FormulaEditor

open Branch

namespace Drag

variable {t u u' : Tree} {path : Path} {drag : Drag} {place : Option Handle} {up here : Handle}
  {tag : Tag} {operator : Operator} {parts : List Branch} {part : Branch} {position : Nat}
  {tree : Tree}

/-- What is offered at a position is a whole tree, with a copy of the dragged node at that
position below the root. -/
theorem BegunOn.exists_isWhole (h : drag.BegunOn t place up tag operator parts part)
    (htree : drag.arrangementAt? position = some tree) :
    ∃ d child : Branch, tree.IsWhole d ∧ d.parts[position]? = some child ∧
      drag.tag = child.tag := by
  obtain ⟨order, hcopy, _, _, hpart⟩ := h.exists_order_of_offer htree
  obtain ⟨d, hd, hbare⟩ := hcopy.exists_isCompact
  obtain ⟨child, hchild, hkey⟩ := exists_getElem?_of_bare_eq hbare hpart
  exact ⟨d, child, hd.toIsWhole, hchild, h.tag_eq.trans (congrArg ChildKey.tag hkey).symm⟩

/-- If the node at the path can be rearranged to match the arrangement, the drop succeeds:
neither of the checks that are made afterwards can fail. -/
theorem BegunOn.run_drop_of_ok (h : drag.BegunOn t place up tag operator parts part)
    (hu : u.IsTree) (htree : drag.arrangementAt? position = some tree)
    (hpath : u.nodeAt drag.parentPath = .ok here)
    (hrun : (Edit.rearrange here tree tree.root).run u = .ok () u') :
    (drag.drop position).run u = .ok (drag.parentPath.push position) u' ∧
      ∃ id node, u'.nodeAt (drag.parentPath.push position) = .ok id ∧
        u'.get? id = some node ∧ node.tag = drag.tag := by
  obtain ⟨d, child, hd, hchild, htag⟩ := h.exists_isWhole htree
  obtain ⟨node, hget⟩ := hu.exists_get hpath
  obtain ⟨b, rfl, hb⟩ := hu.toIsForest.exists_bears hget
  obtain ⟨r, hmatches, hreorders⟩ := Edit.exists_of_run_rearrange hb hd.bears (hd.root ▸ hrun)
  obtain ⟨moved, hdrop, hmoved, hmovedTag, _, hmovedPath⟩ :=
    run_drop_of_rearrange hu.toIsForest htree hpath hb hrun hreorders hmatches hchild htag
  have hget := (hreorders.bears.part (List.mem_of_getElem? hmoved)).get
  exact ⟨hdrop, moved.top, _, hmovedPath, hget, (tag_node _ _).trans hmovedTag⟩

/-- A drop succeeds after the tree was rearranged, or fails before anything was done. -/
theorem BegunOn.run_drop_cases (h : drag.BegunOn t place up tag operator parts part)
    (hu : u.IsTree) (position : Nat) :
    (∃ u', (drag.drop position).run u = .ok (drag.parentPath.push position) u') ∨
      ∃ e, (drag.drop position).run u = .error e u ∧
        (e = .invalidPath ∨ e = .mismatchedChildren) := by
  cases htree : drag.arrangementAt? position with
  | none => exact .inr ⟨_, run_drop_of_none htree, .inl rfl⟩
  | some tree =>
    cases hpath : u.nodeAt drag.parentPath with
    | error e =>
      exact .inr ⟨e, run_drop_of_lost htree hpath, .inl (hu.failsWith_nodeAt _ e hpath)⟩
    | ok here =>
      obtain ⟨node, hget⟩ := hu.exists_get hpath
      obtain ⟨b, rfl, hb⟩ := hu.toIsForest.exists_bears hget
      obtain ⟨d, _, hd, _⟩ := h.exists_isWhole htree
      by_cases hmatches : ∃ r, b.Shuffles r ∧ r.Matches d
      · obtain ⟨r, hr, hmatches⟩ := hmatches
        obtain ⟨u', hrun, _⟩ := Edit.run_rearrange hb hr hd.bears hmatches
        exact .inl ⟨u', (h.run_drop_of_ok hu htree hpath (hd.root ▸ hrun)).1⟩
      · have hrun := Edit.run_rearrange_of_mismatch hb hd.bears hmatches
        exact .inr ⟨_, run_drop_of_mismatch htree hpath (hd.root ▸ hrun), .inr rfl⟩

/-- Dropping is all or nothing, whatever tree the drag was begun on and whatever tree it is
dropped on.  A drop that fails has changed nothing.  Once the tree has been rearranged the
drop succeeds: the new path leads to a node, and that has the tag of the dragged one. -/
theorem drop_atomic (ht : t.IsTree) (hstart : Drag.start t path = .ok drag) (hu : u.IsTree)
    (position : Nat) :
    (∀ e u', (drag.drop position).run u = .error e u' →
      u' = u ∧ (e = .invalidPath ∨ e = .mismatchedChildren)) ∧
    ∀ tree here u', drag.arrangementAt? position = some tree →
      u.nodeAt drag.parentPath = .ok here →
      (Edit.rearrange here tree tree.root).run u = .ok () u' →
      (drag.drop position).run u = .ok (drag.parentPath.push position) u' ∧
        ∃ id node, u'.nodeAt (drag.parentPath.push position) = .ok id ∧
          u'.get? id = some node ∧ node.tag = drag.tag := by
  obtain ⟨_, _, _, _, _, _, hbegun, _⟩ := exists_begunOn ht.toIsForest hstart
  refine ⟨?_, fun tree here u' htree hpath hrun => hbegun.run_drop_of_ok hu htree hpath hrun⟩
  intro e u' herror
  rcases hbegun.run_drop_cases hu position with ⟨u'', hdrop⟩ | ⟨cause, hdrop, hcause⟩
  · rw [hdrop] at herror
    cases herror
  · rw [hdrop] at herror
    cases herror
    exact ⟨rfl, hcause⟩

/-- A drag in a sum is dropped on a product, which stays as it is, and on the sum itself,
where its new path leads to the dragged term. -/
theorem drop_atomic_sum_product : ∃ (t u t' : Tree) (drag : Drag) (e : EditError),
    parse "a+b" = .ok t ∧ Drag.start t ⟨[0]⟩ = .ok drag ∧ parse "c*d" = .ok u ∧
    (drag.drop 1).run u = .error e u ∧
    (drag.drop 1).run t = .ok (drag.parentPath.push 1) t' ∧
    ∃ id node, t'.nodeAt (drag.parentPath.push 1) = .ok id ∧ t'.get? id = some node ∧
      node.tag = drag.tag := by
  obtain ⟨t, swapped, hparse, _, ht, hswapped⟩ := Tree.exists_sum_swapped
  obtain ⟨u, hu⟩ : ∃ u : Tree, u = ⟨#[some ⟨.compound .mul [⟨1⟩, ⟨2⟩], none, ⟨0⟩⟩,
      some ⟨.literal "c", some ⟨0⟩, ⟨1⟩⟩, some ⟨.literal "d", some ⟨0⟩, ⟨2⟩⟩], ⟨0⟩, 3⟩ := ⟨_, rfl⟩
  obtain ⟨drag, hdrag⟩ : ∃ drag : Drag, drag = ⟨.root, 0, ⟨1⟩,
      ⟨#[some ⟨.literal "a", none, ⟨1⟩⟩], ⟨0⟩, 3⟩, [⟨0, t⟩, ⟨1, swapped⟩]⟩ := ⟨_, rfl⟩
  have hparse' : parse "c*d" = .ok u := by
    rw [hu]
    cbv
  have hstart : Drag.start t ⟨[0]⟩ = .ok drag := by
    rw [hdrag, hswapped, ht]
    cbv
  have hrefused : ∃ e u', (drag.drop 1).run u = .error e u' := by
    refine ⟨.mismatchedChildren, u, ?_⟩
    rw [hdrag, hswapped, hu]
    cbv
  have hrearrange : (Edit.rearrange ⟨0⟩ swapped swapped.root).run t
      = .ok () (t.put ⟨0⟩ (some ⟨.compound .add [⟨2⟩, ⟨1⟩], none, ⟨0⟩⟩)) := by
    rw [hswapped, ht]
    cbv
  have hsum : t.IsTree := (Tree.Obtained.parse hparse).isProper.toIsTree
  have hproduct : u.IsTree := (Tree.Obtained.parse hparse').isProper.toIsTree
  obtain ⟨e, u', hrun⟩ := hrefused
  obtain ⟨rfl, _⟩ := (drop_atomic hsum hstart hproduct 1).1 e u' hrun
  have hdrop := (drop_atomic hsum hstart hsum 1).2 swapped ⟨0⟩ _ (by rw [hdrag]; rfl)
    (by rw [hdrag, ht]; rfl) hrearrange
  exact ⟨t, u', _, drag, e, hparse, hstart, hparse', hrun, hdrop⟩

end Drag

end FormulaEditor
