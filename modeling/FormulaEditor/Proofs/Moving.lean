/-
A drag moves one node.

On the tree that it was begun on, a drag can be dropped at each position among the
siblings of the dragged node.  The child list of the parent is then the old one with the
node taken out and put in at that position, and nothing else in the store has changed,
although it is a whole branch that is copied and matched in between.  A drag in the
other direction undoes the move.

* `Tree.eq_put_of_bears` — a branch whose parts were permuted, as a change of one slot;
* `Drag.BegunOn.exists_move_of_bears` — the drop as a change of one slot;
* `Tree.IsProper.exists_part` — the place of a node;
* `Tree.move_of_drop` — the move from any place to the closest position, and back.
-/
import FormulaEditor.Proofs.Invariants

namespace FormulaEditor

open Branch

/-! ### Taking out and putting in -/

section

variable {α : Type} [DecidableEq α] {l : List α} {a : α} {index : Nat}

theorem erase_eq_eraseIdx (hnodup : l.Nodup) (h : l[index]? = some a) :
    l.erase a = l.eraseIdx index := by
  obtain ⟨hlt, rfl⟩ := List.getElem?_eq_some_iff.mp h
  exact hnodup.erase_getElem index hlt

/-- What is put in where it was taken out is where it was before. -/
theorem insertIdx_erase (hnodup : l.Nodup) (h : l[index]? = some a) :
    (l.erase a).insertIdx index a = l := by
  rw [erase_eq_eraseIdx hnodup h]
  obtain ⟨hlt, rfl⟩ := List.getElem?_eq_some_iff.mp h
  exact List.insertIdx_eraseIdx_getElem hlt

theorem erase_insertIdx (hnodup : (l.insertIdx index a).Nodup) (hle : index ≤ l.length) :
    (l.insertIdx index a).erase a = l := by
  rw [erase_eq_eraseIdx hnodup (by rw [List.getElem?_insertIdx_self, if_pos hle]),
    List.eraseIdx_insertIdx_self]

end

variable {t t' : Tree} {drag : Drag} {place : Option Handle} {up : Handle} {tag : Tag}
  {operator : Operator} {parts : List Branch} {part : Branch}

/-! ### One slot -/

/-- Where the parts of a compound have been permuted, one child list is new. -/
theorem Tree.eq_put_of_bears {order : List Branch}
    (hb : t.Bears place (compound up tag operator parts)) (hperm : order.Perm parts)
    (hsame : t.SameExcept t' (compound up tag operator parts).handles)
    (hb' : t'.Bears place (compound up tag operator order)) :
    t' = t.put up (some ⟨.compound operator (order.map top), place, tag⟩) := by
  have hhandles : (compound up tag operator order).handles.Perm
      (compound up tag operator parts).handles := (Shuffles.of_perm hperm.symm).handles_perm
  have hput := SameExcept.put t up (some ⟨.compound operator (order.map top), place, tag⟩)
  have hsame' := (hput.symm.mono (by simp [handles])).trans hsame
  -- both stores hold the same branch, so they agree on its slots
  have hholds : (t.put up (some ⟨.compound operator (order.map top), place, tag⟩)).Holds place
      (compound up tag operator order) := by
    refine .intro (get?_put_self _ (lt_size_of_get? hb.get)) ?_
    intro part hp
    have hmem := hperm.mem_iff.mp hp
    refine (hb.holds.part hmem).congr fun id hid => get?_put_ne _ _ ?_
    rintro rfl
    exact top_notMem_parts hb.nodup (List.mem_flatMap.mpr ⟨part, hmem, hid⟩)
  exact hsame'.eq fun id hid => hholds.get_eq hb'.holds id (hhandles.mem_iff.mpr hid)

/-- Dropping on a tree that has the compound as it was, and has it at the end of the same
path. -/
theorem Drag.BegunOn.exists_move_of_bears (h : drag.BegunOn t place up tag operator parts part)
    (htags : t.HasOwnTags) {u : Tree} (hu : u.IsForest) (hpath : u.nodeAt drag.parentPath = .ok up)
    (hb : u.Bears place (compound up tag operator parts)) {position : Nat}
    (hlt : position < parts.length) :
    ∃ (u' : Tree) (order : List Branch),
      (drag.drop position).run u = .ok (drag.parentPath.push position) u' ∧
      u'.nodeAt drag.parentPath = .ok up ∧
      u'.nodeAt (drag.parentPath.push position) = .ok part.top ∧
      u'.Bears place (compound up tag operator order) ∧ order.Perm parts ∧
      order[position]? = some part ∧
      order.map top = ((parts.map top).erase part.top).insertIdx position part.top ∧
      u' = u.put up (some ⟨.compound operator (order.map top), place, tag⟩) := by
  obtain ⟨tree, order, htree, hcopy, hperm, htops, hpart, hnodup⟩ := h.exists_order htags hlt
  obtain ⟨u', hrun, hb', hsame, hup, hmoved⟩ :=
    Drag.run_drop (b := compound up tag operator parts) hu htree hpath hb hcopy
      (.of_perm hperm.symm) hnodup hpart h.tag_eq
  exact ⟨u', order, hrun, hup, hmoved, hb', hperm, hpart, htops,
    Tree.eq_put_of_bears hb hperm hsame hb'⟩

/-- Dropping on the tree that the drag was begun on. -/
theorem Drag.BegunOn.exists_move (h : drag.BegunOn t place up tag operator parts part)
    (hforest : t.IsForest) (htags : t.HasOwnTags) {position : Nat}
    (hlt : position < parts.length) :
    ∃ (t' : Tree) (order : List Branch),
      (drag.drop position).run t = .ok (drag.parentPath.push position) t' ∧
      t'.nodeAt drag.parentPath = .ok up ∧
      t'.nodeAt (drag.parentPath.push position) = .ok part.top ∧
      t'.Bears place (compound up tag operator order) ∧ order.Perm parts ∧
      order[position]? = some part ∧
      order.map top = ((parts.map top).erase part.top).insertIdx position part.top ∧
      t' = t.put up (some ⟨.compound operator (order.map top), place, tag⟩) :=
  h.exists_move_of_bears htags hforest h.nodeAt h.bears hlt

/-- Putting the old node back into its slot. -/
theorem Tree.put_put {id : Handle} {node : Node} (hget : t.get? id = some node)
    (slot : Option Node) : (t.put id slot).put id (some node) = t := by
  have hsame := (SameExcept.put t id slot).trans (SameExcept.put _ id (some node))
  refine hsame.eq fun other hother => ?_
  rw [List.mem_singleton.mp hother, hget]
  refine get?_put_self _ ?_
  rw [size_slots_put]
  exact lt_size_of_get? hget

/-- What is put into a slot twice is there as it was put the second time. -/
theorem Tree.put_put_same (t : Tree) (id : Handle) (slot slot' : Option Node) :
    (t.put id slot).put id slot' = t.put id slot' := by
  rw [put, put, put]
  simp only [Array.setIfInBounds_setIfInBounds]

/-- What is put into one slot and then into another one may be put there the other way
round. -/
theorem Tree.put_comm {id other : Handle} (hne : id ≠ other) (t : Tree)
    (slot slot' : Option Node) :
    (t.put id slot).put other slot' = (t.put other slot').put id slot := by
  have hindex : id.index ≠ other.index := fun heq => hne (congrArg Handle.mk heq)
  rw [put, put, put, put]
  simp only [Array.setIfInBounds_comm slot slot' hindex]

/-- A drag from the new place to the old one brings the tree back. -/
theorem Drag.BegunOn.exists_back (h : drag.BegunOn t place up tag operator parts part)
    (hforest : t.IsForest) (htags : t.HasOwnTags) {position : Nat} (hlt : position < parts.length)
    {path : Path} (hrun : (drag.drop position).run t = .ok path t') :
    ∃ back, Drag.start t' path = .ok back ∧
      (back.drop drag.startPosition).run t'
        = .ok (drag.parentPath.push drag.startPosition) t := by
  have hpermutes := (drag.isPermuting_drop position).permutes hforest hrun
  obtain ⟨moved, order, hmove, hup, _, hb, hperm, hpart, htops, heq⟩ :=
    h.exists_move hforest htags hlt
  rw [hrun] at hmove
  cases hmove
  obtain ⟨back, hstart⟩ := Drag.exists_start hb hup hpart
  obtain ⟨hpath, _, hbegun⟩ := Drag.begunOn_of_start hb hup hpart hstart
  have hindex : drag.startPosition < order.length := by
    rw [hperm.length_eq]
    exact (List.getElem?_eq_some_iff.mp h.part_eq).1
  obtain ⟨t'', order', hrun', _, _, _, _, _, htops', heq'⟩ := hbegun.exists_move
    (hpermutes.isForest hforest) (hpermutes.hasOwnTags htags) hindex
  -- the node is taken out where it was put in, and put in where it was taken out
  have hnodup : (parts.map top).Nodup := Tree.nodup_tops h.bears.parts.nodup
  have hold : (parts.map top)[drag.startPosition]? = some part.top := by
    rw [List.getElem?_map, h.part_eq, Option.map_some]
  have hle : position ≤ ((parts.map top).erase part.top).length := by
    rw [List.length_erase_of_mem (List.mem_of_getElem? hold), List.length_map]
    omega
  have hback : order'.map top = parts.map top := by
    rw [htops', htops, erase_insertIdx (htops ▸ Tree.nodup_tops hb.parts.nodup) hle,
      insertIdx_erase hnodup hold]
  refine ⟨back, hstart, ?_⟩
  rw [hrun', hpath, heq', hback, heq]
  exact congrArg (EStateM.Result.ok _) (Tree.put_put h.bears.get _)

/-! ### Moves -/

/-- Every node of a proper tree but the root is a part of a compound, and there is a path to
that. -/
theorem Tree.IsProper.exists_part (h : t.IsProper) {id : Handle} {node : Node}
    (hget : t.get? id = some node) (hroot : id ≠ t.root) :
    ∃ (place : Option Handle) (up : Handle) (tag : Tag) (operator : Operator)
      (parts : List Branch) (step : Nat) (part : Branch) (path : Path), node.parent = some up ∧
      t.Bears place (compound up tag operator parts) ∧ parts[step]? = some part ∧
      part.top = id ∧ t.nodeAt path = .ok up := by
  obtain ⟨up, hup⟩ := Option.isSome_iff_exists.mp (h.isSome_parent hget hroot)
  obtain ⟨place, tag, operator, parts, part, hb, hpart, htop⟩ :=
    h.toIsForest.exists_compound hget hup
  obtain ⟨path, hpath⟩ := (h.reaches up _ hb.get).exists_nodeAt
  obtain ⟨step, hstep⟩ := List.mem_iff_getElem?.mp hpart
  exact ⟨place, up, tag, operator, parts, step, part, path, hup, hb, hstep, htop, hpath⟩

/-- A node that is dragged to a position is moved to the closest one among its siblings:
it is taken out of the child list of its parent and put in again there, and nothing else
changes.  Past the last sibling a drop is refused.  A drag from the new place to the old
one brings the tree back. -/
theorem Tree.move_of_drop (h : t.Obtained) {id : Handle} {node : Node}
    (hget : t.get? id = some node) (hroot : id ≠ t.root) (wanted : Nat) :
    ∃ (up : Handle) (operator : Operator) (siblings : List Handle) (place : Option Handle)
      (tag : Tag) (path : Path) (index : Nat) (drag back : Drag) (t' : Tree),
      node.parent = some up ∧ t.get? up = some ⟨.compound operator siblings, place, tag⟩ ∧
      t.pathTo up = .ok path ∧ t.pathTo id = .ok (path.push index) ∧
      Drag.start t (path.push index) = .ok drag ∧
      (∀ position, (drag.arrangementAt? position).isSome = true ↔ position < siblings.length) ∧
      drag.nearest wanted < siblings.length ∧
      (∀ position < siblings.length,
        Nat.dist (drag.nearest wanted) wanted ≤ Nat.dist position wanted) ∧
      (drag.drop (drag.nearest wanted)).run t = .ok (path.push (drag.nearest wanted)) t' ∧
      t'.nodeAt (path.push (drag.nearest wanted)) = .ok id ∧
      t' = t.put up (some ⟨.compound operator
        ((siblings.erase id).insertIdx (drag.nearest wanted) id), place, tag⟩) ∧
      (∀ position, siblings.length ≤ position →
        (drag.drop position).run t = .error .invalidPath t) ∧
      Drag.start t' (path.push (drag.nearest wanted)) = .ok back ∧
      (back.drop index).run t' = .ok (path.push index) t := by
  have hproper := h.isProper
  have hforest := hproper.toIsForest
  obtain ⟨place, up, tag, operator, parts, index, part, path, hup, hb, hpart, rfl, hpath⟩ :=
    hproper.exists_part hget hroot
  obtain ⟨drag, hstart⟩ := Drag.exists_start hb hpath hpart
  obtain ⟨rfl, rfl, hbegun⟩ := Drag.begunOn_of_start hb hpath hpart hstart
  have hsiblings : (parts.map top).length = parts.length := List.length_map _
  have hlength : drag.arrangements.length = parts.length := by
    simpa using congrArg List.length hbegun.positions
  have hindex : drag.startPosition < parts.length := (List.getElem?_eq_some_iff.mp hpart).1
  have hlt : drag.nearest wanted < parts.length := by
    rw [Drag.nearest, hlength]
    omega
  obtain ⟨t', order, hrun, _, hmoved, _, _, _, htops, ht'⟩ :=
    hbegun.exists_move hforest h.hasOwnTags hlt
  obtain ⟨back, hback, hundo⟩ := hbegun.exists_back hforest h.hasOwnTags hlt hrun
  refine ⟨up, operator, parts.map top, place, tag, drag.parentPath, drag.startPosition, drag, back,
    t', hup, hb.get, hproper.pathTo_eq hpath, hproper.pathTo_eq (hb.nodeAt_part hpath hpart),
    hstart, ?_, ?_, ?_, hrun, hmoved, htops ▸ ht', ?_, hback, hundo⟩
  · intro position
    rw [hsiblings]
    exact Drag.isSome_arrangementAt?_iff hbegun.positions
  · rwa [hsiblings]
  · intro position hposition
    rw [hsiblings] at hposition
    rw [Nat.dist, Nat.dist, Drag.nearest, hlength]
    omega
  · intro position hposition
    refine Drag.run_drop_of_none (Option.not_isSome_iff_eq_none.mp fun hsome => ?_)
    have := (Drag.isSome_arrangementAt?_iff hbegun.positions).mp hsome
    omega

/-- In a sum of two terms the first one is dragged far to the right. -/
theorem Tree.move_of_drop_sum : ∃ (t t' : Tree) (drag : Drag) (path : Path),
    parse "a+b" = .ok t ∧ t.get? ⟨0⟩ = some ⟨.compound .add [⟨1⟩, ⟨2⟩], none, ⟨0⟩⟩ ∧
    (drag.drop (drag.nearest 5)).run t = .ok path t' ∧ t'.nodeAt path = .ok ⟨1⟩ ∧
    t' = t.put ⟨0⟩ (some ⟨.compound .add [⟨2⟩, ⟨1⟩], none, ⟨0⟩⟩) := by
  have hparse : parse "a+b" = .ok ⟨#[some ⟨.compound .add [⟨1⟩, ⟨2⟩], none, ⟨0⟩⟩,
      some ⟨.literal "a", some ⟨0⟩, ⟨1⟩⟩, some ⟨.literal "b", some ⟨0⟩, ⟨2⟩⟩], ⟨0⟩, 3⟩ := by cbv
  have hget : (⟨#[some ⟨.compound .add [⟨1⟩, ⟨2⟩], none, ⟨0⟩⟩, some ⟨.literal "a", some ⟨0⟩, ⟨1⟩⟩,
      some ⟨.literal "b", some ⟨0⟩, ⟨2⟩⟩], ⟨0⟩, 3⟩ : Tree).get? ⟨1⟩
        = some ⟨.literal "a", some ⟨0⟩, ⟨1⟩⟩ := rfl
  have hroot : (⟨1⟩ : Handle) ≠ ⟨0⟩ := by decide
  obtain ⟨up, operator, siblings, place, tag, path, index, drag, back, t', hup, hsum, _, _, _, _,
    hlt, hclosest, hrun, hmoved, ht', _⟩ := move_of_drop (.parse hparse) hget hroot 5
  cases hup
  cases hsum
  have hnearest : drag.nearest 5 = 1 := by
    have hdist := hclosest 1 (by decide)
    rw [Nat.dist, Nat.dist] at hdist
    have hlt : drag.nearest 5 < 2 := hlt
    omega
  refine ⟨_, t', drag, _, hparse, rfl, hrun, hmoved, ?_⟩
  rw [hnearest] at ht'
  exact ht'

end FormulaEditor
