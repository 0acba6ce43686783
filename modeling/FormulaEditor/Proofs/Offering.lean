/-
What is offered is what comes about.

The arrangements of a node are copies of its parent that are made on the side, each with
the node at another position.  When the node is dropped, no copy takes the place of the
parent: the nodes that are there are put into the order of the copy.  The two ways agree:

* `Tree.getElem?_of_arrangements` — the present order is offered at the present position;
* `Tree.arrangements_eq_of_erase` — what is offered for a node depends on the order of the
  others, and not on where the node itself stands among them;
* `Drag.BegunOn.exists_offered` — a copy of the parent after the drop is what was offered;
* `Tree.arrangements_come_true` — so the tree that a node was dropped on offers for it what
  it offered before.

Design notes: a tree that holds a copy has no vacant slots and numbers its nodes from the
root down, so copies of the same branch are equal slot by slot (`Tree.IsCopy.eq`), however
they were put together.
-/
import FormulaEditor.Proofs.Dropping
import FormulaEditor.Proofs.Moving

namespace FormulaEditor

open Branch

/-- Arrangements at the same positions are the same if at each position the trees are. -/
theorem Arrangement.eq_of_positions {l l' : List Arrangement}
    (h : l.map (·.position) = l'.map (·.position))
    (htree : ∀ a ∈ l, ∀ a' ∈ l', a.position = a'.position → a.tree = a'.tree) : l = l' := by
  refine eq_of_map_eq h fun a ha a' ha' hposition => ?_
  have heq := htree a ha a' ha' hposition
  obtain ⟨position, tree⟩ := a
  obtain ⟨position', tree'⟩ := a'
  obtain rfl : position = position' := hposition
  obtain rfl : tree = tree' := heq
  rfl

namespace Tree

variable {t t' : Tree} {place place' : Option Handle} {up : Handle} {tag : Tag}
  {operator : Operator} {parts parts' order order' : List Branch} {part : Branch} {index : Nat}

/-- The topmost nodes of parts tell the parts. -/
theorem Bears.eq_of_map_top_eq (h : t.Bears place (compound up tag operator parts))
    (hsub : order ⊆ parts) (hsub' : order' ⊆ parts) (htops : order.map top = order'.map top) :
    order = order' :=
  eq_of_map_eq htops fun _ hb _ hc heq =>
    List.inj_on_of_nodup_map (nodup_tops h.parts.nodup) (hsub hb) (hsub' hc) heq

/-- At the position where the node is, the arrangement is a plain copy of the parent. -/
theorem getElem?_of_arrangements (h : t.Bears place (compound up tag operator parts))
    (hpart : parts[index]? = some part) {l : List Arrangement}
    (hl : t.arrangements part.top = .ok l) :
    ∃ copy, t.copyOf up = .ok copy ∧ l[index]? = some ⟨index, copy⟩ := by
  obtain ⟨l', hl', hpositions, hall⟩ := exists_arrangements h (List.mem_of_getElem? hpart)
  rw [hl, Except.ok.injEq] at hl'
  subst hl'
  obtain ⟨copy, hcopy, hiscopy⟩ := exists_copyOf h
  have hposition : (l.map (·.position))[index]? = some index := by
    rw [hpositions, List.getElem?_range (List.getElem?_eq_some_iff.mp hpart).1]
  rw [List.getElem?_map] at hposition
  obtain ⟨⟨position, tree⟩, ha, hposition⟩ := Option.map_eq_some_iff.mp hposition
  obtain rfl : position = index := hposition
  obtain ⟨order, hperm, htops, htree⟩ := hall _ (List.mem_of_getElem? ha)
  -- the part is put in again where it was taken out, so nothing has been moved
  have hback : ((parts.map top).erase part.top).insertIdx position part.top = parts.map top :=
    insertIdx_erase (nodup_tops h.parts.nodup) (by rw [List.getElem?_map, hpart, Option.map_some])
  obtain rfl :=
    h.eq_of_map_top_eq hperm.subset (List.Subset.refl parts) (htops.trans hback)
  obtain rfl : tree = copy := htree.eq hiscopy rfl
  exact ⟨tree, hcopy, ha⟩

/-- What is offered for a part is the same wherever it stands among the others, as long as
these are in the same order. -/
theorem arrangements_eq_of_erase (h : t.Bears place (compound up tag operator parts))
    (h' : t'.Bears place' (compound up tag operator parts')) (hnext : t'.nextTag = t.nextTag)
    (hperm : parts'.Perm parts) (hp : part ∈ parts)
    (herase : (parts'.map top).erase part.top = (parts.map top).erase part.top) :
    t'.arrangements part.top = t.arrangements part.top := by
  obtain ⟨l, hl, hpositions, hall⟩ := exists_arrangements h hp
  obtain ⟨l', hl', hpositions', hall'⟩ := exists_arrangements h' (hperm.mem_iff.mpr hp)
  rw [hl, hl', Except.ok.injEq]
  refine Arrangement.eq_of_positions ?_ fun a' ha' a ha hposition => ?_
  · rw [hpositions, hpositions', hperm.length_eq]
  · obtain ⟨order, horder, htops, hcopy⟩ := hall a ha
    obtain ⟨order', horder', htops', hcopy'⟩ := hall' a' ha'
    rw [hposition, herase, ← htops] at htops'
    obtain rfl := h.eq_of_map_top_eq (horder'.trans hperm).subset horder.subset htops'
    rw [hnext] at hcopy'
    exact hcopy'.eq hcopy rfl

end Tree

namespace Drag

variable {t : Tree} {drag : Drag} {path : Path} {id : Handle} {place : Option Handle}
  {up : Handle} {tag : Tag} {operator : Operator} {parts : List Branch} {part : Branch}

theorem arrangements_of_start (hid : t.nodeAt path = .ok id) (h : Drag.start t path = .ok drag) :
    t.arrangements id = .ok drag.arrangements := by
  obtain ⟨id', _, hid', _, harrangements, _⟩ := exists_of_start h
  rw [hid, Except.ok.injEq] at hid'
  rw [hid', harrangements]

/-- An arrangement is found under its position. -/
theorem arrangementAt?_of_mem {size : Nat}
    (h : drag.arrangements.map (·.position) = List.range size) {a : Arrangement}
    (ha : a ∈ drag.arrangements) : drag.arrangementAt? a.position = some a.tree := by
  have hlt : a.position < size := List.mem_range.mp (h ▸ List.mem_map_of_mem ha)
  obtain ⟨tree, htree⟩ :=
    Option.isSome_iff_exists.mp ((isSome_arrangementAt?_iff h).mpr hlt)
  obtain ⟨a', ha', hposition, rfl⟩ := exists_of_arrangementAt? htree
  obtain rfl : a' = a :=
    List.inj_on_of_nodup_map (h ▸ List.nodup_range) ha' ha hposition
  exact htree

/-- The arrangement can be brought about, by rearranging the parent or by dropping the node.
The parent is then copied as it was offered, and what is offered for the node is the same as
before. -/
theorem BegunOn.exists_offered (h : drag.BegunOn t place up tag operator parts part)
    (ht : t.IsTree) (htags : t.HasOwnTags) {a : Arrangement} (ha : a ∈ drag.arrangements) :
    ∃ t', (Edit.rearrange up a.tree a.tree.root).run t = .ok () t' ∧
      (drag.drop a.position).run t = .ok (drag.parentPath.push a.position) t' ∧
      t'.copyOf up = .ok a.tree ∧ t'.arrangements part.top = t.arrangements part.top := by
  have htree := arrangementAt?_of_mem h.positions ha
  have hlt : a.position < parts.length := by
    rw [← isSome_arrangementAt?_iff h.positions, htree, Option.isSome_some]
  obtain ⟨order, hcopy, hperm, htops, _⟩ := h.exists_order_of_offer htree
  have hnodup : (compound up tag operator order).tags.Nodup :=
    (tags_perm hperm).nodup_iff.mpr (h.bears.nodup_tags htags)
  obtain ⟨d, hd, hbare⟩ := hcopy.exists_isCompact
  obtain ⟨t', hrun, hreorders⟩ := Edit.run_rearrange h.bears (.of_perm hperm.symm) hd.bears
    (matches_of_bare_eq hbare.symm hnodup)
  rw [← hd.root] at hrun
  refine ⟨t', hrun, (h.run_drop_of_ok ht htree h.nodeAt hrun).1, ?_, ?_⟩
  · obtain ⟨copy, hcopyOf, hiscopy⟩ := Tree.exists_copyOf hreorders.bears
    rw [hreorders.same.nextTag] at hiscopy
    rw [← hiscopy.eq hcopy rfl]
    exact hcopyOf
  · refine Tree.arrangements_eq_of_erase h.bears hreorders.bears hreorders.same.nextTag hperm
      h.mem_parts ?_
    have hle : a.position ≤ ((parts.map top).erase part.top).length := by
      rw [List.length_erase_of_mem (List.mem_map_of_mem h.mem_parts), List.length_map]
      omega
    rw [htops, erase_insertIdx (htops ▸ Tree.nodup_tops hreorders.bears.parts.nodup) hle]

end Drag

namespace Tree

variable {t : Tree}

/-- For a node that stands below another one, what is offered are the positions among its
siblings.  At its own position that is a copy of the parent as it is.  At each position it
is what a copy of the parent will be after the parent was rearranged to match the offer, or
after the node was dropped there, which is the same; and then the same is offered again. -/
theorem arrangements_come_true (h : t.Obtained) {id : Handle} {node : Node}
    (hget : t.get? id = some node) (hroot : id ≠ t.root) :
    ∃ (up : Handle) (above : Node) (index : Nat) (path : Path) (drag : Drag) (copy : Tree)
      (l : List Arrangement), node.parent = some up ∧ t.get? up = some above ∧
      above.children[index]? = some id ∧ t.pathTo id = .ok path ∧
      Drag.start t path = .ok drag ∧ t.arrangements id = .ok l ∧ drag.arrangements = l ∧
      l.map (·.position) = List.range above.children.length ∧
      t.copyOf up = .ok copy ∧ l[index]? = some ⟨index, copy⟩ ∧
      ∀ a ∈ l, ∃ t' path', (Edit.rearrange up a.tree a.tree.root).run t = .ok () t' ∧
        (drag.drop a.position).run t = .ok path' t' ∧
        t'.copyOf up = .ok a.tree ∧ t'.arrangements id = .ok l := by
  have hproper := h.isProper
  obtain ⟨place, up, tag, operator, parts, index, part, path, hup, hb, hpart, rfl, hpath⟩ :=
    hproper.exists_part hget hroot
  have hid := hb.nodeAt_part hpath hpart
  obtain ⟨drag, hstart⟩ := Drag.exists_start hb hpath hpart
  have hl := Drag.arrangements_of_start hid hstart
  obtain ⟨rfl, rfl, hbegun⟩ := Drag.begunOn_of_start hb hpath hpart hstart
  obtain ⟨copy, hcopy, hhere⟩ := getElem?_of_arrangements hb hpart hl
  refine ⟨up, _, drag.startPosition, _, drag, copy, drag.arrangements, hup, hb.get, ?_,
    hproper.pathTo_eq hid, hstart, hl, rfl, ?_, hcopy, hhere, fun a ha => ?_⟩
  · rw [children_node, Branch.parts, List.getElem?_map, hpart, Option.map_some]
  · rw [children_node, Branch.parts, List.length_map, hbegun.positions]
  · obtain ⟨t', hrun, hdrop, hcopy', hagain⟩ :=
      hbegun.exists_offered hproper.toIsTree h.hasOwnTags ha
    exact ⟨t', _, hrun, hdrop, hcopy', hagain.trans hl⟩

/-- The first term of a sum of two is dropped behind the other one. -/
theorem arrangements_come_true_sum : ∃ (t u t' : Tree) (drag : Drag) (path path' : Path),
    parse "a+b" = .ok t ∧ t.arrangements ⟨1⟩ = .ok [⟨0, t⟩, ⟨1, u⟩] ∧
    t.copyOf t.root = .ok t ∧ Drag.start t path = .ok drag ∧
    (drag.drop 1).run t = .ok path' t' ∧ t'.copyOf t.root = .ok u ∧
    t'.arrangements ⟨1⟩ = .ok [⟨0, t⟩, ⟨1, u⟩] := by
  obtain ⟨t, u, hparse, hl, ht, _⟩ := exists_sum_swapped
  have hget : t.get? ⟨1⟩ = some ⟨.literal "a", some ⟨0⟩, ⟨1⟩⟩ := by
    rw [ht]
    rfl
  have hroot : t.root = ⟨0⟩ := by rw [ht]
  obtain ⟨up, above, index, path, drag, copy, l, hup, habove, hindex, _, hstart, hl', _, _, hcopy,
    hhere, hall⟩ := arrangements_come_true (.parse hparse) hget (by rw [hroot]; decide)
  cases hup
  rw [hl, Except.ok.injEq] at hl'
  subst hl'
  obtain rfl : index = 0 := by
    have hsum : t.get? ⟨0⟩ = some ⟨.compound .add [⟨1⟩, ⟨2⟩], none, ⟨0⟩⟩ := by
      rw [ht]
      rfl
    rw [habove, Option.some_inj] at hsum
    rw [hsum] at hindex
    rcases index with _ | _ | index
    · rfl
    · cases hindex
    · cases hindex
  cases hhere
  obtain ⟨t', path', _, hdrop, hcopy', hagain⟩ := hall ⟨1, u⟩ (by simp)
  exact ⟨t, u, t', drag, path, path', hparse, hl, hroot ▸ hcopy, hstart, hdrop, hroot ▸ hcopy',
    hagain⟩

end Tree

end FormulaEditor
