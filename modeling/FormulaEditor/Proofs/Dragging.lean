/-
Dragging and dropping.

A drag that has begun holds copies of the dragged node and of the arrangements of its
parent, and the path to the parent, all as they were at that time (`Drag.BegunOn`).  It
offers each position among the siblings once.  Dropping succeeds on a tree in which
the path leads to a branch that is an order of the one from back then:

* `Drag.exists_begunOn` — what is known of a drag that has begun;
* `Drag.exists_start` — a drag can begin at every node with siblings;
* `Drag.run_drop_of_rearrange` — once the tree has been rearranged, nothing can fail;
* `Drag.run_drop` — dropping puts the parts of the branch into the order of the
  arrangement, and does nothing else;
* `Tree.Obtained.preview`, `Tree.Obtained.arrangementAt?` — the copies are trees that
  an editor gets to see, so they are in shape as well.
-/
import FormulaEditor.Proofs.Matching
import FormulaEditor.Proofs.Obtained

namespace FormulaEditor

open Branch

variable {t u : Tree} {path upPath : Path} {drag : Drag} {place : Option Handle} {up : Handle}
  {tag : Tag} {operator : Operator} {parts : List Branch} {part : Branch}

namespace Drag

theorem exists_of_start (h : Drag.start t path = .ok drag) :
    ∃ id node, t.nodeAt path = .ok id ∧ t.get? id = some node ∧
      t.arrangements id = .ok drag.arrangements ∧ path.last? = some drag.startPosition ∧
      drag.parentPath = path.pop 1 ∧ drag.tag = node.tag ∧ t.copyOf id = .ok drag.preview := by
  rw [start] at h
  obtain ⟨id, hid, h⟩ := exists_of_bind_eq_ok h
  obtain ⟨arrangements, harrangements, h⟩ := exists_of_bind_eq_ok h
  split at h
  · cases h
  · next position hposition =>
    obtain ⟨node, hnode, h⟩ := exists_of_bind_eq_ok h
    obtain ⟨preview, hpreview, h⟩ := exists_of_bind_eq_ok h
    cases h
    exact ⟨id, node, hid, Tree.node_eq_ok_iff.mp hnode, harrangements, hposition, rfl, rfl,
      hpreview⟩

theorem exists_of_arrangementAt? {position : Nat} {tree : Tree}
    (h : drag.arrangementAt? position = some tree) :
    ∃ a ∈ drag.arrangements, a.position = position ∧ a.tree = tree := by
  obtain ⟨a, ha, rfl⟩ := Option.map_eq_some_iff.mp h
  exact ⟨a, List.mem_of_find?_eq_some ha, by simpa using List.find?_some ha, rfl⟩

/-- Each position below a bound is offered, and no other one. -/
theorem isSome_arrangementAt?_iff {size : Nat}
    (h : drag.arrangements.map (·.position) = List.range size) {position : Nat} :
    (drag.arrangementAt? position).isSome = true ↔ position < size := by
  rw [arrangementAt?, Option.isSome_map, List.find?_isSome, ← List.mem_range, ← h, List.mem_map]
  simp

/-! ### Beginning -/

/-- The drag was begun on a part of a compound: it knows the path to the compound, and at
each position it offers a copy of the compound in which the part has moved there. -/
structure BegunOn (drag : Drag) (t : Tree) (place : Option Handle) (up : Handle) (tag : Tag)
    (operator : Operator) (parts : List Branch) (part : Branch) : Prop where
  nodeAt : t.nodeAt drag.parentPath = .ok up
  bears : t.Bears place (compound up tag operator parts)
  part_eq : parts[drag.startPosition]? = some part
  tag_eq : drag.tag = part.tag
  positions : drag.arrangements.map (·.position) = List.range parts.length
  offers : ∀ {position : Nat} {tree : Tree}, drag.arrangementAt? position = some tree →
    ∃ order : List Branch, order.Perm parts ∧
      order.map top = ((parts.map top).erase part.top).insertIdx position part.top ∧
      tree.IsCopy t.nextTag (compound up tag operator order)

theorem BegunOn.mem_parts (h : drag.BegunOn t place up tag operator parts part) : part ∈ parts :=
  List.mem_of_getElem? h.part_eq

theorem BegunOn.get (h : drag.BegunOn t place up tag operator parts part) :
    t.get? part.top = some (part.node (some up)) :=
  (h.bears.part h.mem_parts).get

theorem begunOn_of_start (hb : t.Bears place (compound up tag operator parts))
    (hpath : t.nodeAt upPath = .ok up) {step : Nat} (hpart : parts[step]? = some part)
    (hstart : Drag.start t (upPath.push step) = .ok drag) :
    drag.parentPath = upPath ∧ drag.startPosition = step ∧
      drag.BegunOn t place up tag operator parts part := by
  obtain ⟨id, node, hid, hget, harrangements, hlast, hparent, htag, _⟩ := exists_of_start hstart
  rw [Path.pop_push] at hparent
  rw [Path.last?_push, Option.some_inj] at hlast
  have hmem := List.mem_of_getElem? hpart
  have hnode : t.get? part.top = some (part.node (some up)) := (hb.part hmem).get
  have htop : id = part.top := by
    rw [hb.nodeAt_part hpath hpart, Except.ok.injEq] at hid
    exact hid.symm
  subst htop
  obtain ⟨l, hl, hpositions, hall⟩ := Tree.exists_arrangements hb hmem
  rw [hl, Except.ok.injEq] at harrangements
  subst harrangements
  refine ⟨hparent, hlast.symm, hparent ▸ hpath, hb, hlast ▸ hpart, ?_, hpositions, ?_⟩
  · rw [hget, Option.some_inj] at hnode
    rw [htag, hnode, tag_node]
  · intro position tree htree
    obtain ⟨a, ha, rfl, rfl⟩ := exists_of_arrangementAt? htree
    exact hall a ha

/-- A drag can begin at every part of a compound. -/
theorem exists_start (hb : t.Bears place (compound up tag operator parts))
    (hpath : t.nodeAt upPath = .ok up) {step : Nat} (hpart : parts[step]? = some part) :
    ∃ drag, Drag.start t (upPath.push step) = .ok drag := by
  have hmem := List.mem_of_getElem? hpart
  have hbpart : t.Bears (some up) part := hb.part hmem
  obtain ⟨l, hl, _⟩ := Tree.exists_arrangements hb hmem
  obtain ⟨copy, hcopy, _⟩ := Tree.exists_copyOf hbpart
  rw [start, hb.nodeAt_part hpath hpart]
  simp only [bind, Except.bind, hl, Path.last?_push, Tree.node_eq_ok_iff.mpr hbpart.get, hcopy]
  exact ⟨_, rfl⟩

/-- What is offered at a position: a copy of the parts in an order in which the dragged one
is there. -/
theorem BegunOn.exists_order_of_offer (h : drag.BegunOn t place up tag operator parts part)
    {position : Nat} {tree : Tree} (htree : drag.arrangementAt? position = some tree) :
    ∃ order : List Branch, tree.IsCopy t.nextTag (compound up tag operator order) ∧
      order.Perm parts ∧
      order.map top = ((parts.map top).erase part.top).insertIdx position part.top ∧
      order[position]? = some part := by
  obtain ⟨order, hperm, htops, hcopy⟩ := h.offers htree
  have hlt : position < parts.length :=
    (isSome_arrangementAt?_iff h.positions).mp (by rw [htree, Option.isSome_some])
  have hmem : part.top ∈ parts.map top := List.mem_map_of_mem h.mem_parts
  have hposition : (order.map top)[position]? = some part.top := by
    rw [htops, List.getElem?_insertIdx_self, if_pos]
    rw [List.length_erase_of_mem hmem, List.length_map]
    omega
  rw [List.getElem?_map] at hposition
  obtain ⟨found, hfound, htop⟩ := Option.map_eq_some_iff.mp hposition
  -- no other part has that node at its top
  obtain rfl : found = part := List.inj_on_of_nodup_map (Tree.nodup_tops h.bears.parts.nodup)
    (hperm.mem_iff.mp (List.mem_of_getElem? hfound)) h.mem_parts htop
  exact ⟨order, hcopy, hperm, htops, hfound⟩

/-- Something is offered at every position among the siblings. -/
theorem BegunOn.exists_order (h : drag.BegunOn t place up tag operator parts part)
    (ht : t.HasOwnTags) {position : Nat} (hlt : position < parts.length) :
    ∃ (tree : Tree) (order : List Branch), drag.arrangementAt? position = some tree ∧
      tree.IsCopy t.nextTag (compound up tag operator order) ∧ order.Perm parts ∧
      order.map top = ((parts.map top).erase part.top).insertIdx position part.top ∧
      order[position]? = some part ∧ (compound up tag operator order).tags.Nodup := by
  obtain ⟨tree, htree⟩ :=
    Option.isSome_iff_exists.mp ((isSome_arrangementAt?_iff h.positions).mpr hlt)
  obtain ⟨order, hcopy, hperm, htops, hpart⟩ := h.exists_order_of_offer htree
  exact ⟨tree, order, htree, hcopy, hperm, htops, hpart,
    (tags_perm hperm).nodup_iff.mpr (h.bears.nodup_tags ht)⟩

/-- A drag always begins at a part of some compound. -/
theorem exists_begunOn (h : t.IsForest) (hstart : Drag.start t path = .ok drag) :
    ∃ place up tag operator parts part, drag.BegunOn t place up tag operator parts part ∧
      path = drag.parentPath.push drag.startPosition := by
  obtain ⟨id, _, hid, _, _, hlast, hparent, _, _⟩ := exists_of_start hstart
  have hpath : path = drag.parentPath.push drag.startPosition :=
    hparent ▸ Path.eq_push_of_last? hlast
  rw [hpath] at hid hstart
  obtain ⟨place, up, tag, operator, parts, part, hup, hb, hpart, _⟩ := h.exists_part_of_nodeAt hid
  obtain ⟨_, _, hbegun⟩ := begunOn_of_start hb hup hpart hstart
  exact ⟨place, up, tag, operator, parts, part, hbegun, hpath⟩

/-! ### Dropping -/

/-- Dropping, where the rearrangement succeeds: the branch at the path then matches the
arrangement `d`.  The path is still the one to the branch, and what has come to stand at the
position has the tag of the dragged node, so there is nothing left that could fail. -/
theorem run_drop_of_rearrange {u' : Tree} {b r d child : Branch} {position : Nat} {tree : Tree}
    (h : u.IsForest) (htree : drag.arrangementAt? position = some tree)
    (hpath : u.nodeAt drag.parentPath = .ok b.top) (hb : u.Bears place b)
    (hrearrange : (Edit.rearrange b.top tree tree.root).run u = .ok () u')
    (hreorders : u.Reorders u' place b r) (hmatches : r.Matches d)
    (hchild : d.parts[position]? = some child) (htag : drag.tag = child.tag) :
    ∃ moved, (drag.drop position).run u = .ok (drag.parentPath.push position) u' ∧
      r.parts[position]? = some moved ∧ moved.tag = drag.tag ∧
      u'.nodeAt drag.parentPath = .ok b.top ∧
      u'.nodeAt (drag.parentPath.push position) = .ok moved.top := by
  obtain ⟨_, hkeys, _, _⟩ := hmatches
  have hkey : (r.parts.map key)[position]? = some child.key := by
    rw [hkeys, List.getElem?_map, hchild, Option.map_some]
  rw [List.getElem?_map] at hkey
  obtain ⟨moved, hmoved, hkey⟩ := Option.map_eq_some_iff.mp hkey
  have hmovedTag : moved.tag = drag.tag := (congrArg ChildKey.tag hkey).trans htag.symm
  -- the nodes above the branch are not among those that were written to
  have hup : u'.nodeAt drag.parentPath = .ok b.top := by
    obtain ⟨way, hway⟩ := (h.ascends hb.get).climbs
    obtain ⟨rest, rfl⟩ := hway.exists_cons
    exact h.nodeAt_congr hpath hway hreorders.same.root fun other hother =>
      hreorders.same.get? other (hb.notMem_of_climbs hway other hother)
  have hpart : u'.nodeAt (drag.parentPath.push position) = .ok moved.top :=
    hreorders.bears.nodeAt_part (hreorders.shuffles.top ▸ hup) hmoved
  refine ⟨moved, ?_, hmoved, hmovedTag, hup, hpart⟩
  have hget := (hreorders.bears.part (List.mem_of_getElem? hmoved)).get
  rw [drop]
  simp only [htree]
  rw [run_bind_ok (run_ask (s := u) hpath), run_bind_ok hrearrange,
    run_bind_ok (run_ask (s := u') hpart), run_bind_ok (Edit.run_node hget),
    if_pos (by rw [tag_node, hmovedTag])]
  rfl

/-- Dropping, where the path leads to a branch that is an order of the one in the
arrangement.  The branch takes that order, and the rest of the tree stays. -/
theorem run_drop {b : Branch} {position nextTag : Nat} {tree : Tree} (h : u.IsForest)
    (htree : drag.arrangementAt? position = some tree)
    (hpath : u.nodeAt drag.parentPath = .ok b.top) (hb : u.Bears place b) {r : Branch}
    (hcopy : tree.IsCopy nextTag r) (hr : b.Shuffles r) (htags : r.tags.Nodup)
    (hpart : r.parts[position]? = some part) (htag : drag.tag = part.tag) :
    ∃ u', (drag.drop position).run u = .ok (drag.parentPath.push position) u' ∧
      u'.Bears place r ∧ u.SameExcept u' b.handles ∧ u'.nodeAt drag.parentPath = .ok b.top ∧
      u'.nodeAt (drag.parentPath.push position) = .ok part.top := by
  obtain ⟨d, hd, hbare⟩ := hcopy.exists_isCompact
  have hmatches := matches_of_bare_eq hbare.symm htags
  obtain ⟨u', hrun, hreorders⟩ := Edit.run_rearrange hb hr hd.bears hmatches
  obtain ⟨child, hchild, hkey⟩ := exists_getElem?_of_bare_eq hbare hpart
  obtain ⟨moved, hdrop, hmoved, _, hup, hpart'⟩ := run_drop_of_rearrange h htree hpath hb
    (hd.root ▸ hrun) hreorders hmatches hchild (htag.trans (congrArg ChildKey.tag hkey).symm)
  rw [hpart, Option.some_inj] at hmoved
  subst hmoved
  exact ⟨u', hdrop, hreorders.bears, hreorders.same, hup, hpart'⟩

/-- Dropping at a position that is not offered. -/
theorem run_drop_of_none {position : Nat} (h : drag.arrangementAt? position = none) :
    (drag.drop position).run u = .error .invalidPath u := by
  rw [drop]
  simp only [h]
  rfl

/-- Dropping where the path leads nowhere. -/
theorem run_drop_of_lost {position : Nat} {e : EditError} {tree : Tree}
    (htree : drag.arrangementAt? position = some tree)
    (hpath : u.nodeAt drag.parentPath = .error e) : (drag.drop position).run u = .error e u := by
  rw [drop]
  simp only [htree]
  exact run_bind_error (run_ask_error hpath)

/-- Dropping on a node that cannot be made to match the arrangement. -/
theorem run_drop_of_mismatch {position : Nat} {e : EditError} {tree : Tree} {id : Handle}
    (htree : drag.arrangementAt? position = some tree) (hpath : u.nodeAt drag.parentPath = .ok id)
    (hrun : (Edit.rearrange id tree tree.root).run u = .error e u) :
    (drag.drop position).run u = .error e u := by
  rw [drop]
  simp only [htree]
  rw [run_bind_ok (run_ask (s := u) hpath)]
  exact run_bind_error hrun

end Drag

theorem Tree.Obtained.preview (h : t.Obtained) (hdrag : Drag.start t path = .ok drag) :
    drag.preview.Obtained := by
  obtain ⟨_, _, _, _, _, _, _, _, hcopy⟩ := Drag.exists_of_start hdrag
  exact .copy h hcopy

theorem Tree.Obtained.arrangementAt? (h : t.Obtained) (hdrag : Drag.start t path = .ok drag)
    {position : Nat} {tree : Tree} (htree : drag.arrangementAt? position = some tree) :
    tree.Obtained := by
  obtain ⟨_, _, _, _, harrangements, _⟩ := Drag.exists_of_start hdrag
  obtain ⟨a, ha, _, rfl⟩ := Drag.exists_of_arrangementAt? htree
  exact .arrangement h harrangements ha

end FormulaEditor
