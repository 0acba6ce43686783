/-
Copies are the same nodes under other numbers.

A copy lies in consecutive slots, one for each node of the subtree and in the same order, so
the slot of a node tells which node it was copied from.  Everything that is known of a copy
without its handles then carries over to the store that holds it:

* `Branch.rename` — a branch with other handles, and `Branch.rename_eq`: one with the same
  shape and tags is made in this way;
* `Tree.Transcribes` — nodes of one store in consecutive slots of another one;
* `Edit.exists_addCopy`, `Tree.IsCopy.rename` — copies are renamed branches;
* `Tree.CopiedTo` — what a subtree and its copy have in common, and
  `Tree.copyOf_and_addCopy`: copying always comes to that.

Design notes: the number of a node is its index in the list of handles of the branch, which
has no repetitions.  What a node outside of the branch would get does not matter, since the
only link that leads out is the one from the top, which the copy does not have.
-/
import FormulaEditor.Proofs.Drawing
import FormulaEditor.Proofs.Obtained
import FormulaEditor.Proofs.Paths
import FormulaEditor.Proofs.Tagging
import Mathlib

namespace FormulaEditor

/-! ### Other handles -/

/-- The content with other handles for the children. -/
def Content.rename (f : Handle → Handle) : Content → Content
  | literal text => literal text
  | compound operator children => compound operator (children.map f)

/-- The node with other handles for its children and its parent. -/
def Node.rename (f : Handle → Handle) (node : Node) : Node :=
  ⟨node.content.rename f, node.parent.map f, node.tag⟩

/-- The slot of a node when the nodes of a list are put into consecutive slots. -/
def Handle.slotIn (ids : List Handle) (start : Nat) (id : Handle) : Handle :=
  ⟨start + ids.idxOf id⟩

namespace Handle

variable {ids : List Handle} {start i : Nat} {id : Handle}

theorem slotIn_of_getElem? (hnodup : ids.Nodup) (h : ids[i]? = some id) :
    id.slotIn ids start = ⟨start + i⟩ := by
  obtain ⟨hlt, rfl⟩ := List.getElem?_eq_some_iff.mp h
  rw [slotIn, hnodup.idxOf_getElem]

theorem map_slotIn (hnodup : ids.Nodup) (start : Nat) :
    ids.map (slotIn ids start) = (List.range' start ids.length).map Handle.mk := by
  refine List.ext_getElem (by simp) fun i hi hi' => ?_
  rw [List.length_map] at hi
  simp [slotIn, hnodup.idxOf_getElem]

end Handle

namespace Branch

variable {f : Handle → Handle} {b c : Branch}

/-- The branch with other handles. -/
def rename (f : Handle → Handle) : Branch → Branch
  | literal id tag text => literal (f id) tag text
  | compound id tag operator parts => compound (f id) tag operator (parts.map (rename f))

@[simp] theorem top_rename (f : Handle → Handle) (b : Branch) : (b.rename f).top = f b.top := by
  cases b <;> rw [rename, top, top]

theorem parts_rename (f : Handle → Handle) (b : Branch) :
    (b.rename f).parts = b.parts.map (rename f) := by
  cases b <;> rw [rename, parts, parts]
  rw [List.map_nil]

theorem handles_rename (f : Handle → Handle) (b : Branch) :
    (b.rename f).handles = b.handles.map f := by
  induction b with
  | literal => rw [rename, handles, handles, List.map_singleton]
  | compound id tag operator parts ih =>
    rw [rename, handles, handles, List.map_cons, List.map_flatMap, List.flatMap_map]
    exact congrArg _ (List.flatMap_congr ih)

theorem bare_rename (f : Handle → Handle) (b : Branch) : (b.rename f).bare = b.bare := by
  induction b with
  | literal => rw [rename, bare, bare]
  | compound id tag operator parts ih =>
    rw [rename, bare, bare, List.map_map]
    exact congrArg _ (List.map_congr_left ih)

/-- To rename a branch in its place is to rename its topmost node. -/
theorem node_rename (f : Handle → Handle) (parent : Option Handle) (b : Branch) :
    (b.rename f).node (parent.map f) = (b.node parent).rename f := by
  cases b with
  | literal => rw [rename, node, node, Node.rename, Content.rename]
  | compound id tag operator parts =>
    have htops : (parts.map (rename f)).map top = (parts.map top).map f := by
      rw [List.map_map, List.map_map]
      exact List.map_congr_left fun part _ => part.top_rename f
    rw [rename, node, node, Node.rename, Content.rename, htops]

/-- The topmost node gets the first of the slots. -/
theorem top_rename_slotIn (b : Branch) (start : Nat) :
    (b.rename (Handle.slotIn b.handles start)).top = ⟨start⟩ := by
  rw [top_rename, Handle.slotIn, handles_eq, List.idxOf_cons_self, Nat.add_zero]

/-- A branch is another one renamed if that fits their handles. -/
theorem rename_eq (hbare : c.bare = b.bare) (hhandles : c.handles = b.handles.map f) :
    b.rename f = c :=
  eq_of_bare_eq ((bare_rename f b).trans hbare.symm) ((handles_rename f b).trans hhandles.symm)

theorem Within.rename (h : c.Within b) (f : Handle → Handle) :
    (c.rename f).Within (b.rename f) := by
  induction h with
  | refl => exact .refl
  | part hp _ ih => exact .part (parts_rename f _ ▸ List.mem_map_of_mem hp) ih

end Branch

namespace Tree

open Branch

variable {t t' copy : Tree} {place : Option Handle} {b c : Branch} {start nextTag : Nat}

/-! ### Nodes in consecutive slots -/

/-- The second store has nodes of the first one in consecutive slots, with links that lead to
the same nodes as before.  The first of the nodes has no parent any more. -/
structure Transcribes (t t' : Tree) (ids : List Handle) (start : Nat) : Prop where
  first : ∀ id, ids[0]? = some id → ∃ node, t.get? id = some node ∧ node.children ⊆ ids ∧
    t'.get? ⟨start⟩ = some ((node.rename (Handle.slotIn ids start)).withParent none)
  others : ∀ i id, ids[i + 1]? = some id → ∃ node up, t.get? id = some node ∧
    node.children ⊆ ids ∧ node.parent = some up ∧ up ∈ ids ∧
    t'.get? ⟨start + (i + 1)⟩ = some (node.rename (Handle.slotIn ids start))

/-- Where a branch is held under other handles, its nodes have been transcribed. -/
theorem Bears.transcribes (h : t.Bears place b)
    (h' : t'.Bears none (b.rename (Handle.slotIn b.handles start))) :
    t.Transcribes t' b.handles start := by
  have hchildren {d : Branch} {up : Option Handle} (hd : d.Within b) :
      (d.node up).children ⊆ b.handles := by
    rw [children_node]
    refine List.Subset.trans (map_top_subset d.parts) fun id hid => hd.handles_subset ?_
    rw [handles_eq]
    exact List.mem_cons_of_mem _ hid
  constructor
  · intro id hid
    obtain rfl : b.top = id := by
      rw [handles_eq] at hid
      exact Option.some_inj.mp hid
    refine ⟨_, h.get, hchildren .refl, ?_⟩
    have hget := h'.get
    rw [top_rename_slotIn] at hget
    rw [hget, ← node_rename, withParent_node]
  · intro i id hid
    obtain ⟨d, _, hd, _, rfl⟩ := h.exists_within (List.mem_of_getElem? hid)
    rcases hd.eq_or_exists with rfl | ⟨e, he, hpart⟩
    · -- the top of the branch comes first, and only then
      have hfirst : d.handles[0]? = some d.top := by
        rw [handles_eq]
        rfl
      have hlt := (List.getElem?_eq_some_iff.mp hid).1
      cases (List.getElem?_inj hlt h.nodup).mp (hid.trans hfirst.symm)
    · obtain ⟨_, hbears⟩ := h.within he
      obtain ⟨_, hbears'⟩ := h'.within (he.rename _)
      have hget := (hbears'.part (parts_rename _ e ▸ List.mem_map_of_mem hpart)).get
      refine ⟨_, e.top, (hbears.part hpart).get, hchildren hd, parent_node _ _,
        he.handles_subset e.top_mem_handles, ?_⟩
      rw [top_rename, top_rename, Handle.slotIn_of_getElem? h.nodup hid] at hget
      rw [hget, ← node_rename, Option.map_some]

end Tree

/-! ### Copies -/

namespace Edit

open Branch

variable {t source : Tree} {place : Option Handle} {b : Branch}

/-- A copy of a branch takes up the next slots, one for each node. -/
theorem exists_addCopy (h : source.Bears place b) (hroot : t.root.index ≤ t.slots.size) :
    ∃ t', (addCopy source b.top).run t = .ok ⟨t.slots.size⟩ t' ∧
      t'.slots.size = t.slots.size + b.handles.length ∧ t'.nextTag = t.nextTag ∧
      t.Gains t' [b.rename (Handle.slotIn b.handles t.slots.size)] := by
  obtain ⟨t', c, hrun, hgains, hbare⟩ := adds_addCopy h t hroot
  have hfilled : Tree.IsFilledFrom t.slots.size t.nextTag t' :=
    (Tree.keeps_addCopy_isFilledFrom _ _ source b.top).of_ok
      ⟨rfl, fun id hstart hid => absurd hid (Nat.not_lt.mpr hstart)⟩ hrun
  have hinOrder := hgains.inOrder
  have hlive := hgains.mem_iff
  rw [List.flatMap_singleton] at hinOrder hlive
  have hmem : ∀ id : Handle, id ∈ c.handles ↔
      t.slots.size ≤ id.index ∧ id.index < t'.slots.size := fun id =>
    (hlive id).trans ⟨fun hid => ⟨hid.1, Tree.lt_size_of_isSome hid.2⟩,
      fun hid => ⟨hid.1, hfilled.isSome id hid.1 hid.2⟩⟩
  have hhandles := Tree.eq_map_range'_of_inOrder hinOrder hmem
  have hlen : t'.slots.size - t.slots.size = b.handles.length := by
    rw [← length_handles_bare b, ← hbare, length_handles_bare, hhandles]
    simp
  have hrename := rename_eq hbare (f := Handle.slotIn b.handles t.slots.size)
    (by rw [hhandles, hlen, Handle.map_slotIn h.nodup])
  have hsize := hgains.size_le
  rw [← hrename] at hrun hgains
  exact ⟨t', (top_rename_slotIn b _).symm ▸ hrun, by omega, hfilled.nextTag_eq, hgains⟩

end Edit

namespace Tree

open Branch

variable {t copy : Tree} {place : Option Handle} {b : Branch} {nextTag : Nat}

/-- A copy as a tree of its own is the branch with the handles of the first slots. -/
theorem IsCopy.rename (h : copy.IsCopy nextTag b) (hnodup : b.handles.Nodup) :
    copy.IsCompact (b.rename (Handle.slotIn b.handles 0)) ∧
      copy.slots.size = b.handles.length := by
  obtain ⟨c, hc, hbare⟩ := h.exists_isCompact
  have hlen : copy.slots.size = b.handles.length := by
    rw [← length_handles_bare b, ← hbare, length_handles_bare, hc.handles_eq]
    simp
  have hrename := rename_eq hbare (f := Handle.slotIn b.handles 0)
    (by rw [hc.handles_eq, hlen, Handle.map_slotIn hnodup, List.range_eq_range'])
  exact ⟨hrename ▸ hc, hlen⟩

/-! ### Paths -/

/-- A path that goes on from the top of a branch leads to a node of the branch, and where the
branch is held under other handles the rest of the path leads to the same node, or neither
leads anywhere. -/
theorem Bears.nodeAt_rename {f : Handle → Handle} {path : Path} (h : t.Bears place b)
    (h' : copy.Bears none (b.rename f)) (hroot : copy.root = f b.top)
    (hpath : t.nodeAt path = .ok b.top) (rest : Path) :
    (∃ d : Branch, d.Within b ∧ t.nodeAt ⟨path.steps ++ rest.steps⟩ = .ok d.top ∧
      copy.nodeAt rest = .ok (f d.top)) ∨
    (t.nodeAt ⟨path.steps ++ rest.steps⟩ = .error .invalidPath ∧
      copy.nodeAt rest = .error .invalidPath) := by
  induction rest with
  | root =>
    refine .inl ⟨b, .refl, ?_, hroot ▸ copy.nodeAt_root⟩
    rw [Path.root, List.append_nil]
    exact hpath
  | push rest step ih =>
    have hpush : (⟨path.steps ++ (rest.push step).steps⟩ : Path)
        = Path.push ⟨path.steps ++ rest.steps⟩ step := by
      rw [Path.push, Path.push, List.append_assoc]
    rw [hpush, nodeAt_push, nodeAt_push]
    rcases ih with ⟨d, hd, hnode, hcopy⟩ | ⟨hnode, hcopy⟩
    · obtain ⟨_, hbears⟩ := h.within hd
      obtain ⟨_, hbears'⟩ := h'.within (hd.rename f)
      have hchild := hbears'.holds.childAt_eq step
      rw [top_rename, parts_rename, List.getElem?_map] at hchild
      rw [hnode, hcopy]
      simp only [bind, Except.bind, hchild, hbears.holds.childAt_eq step]
      cases hpart : d.parts[step]? with
      | none => exact .inr ⟨rfl, rfl⟩
      | some part =>
        have hbelow : part.Within d := .part (List.mem_of_getElem? hpart) .refl
        exact .inl ⟨part, hbelow.trans hd, rfl, congrArg Except.ok (top_rename f part)⟩
    · rw [hnode, hcopy]
      exact .inr ⟨rfl, rfl⟩

/-! ### What copies are -/

/-- The second store is a copy of a subtree of the first one, whose nodes are `ids`, and holds
nothing else. -/
structure CopiedTo (t copy : Tree) (id : Handle) (ids : List Handle) : Prop where
  size : copy.slots.size = ids.length
  isSome : ∀ other : Handle, other.index < ids.length → (copy.get? other).isSome = true
  root : copy.root = ⟨0⟩
  nextTag : copy.nextTag = t.nextTag
  transcribes : t.Transcribes copy ids 0
  outline : ∀ depth, ∃ text, t.outline id depth = .ok text ∧ copy.outline copy.root depth = .ok text
  layout : ∃ glyphs, t.layout id none = .ok glyphs ∧ copy.layout copy.root none = .ok glyphs
  /-- The tags are the same ones, from the top on. -/
  tags : ∃ copies, copy.descendants copy.root = .ok copies ∧
    copies.map copy.tag? = ids.map t.tag?
  /-- A path leads to a node of the copy if it leads to the node that was copied, when it goes
  on from there, and else it is refused in both. -/
  paths : t.Reaches t.root id → ∃ path, t.pathTo id = .ok path ∧ ∀ rest : Path,
    (∃ i other, ids[i]? = some other ∧ t.nodeAt ⟨path.steps ++ rest.steps⟩ = .ok other ∧
      copy.nodeAt rest = .ok ⟨i⟩) ∨
    (t.nodeAt ⟨path.steps ++ rest.steps⟩ = .error .invalidPath ∧
      copy.nodeAt rest = .error .invalidPath)
  /-- A copy of the copy is the copy once more. -/
  copyOf_root : copy.copyOf copy.root = .ok copy

theorem IsCopy.copiedTo (h : copy.IsCopy t.nextTag b) (ht : t.IsTree) (hb : t.Bears place b) :
    t.CopiedTo copy b.top b.handles := by
  obtain ⟨hcompact, hsize⟩ := h.rename hb.nodup
  have hbears := hcompact.bears
  have hbare := bare_rename (Handle.slotIn b.handles 0) b
  have htop : copy.root = (b.rename (Handle.slotIn b.handles 0)).top := hcompact.root
  refine ⟨hsize, ?_, ?_, h.nextTag_eq, hb.transcribes hbears, ?_, ?_, ?_, ?_, ?_⟩
  · exact fun other hother => hcompact.isSome other (hsize ▸ hother)
  · rw [htop, top_rename_slotIn]
  · intro depth
    refine ⟨_, hb.outline_eq depth, ?_⟩
    rw [htop, hbears.outline_eq, shape_eq_of_bare_eq hbare]
  · refine ⟨_, hb.layout_eq, ?_⟩
    rw [htop, hbears.layout_eq, shape_eq_of_bare_eq hbare]
  · refine ⟨_, htop ▸ hbears.descendants_eq, ?_⟩
    rw [← hbears.holds.map_some_tags, ← hb.holds.map_some_tags, tags_eq_of_bare_eq hbare]
  · intro hreaches
    obtain ⟨path, hpath⟩ := hreaches.exists_nodeAt
    refine ⟨path, ht.pathTo_eq hpath, fun rest => ?_⟩
    rw [top_rename] at htop
    rcases hb.nodeAt_rename hbears htop hpath rest with ⟨d, hd, hnode, hcopy⟩ | hneither
    · obtain ⟨i, hi⟩ := List.mem_iff_getElem?.mp (hd.handles_subset d.top_mem_handles)
      rw [Handle.slotIn_of_getElem? hb.nodup hi, Nat.zero_add] at hcopy
      exact .inl ⟨i, d.top, hi, hnode, hcopy⟩
    · exact .inr hneither
  · obtain ⟨copy', hcopy', hiscopy⟩ := exists_copyOf hbears
    rw [← htop] at hcopy'
    rw [h.nextTag_eq] at hiscopy
    rw [hcopy', hiscopy.eq h hbare]

/-- A copy of a subtree is the subtree again, with its nodes in consecutive slots.  Copying
succeeds for every node of a tree.  As a tree of its own the copy has no other slots, and in
another tree, or where there is none yet, it comes behind the slots that are there and
changes nothing. -/
theorem copyOf_and_addCopy (ht : t.IsTree) {id : Handle} (hid : (t.get? id).isSome = true) :
    ∃ ids, t.descendants id = .ok ids ∧
      (∃ copy, t.copyOf id = .ok copy ∧ t.CopiedTo copy id ids) ∧
      ∀ dest : Tree, (dest.IsTree ∨ ∃ nextTag, dest = .empty nextTag) →
        ∃ dest', (Edit.addCopy t id).run dest = .ok ⟨dest.slots.size⟩ dest' ∧
          dest'.slots.size = dest.slots.size + ids.length ∧
          t.Transcribes dest' ids dest.slots.size ∧
          (∀ other : Handle, other.index < dest.slots.size → dest'.get? other = dest.get? other) ∧
          dest'.root = dest.root ∧ dest'.nextTag = dest.nextTag := by
  obtain ⟨node, hget⟩ := Option.isSome_iff_exists.mp hid
  obtain ⟨b, rfl, hb⟩ := ht.toIsForest.exists_bears hget
  refine ⟨b.handles, hb.descendants_eq, ?_, ?_⟩
  · obtain ⟨copy, hcopy, hiscopy⟩ := exists_copyOf hb
    exact ⟨copy, hcopy, hiscopy.copiedTo ht hb⟩
  · intro dest hdest
    -- the root is a slot that is taken, or the first one
    have hroot : dest.root.index ≤ dest.slots.size := by
      rcases hdest with hdest | ⟨nextTag, rfl⟩
      · obtain ⟨_, hroot, _⟩ := hdest.root_top
        exact Nat.le_of_lt (lt_size_of_get? hroot)
      · exact Nat.le_refl _
    obtain ⟨dest', hrun, hsize, hnextTag, hgains⟩ := Edit.exists_addCopy hb hroot
    exact ⟨dest', hrun, hsize, hb.transcribes (hgains.bears.bears (List.mem_singleton_self _)),
      hgains.old, hgains.root, hnextTag⟩

/-- A product out of a sum that was merged, as a tree of its own and behind the sum. -/
theorem copyOf_and_addCopy_product : ∃ t copy dest : Tree,
    parse "a+b+c*d" = .ok t ∧ t.descendants ⟨4⟩ = .ok [⟨4⟩, ⟨5⟩, ⟨6⟩] ∧
    t.copyOf ⟨4⟩ = .ok copy ∧
    copy = ⟨#[some ⟨.compound .mul [⟨1⟩, ⟨2⟩], none, ⟨4⟩⟩, some ⟨.literal "c", some ⟨0⟩, ⟨5⟩⟩,
      some ⟨.literal "d", some ⟨0⟩, ⟨6⟩⟩], ⟨0⟩, 7⟩ ∧
    t.CopiedTo copy ⟨4⟩ [⟨4⟩, ⟨5⟩, ⟨6⟩] ∧
    (Edit.addCopy t ⟨4⟩).run t = .ok ⟨7⟩ dest ∧ dest.slots.size = 10 ∧
    dest.get? ⟨7⟩ = some ⟨.compound .mul [⟨8⟩, ⟨9⟩], none, ⟨4⟩⟩ ∧
    t.Transcribes dest [⟨4⟩, ⟨5⟩, ⟨6⟩] 7 := by
  obtain ⟨t, ht⟩ : ∃ t : Tree, t = ⟨#[some ⟨.compound .add [⟨1⟩, ⟨3⟩, ⟨4⟩], none, ⟨0⟩⟩,
      some ⟨.literal "a", some ⟨0⟩, ⟨1⟩⟩, none, some ⟨.literal "b", some ⟨0⟩, ⟨3⟩⟩,
      some ⟨.compound .mul [⟨5⟩, ⟨6⟩], some ⟨0⟩, ⟨4⟩⟩, some ⟨.literal "c", some ⟨4⟩, ⟨5⟩⟩,
      some ⟨.literal "d", some ⟨4⟩, ⟨6⟩⟩], ⟨0⟩, 7⟩ := ⟨_, rfl⟩
  have hparse : parse "a+b+c*d" = .ok t := by
    rw [ht]
    cbv
  have hids : t.descendants ⟨4⟩ = .ok [⟨4⟩, ⟨5⟩, ⟨6⟩] := by
    rw [ht]
    cbv
  have hlive : (t.get? ⟨4⟩).isSome = true := by
    rw [ht]
    rfl
  have hsize : t.slots.size = 7 := by rw [ht]; rfl
  have htree := (Obtained.parse hparse).isProper.toIsTree
  obtain ⟨ids, hids', ⟨copy, hcopy, hcopied⟩, hadded⟩ := copyOf_and_addCopy htree hlive
  obtain rfl := Except.ok.inj (hids.symm.trans hids')
  obtain ⟨dest, hrun, hdest, htranscribes, _⟩ := hadded t (.inl htree)
  rw [hsize] at hrun hdest htranscribes
  -- the top of the product is the first node of the copy
  obtain ⟨node, hnode, _, hfirst⟩ := htranscribes.first ⟨4⟩ rfl
  obtain rfl : ⟨.compound .mul [⟨5⟩, ⟨6⟩], some ⟨0⟩, ⟨4⟩⟩ = node := by
    rw [ht] at hnode
    exact Option.some_inj.mp hnode
  refine ⟨t, copy, dest, hparse, hids, hcopy, ?_, hcopied, hrun, hdest, hfirst, htranscribes⟩
  rw [ht] at hcopy
  refine Except.ok.inj (hcopy.symm.trans ?_)
  cbv

end Tree

end FormulaEditor
