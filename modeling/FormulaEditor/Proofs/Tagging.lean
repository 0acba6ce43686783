/-
Tags of their own.

In a tree that was parsed every node has the number of its slot as its tag
(`Tree.IsNumbered`), so a tag tells the node and the next tag is a new one
(`Tree.HasOwnTags`).  Copies have the tags of what they were made from, and
rearranging leaves them alone, so the second of these stays true of all that an
editor makes of the tree.

* `Branch.tags` — the tags of a branch, and `Tree.IsWhole.hasOwnTags_iff`;
* `Tree.isNumbered_of_parse` — parsed trees are numbered;
* `Tree.IsCopy.hasOwnTags`, `Tree.Permutes.hasOwnTags` — copies and rearranged
  trees.
-/
import FormulaEditor.Proofs.Copying
import FormulaEditor.Proofs.Permuting

namespace FormulaEditor

namespace Branch

/-- The tag of the topmost node. -/
def tag : Branch → Tag
  | literal _ tag _ => tag
  | compound _ tag _ _ => tag

/-- The tags of all nodes, each before those below it. -/
def tags : Branch → List Tag
  | literal _ tag _ => [tag]
  | compound _ tag _ parts => tag :: parts.flatMap tags

@[simp] theorem tag_node (parent : Option Handle) (b : Branch) : (b.node parent).tag = b.tag := by
  cases b <;> rfl

theorem tags_eq (b : Branch) : b.tags = b.tag :: b.parts.flatMap tags := by
  cases b with
  | literal => rw [tags, tag, parts, List.flatMap_nil]
  | compound => rw [tags, tag, parts]

@[simp] theorem tags_bare (b : Branch) : b.bare.tags = b.tags := by
  induction b with
  | literal => rw [bare, tags, tags]
  | compound id tag operator parts ih =>
    rw [bare, tags, tags, List.flatMap_map]
    exact congrArg _ (List.flatMap_congr ih)

theorem tags_eq_of_bare_eq {b c : Branch} (h : b.bare = c.bare) : b.tags = c.tags := by
  rw [← tags_bare b, h, tags_bare]

/-- The tags of a part are among those of the whole, in the same order. -/
theorem tags_sublist_of_mem_parts {b part : Branch} (hp : part ∈ b.parts) :
    part.tags.Sublist b.tags := by
  rw [tags_eq b, List.flatMap_def]
  exact (List.sublist_flatten_of_mem (List.mem_map_of_mem hp)).cons _

theorem Within.tags_sublist {b c : Branch} (h : b.Within c) : b.tags.Sublist c.tags := by
  induction h with
  | refl => exact List.Sublist.refl _
  | part hp _ ih => exact ih.trans (tags_sublist_of_mem_parts hp)

theorem tags_perm {id : Handle} {tag : Tag} {operator : Operator} {parts order : List Branch}
    (h : order.Perm parts) :
    (compound id tag operator order).tags.Perm (compound id tag operator parts).tags := by
  rw [tags, tags]
  exact (h.flatMap_right tags).cons tag

end Branch

namespace Tree

/-- The tag of the node behind a handle, if there is such a node. -/
def tag? (t : Tree) (id : Handle) : Option Tag := (t.get? id).map (·.tag)

/-- A tag tells the node, and the next tag to give out is a new one. -/
structure HasOwnTags (t : Tree) : Prop where
  eq_of_tag_eq : ∀ {id other : Handle} {node found : Node}, t.get? id = some node →
    t.get? other = some found → node.tag = found.tag → id = other
  tag_lt : ∀ {id : Handle} {node : Node}, t.get? id = some node → node.tag.value < t.nextTag

variable {t t' : Tree} {parent : Option Handle} {b : Branch}

/-! ### Tags of branches -/

/-- The tags of a branch are those of its nodes in the store. -/
theorem Holds.map_some_tags (h : t.Holds parent b) : b.tags.map some = b.handles.map t.tag? := by
  induction h with
  | @intro parent b hget _ ih =>
    rw [Branch.tags_eq, Branch.handles_eq, List.map_cons, List.map_cons, List.map_flatMap,
      List.map_flatMap, List.flatMap_congr ih, tag?, hget, Option.map_some, Branch.tag_node]

/-- A node that has one of the tags of a branch. -/
theorem Holds.exists_of_mem_tags (h : t.Holds parent b) {tag : Tag} (htag : tag ∈ b.tags) :
    ∃ id ∈ b.handles, ∃ node, t.get? id = some node ∧ node.tag = tag := by
  have hmem : some tag ∈ b.handles.map t.tag? :=
    h.map_some_tags ▸ List.mem_map_of_mem htag
  obtain ⟨id, hid, heq⟩ := List.mem_map.mp hmem
  obtain ⟨node, hnode, htag⟩ := Option.map_eq_some_iff.mp heq
  exact ⟨id, hid, node, hnode, htag⟩

/-- The tags of a branch are different ones, if each of them tells the node. -/
theorem Bears.nodup_tags (h : t.Bears parent b) (ht : t.HasOwnTags) : b.tags.Nodup := by
  refine List.Nodup.of_map some ?_
  rw [h.holds.map_some_tags]
  refine List.Nodup.map_on ?_ h.nodup
  intro id hid other hother heq
  obtain ⟨node, hnode⟩ := Option.isSome_iff_exists.mp (h.holds.isSome id hid)
  obtain ⟨found, hfound⟩ := Option.isSome_iff_exists.mp (h.holds.isSome other hother)
  rw [tag?, tag?, hnode, hfound, Option.map_some, Option.map_some, Option.some_inj] at heq
  exact ht.eq_of_tag_eq hnode hfound heq

theorem Bears.tag_lt (h : t.Bears parent b) (ht : t.HasOwnTags) :
    ∀ tag ∈ b.tags, tag.value < t.nextTag := by
  intro tag htag
  obtain ⟨id, _, node, hnode, rfl⟩ := h.holds.exists_of_mem_tags htag
  exact ht.tag_lt hnode

theorem IsWhole.hasOwnTags_iff (h : t.IsWhole b) :
    t.HasOwnTags ↔ b.tags.Nodup ∧ ∀ tag ∈ b.tags, tag.value < t.nextTag := by
  refine ⟨fun ht => ⟨h.bears.nodup_tags ht, h.bears.tag_lt ht⟩, ?_⟩
  rintro ⟨hnodup, hlt⟩
  have hmap : (b.handles.map t.tag?).Nodup := by
    rw [← h.bears.holds.map_some_tags]
    exact hnodup.map fun _ _ => Option.some.inj
  constructor
  · intro id other node found hnode hfound heq
    refine List.inj_on_of_nodup_map hmap (h.mem id (hnode ▸ rfl)) (h.mem other (hfound ▸ rfl)) ?_
    rw [tag?, tag?, hnode, hfound, Option.map_some, Option.map_some, heq]
  · intro id node hnode
    have hmem : some node.tag ∈ b.tags.map some := by
      rw [h.bears.holds.map_some_tags]
      exact List.mem_map.mpr ⟨id, h.mem id (hnode ▸ rfl), by rw [tag?, hnode]; rfl⟩
    obtain ⟨tag, htag, heq⟩ := List.mem_map.mp hmem
    exact Option.some_inj.mp heq ▸ hlt tag htag

/-! ### Parsed trees -/

/-- Every node has the number of its slot as its tag, and the next tag goes with
the next slot. -/
structure IsNumbered (t : Tree) : Prop where
  nextTag_eq : t.nextTag = t.slots.size
  tag_eq : ∀ {id : Handle} {node : Node}, t.get? id = some node → node.tag = ⟨id.index⟩

theorem isNumbered_empty : (empty 0).IsNumbered := by
  refine ⟨rfl, ?_⟩
  intro id node h
  exact absurd (lt_size_of_get? h) (Nat.not_lt_zero _)

/-- A new node with the next tag. -/
theorem IsNumbered.push (h : t.IsNumbered) (content : Content) :
    ({ t.push ⟨content, none, ⟨t.nextTag⟩⟩ with nextTag := t.nextTag + 1 } : Tree).IsNumbered := by
  constructor
  · show t.nextTag + 1 = (t.slots.push _).size
    rw [Array.size_push, h.nextTag_eq]
  · intro id node hnode
    have hget : (t.push ⟨content, none, ⟨t.nextTag⟩⟩).get? id = some node := hnode
    rw [get?_push] at hget
    split at hget
    · next hid =>
      cases hget
      rw [h.nextTag_eq, hid]
    · exact h.tag_eq hget

theorem ignoresLinks_isNumbered : IgnoresLinks IsNumbered where
  put {t id node node'} h hget htag := by
    refine ⟨h.nextTag_eq.trans (size_slots_put ..).symm, ?_⟩
    intro other found hfound
    rw [get?_put] at hfound
    split at hfound
    · next hother =>
      cases hfound
      rw [htag, h.tag_eq hget, hother.1]
    · exact h.tag_eq hfound
  root _ h := ⟨h.nextTag_eq, h.tag_eq⟩

theorem IsNumbered.vacate (id : Handle) (h : t.IsNumbered) : (t.put id none).IsNumbered := by
  refine ⟨h.nextTag_eq.trans (size_slots_put ..).symm, ?_⟩
  intro other found hfound
  rw [get?_put] at hfound
  split at hfound
  · cases hfound
  · exact h.tag_eq hfound

/-- Reading a formula numbers the nodes that it makes, and merging takes some of
them out. -/
theorem isNumbered_of_parse {text : String} (h : parse text = .ok t) : t.IsNumbered :=
  of_parse ignoresLinks_isNumbered (fun id h => h.vacate id)
    (fun text _ h => h.push (.literal text))
    (fun operator _ h => h.push (.compound operator [])) isNumbered_empty h

theorem IsNumbered.hasOwnTags (h : t.IsNumbered) : t.HasOwnTags := by
  constructor
  · intro id other node found hnode hfound heq
    rw [h.tag_eq hnode, h.tag_eq hfound, Tag.mk.injEq] at heq
    exact congrArg Handle.mk heq
  · intro id node hnode
    rw [h.tag_eq hnode, h.nextTag_eq]
    exact lt_size_of_get? hnode

/-! ### Copies and rearranged trees -/

theorem IsCopy.hasOwnTags {copy : Tree} {nextTag : Nat} (h : copy.IsCopy nextTag b)
    (hnodup : b.tags.Nodup) (hlt : ∀ tag ∈ b.tags, tag.value < nextTag) : copy.HasOwnTags := by
  obtain ⟨c, hc, hbare⟩ := h.exists_isCompact
  rw [hc.toIsWhole.hasOwnTags_iff, h.nextTag_eq, Branch.tags_eq_of_bare_eq hbare]
  exact ⟨hnodup, hlt⟩

theorem Permutes.hasOwnTags (h : t.Permutes t') (ht : t.HasOwnTags) : t'.HasOwnTags := by
  constructor
  · intro id other node' found' hnode' hfound' heq
    obtain ⟨node, hnode, hperm⟩ := h.symm.get hnode'
    obtain ⟨found, hfound, hperm'⟩ := h.symm.get hfound'
    exact ht.eq_of_tag_eq hnode hfound (hperm.tag.trans (heq.trans hperm'.tag.symm))
  · intro id node' hnode'
    obtain ⟨node, hnode, hperm⟩ := h.symm.get hnode'
    rw [h.nextTag, ← hperm.tag]
    exact ht.tag_lt hnode

end Tree

end FormulaEditor
