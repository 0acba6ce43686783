/-
Trees that are built by hand.

Nodes are made one by one, and linked to each other in any order.  At every moment the
store is a forest, and its root is one of the tops from the first node on
(`Tree.IsRooted`): new nodes are tops, attaching and merging keep the links in
agreement, and only a top can become the root.

* `Tree.Built` — the stores that can come about in this way;
* `Tree.Gains.isForest`, `Tree.Reshapes.isForest` — new branches, and branches that
  make do with fewer nodes;
* `Tree.Built.isRooted` — the invariant, one step at a time;
* `Tree.invariants_of_built` — what it says about nodes, ways up, and attaching.
-/
import FormulaEditor.Proofs.Attaching
import FormulaEditor.Proofs.Copying
import FormulaEditor.Proofs.Rearranging

namespace FormulaEditor

namespace Tree

open Branch

/-- Stores that are built from nothing by single steps, whether or not these
succeed.  Only a top is made the root, and what is copied comes from a forest. -/
inductive Built : Tree → Prop
  | empty (nextTag : Nat) : Built (.empty nextTag)
  | addLiteral {t : Tree} (text : String) : Built t → Built ((Edit.addLiteral text).leaves t)
  | addCompound {t : Tree} (operator : Operator) :
      Built t → Built ((Edit.addCompound operator).leaves t)
  | addLike {t : Tree} (node : Node) : Built t → Built ((Edit.addLike node).leaves t)
  | addCopy {t source : Tree} (id : Handle) :
      source.IsForest → Built t → Built ((Edit.addCopy source id).leaves t)
  | attach {t : Tree} (parent child : Handle) :
      Built t → Built ((Edit.attach parent child).leaves t)
  | makeRoot {t : Tree} {id : Handle} {node : Node} : t.get? id = some node →
      node.parent = none → Built t → Built ((Edit.makeRoot id).leaves t)
  | flatten {t : Tree} (id : Handle) : Built t → Built ((Edit.flatten id).leaves t)
  | rearrange {t : Tree} (id : Handle) (target : Tree) (targetId : Handle) :
      Built t → Built ((Edit.rearrange id target targetId).leaves t)

/-- A forest whose root is a top.  Before there are any slots, the root is the handle that
the first node will get. -/
structure IsRooted (t : Tree) : Prop extends t.IsForest where
  root_eq : t.slots.size = 0 → t.root = ⟨0⟩
  root_top : 0 < t.slots.size → ∃ node, t.get? t.root = some node ∧ node.parent = none

variable {t t' : Tree} {b : Branch} {l : List Branch} {place : Option Handle}

theorem isRooted_empty (nextTag : Nat) : (empty nextTag).IsRooted where
  toIsForest := isForest_empty nextTag
  root_eq _ := rfl
  root_top h := absurd h (Nat.lt_irrefl 0)

/-- The root is a slot that is taken, or the next one. -/
theorem IsRooted.root_le (h : t.IsRooted) : t.root.index ≤ t.slots.size := by
  rcases Nat.eq_zero_or_pos t.slots.size with hsize | hsize
  · rw [h.root_eq hsize]
    exact Nat.zero_le _
  · obtain ⟨node, hget, _⟩ := h.root_top hsize
    exact Nat.le_of_lt (lt_size_of_get? hget)

/-! ### New nodes -/

theorem Gains.replants (h : t.Gains t' l) (hforest : t.IsForest) :
    t.Replants t' (t.slots.size ≤ ·.index) none l where
  same id hid := h.old id (Nat.lt_of_not_le hid)
  bears := h.bears
  mem_iff := h.mem_iff
  outside _ hup := absurd hup (by simp)
  lists_iff up child _ hchild := by
    refine ⟨fun hlists => ?_, fun hup => absurd hup.1 (by simp)⟩
    -- a child that is listed has been there before
    obtain ⟨node, hget, _⟩ := hforest.lists_iff.mp hlists
    exact absurd (lt_size_of_get? hget) (Nat.not_lt.mpr hchild)
  closed up child hup _ hparent := by
    obtain ⟨node, hget, _⟩ := hforest.lists_iff.mpr hparent
    exact absurd (lt_size_of_get? hget) (Nat.not_lt.mpr hup)

theorem Gains.isForest (h : t.Gains t' l) (hforest : t.IsForest) : t'.IsForest :=
  (h.replants hforest).isForest hforest

/-- A new branch, which holds the root if there was nothing before. -/
theorem Gains.isRooted (h : t.Gains t' [b]) (ht : t.IsRooted)
    (hfirst : t.slots.size = 0 → b.top = ⟨0⟩) : t'.IsRooted := by
  have hget := (h.bears.holds b (List.mem_singleton_self b)).get
  refine ⟨h.isForest ht.toIsForest, ?_, ?_⟩
  · intro hsize
    have := lt_size_of_get? hget
    omega
  · intro _
    rw [h.root]
    rcases Nat.eq_zero_or_pos t.slots.size with hsize | hsize
    · exact ⟨_, ht.root_eq hsize ▸ hfirst hsize ▸ hget, parent_node _ _⟩
    · obtain ⟨node, hroot, hnone⟩ := ht.root_top hsize
      exact ⟨node, (h.old _ (lt_size_of_get? hroot)).trans hroot, hnone⟩

theorem IsRooted.push (h : t.IsRooted) (content : Content) (tag : Tag) (nextTag : Nat)
    (hcontent : content.children = []) :
    ({ t.push ⟨content, none, tag⟩ with nextTag } : Tree).IsRooted := by
  have hchildren : ([] : List Branch).map top = (⟨content, none, tag⟩ : Node).children :=
    hcontent.symm
  obtain ⟨b, htop, hparts, hnode⟩ := exists_branch ⟨t.slots.size⟩ hchildren
  have hnode : b.node none = ⟨content, none, tag⟩ := hnode
  rw [← hnode]
  exact (Edit.gains_allocate t b nextTag htop hparts).isRooted h fun hsize => hsize ▸ htop

/-- In a store without nodes a copy begins in the first slot. -/
theorem top_eq_of_addCopy {source : Tree} {id : Handle} (hsize : t.slots.size = 0)
    (hrun : (Edit.addCopy source id).run t = .ok b.top t') (h : t.Gains t' [b]) :
    b.top = ⟨0⟩ := by
  have hgaps : HasNoGaps t.nextTag t' :=
    (keeps_addCopy_hasNoGaps t.nextTag source id).of_ok
      ⟨rfl, fun other hother => absurd hother (by omega)⟩ hrun
  have hlt := lt_size_of_get? (h.bears.holds b (List.mem_singleton_self b)).get
  have hzero := (h.mem_iff ⟨0⟩).mpr ⟨by simp [hsize], hgaps.isSome ⟨0⟩ (by simp; omega)⟩
  rw [List.flatMap_singleton, handles_eq, List.mem_cons] at hzero
  rcases hzero with hzero | hzero
  · exact hzero.symm
  · -- nothing comes before the first slot
    have hinOrder := h.inOrder
    rw [List.flatMap_singleton, handles_eq] at hinOrder
    exact absurd ((List.pairwise_cons.mp hinOrder).1 _ hzero) (Nat.not_lt_zero _)

theorem IsRooted.addCopy {source : Tree} (h : t.IsRooted) (hsource : source.IsForest)
    (id : Handle) : ((Edit.addCopy source id).leaves t).IsRooted := by
  cases hget : source.get? id with
  | none =>
    rw [Edit.leaves, Edit.run_addCopy_error hget]
    exact h
  | some node =>
    obtain ⟨b, rfl, hb⟩ := hsource.exists_bears hget
    obtain ⟨t', c, hrun, hgains, _⟩ := Edit.adds_addCopy hb t h.root_le
    rw [Edit.leaves, hrun]
    exact hgains.isRooted h fun hsize => top_eq_of_addCopy hsize hrun hgains

/-! ### New links -/

/-- Making a top the root changes no node. -/
theorem IsRooted.makeRoot (h : t.IsRooted) {id : Handle} {node : Node}
    (hget : t.get? id = some node) (hnone : node.parent = none) :
    ((Edit.makeRoot id).leaves t).IsRooted := by
  have hlt := lt_size_of_get? hget
  have hnode : node.withParent none = node := by
    rw [Node.withParent, ← hnone]
  have hput : t.put id (some node) = t :=
    (SameExcept.put t id (some node)).eq fun other hother => by
      rw [List.mem_singleton.mp hother, get?_put_self _ hlt, hget]
  have hleaves : (Edit.makeRoot id).leaves t = { t with root := id } := by
    rw [Edit.leaves, Edit.makeRoot, run_bind_ok (Edit.modifyNode_run hget _), hnode, hput]
    rfl
  rw [hleaves]
  refine ⟨h.toIsForest.congr fun _ => rfl, ?_, fun _ => ⟨node, hget, hnone⟩⟩
  intro hsize
  exact absurd (hsize ▸ hlt : id.index < 0) (Nat.not_lt_zero _)

theorem Attaches.isRooted {parent child : Handle} (h : t.Attaches t' parent child)
    (ht : t.IsRooted) : t'.IsRooted := by
  refine ⟨h.isForest ht.toIsForest, ?_, ?_⟩
  · intro hsize
    rw [h.same.root]
    exact ht.root_eq (h.same.size ▸ hsize)
  · intro hsize
    obtain ⟨node, hget, hnone⟩ := ht.root_top (h.same.size ▸ hsize)
    rw [h.same.root]
    by_cases hroot : t.root = parent
    · -- the root may get a child, but it is none
      obtain ⟨operator, siblings, up, tag, hparent, hparent'⟩ := h.parent_get
      rw [hroot, hparent, Option.some_inj] at hget
      exact ⟨_, hroot ▸ hparent', by rw [← hget] at hnone; exact hnone⟩
    · exact ⟨node, (h.get? hroot h.ne_root.symm).trans hget, hnone⟩

theorem IsRooted.attach (h : t.IsRooted) (parent child : Handle) :
    ((Edit.attach parent child).leaves t).IsRooted := by
  rcases Edit.attach_cases h.toIsForest parent child with ⟨t', hrun, hattaches⟩ | ⟨e, hrun, _⟩
  · rw [Edit.leaves, hrun]
    exact hattaches.isRooted h
  · rw [Edit.leaves, hrun]
    exact h

/-! ### Merging and rearranging -/

theorem Reshapes.isForest {b' : Branch} (h : t.Reshapes t' place b b') (ht : t.IsForest)
    (hb : t.Bears place b) (hb' : t'.Bears place b') (htop : b'.top = b.top) : t'.IsForest := by
  refine (ht.replants hb h.same.get? hb' htop fun id => ?_).isForest ht
  constructor
  · exact fun hid => ⟨h.sub hid, h.holds.isSome id hid⟩
  · rintro ⟨hid, hlive⟩
    by_contra hnot
    rw [h.gone id hid hnot] at hlive
    exact absurd hlive (by simp)

/-- Merging keeps the topmost node of the branch, and no other node of it is a top. -/
theorem Reshapes.isRooted {b' : Branch} (h : t.Reshapes t' place b b') (ht : t.IsRooted)
    (hb : t.Bears place b) (hb' : t'.Bears place b') (htop : b'.top = b.top) : t'.IsRooted := by
  refine ⟨h.isForest ht.toIsForest hb hb' htop, ?_, ?_⟩
  · intro hsize
    rw [h.same.root]
    exact ht.root_eq (h.same.size ▸ hsize)
  · intro hsize
    obtain ⟨node, hget, hnone⟩ := ht.root_top (h.same.size ▸ hsize)
    rw [h.same.root]
    by_cases hmem : t.root ∈ b.handles
    · obtain ⟨hroot, hplace⟩ := hb.eq_of_parent_eq_none hmem hget hnone
      exact ⟨_, hroot ▸ htop ▸ hb'.get, (parent_node _ _).trans hplace⟩
    · exact ⟨node, (h.same.get? _ hmem).trans hget, hnone⟩

theorem IsRooted.flatten (h : t.IsRooted) (id : Handle) :
    ((Edit.flatten id).leaves t).IsRooted := by
  cases hget : t.get? id with
  | none =>
    rw [Edit.leaves, Edit.run_flatten_error hget]
    exact h
  | some node =>
    obtain ⟨b, rfl, hb⟩ := h.toIsForest.exists_bears hget
    obtain ⟨t', hrun, hreshapes⟩ := Edit.run_flatten hb
    rw [Edit.leaves, hrun]
    exact hreshapes.isRooted h hb (hreshapes.bears_flat hb) (top_flat b)

theorem Permutes.isRooted (h : t.Permutes t') (ht : t.IsRooted) : t'.IsRooted where
  toIsForest := h.isForest ht.toIsForest
  root_eq hsize := h.root.trans (ht.root_eq (h.size ▸ hsize))
  root_top hsize := by
    obtain ⟨node, hget, hnone⟩ := ht.root_top (h.size ▸ hsize)
    obtain ⟨node', hget', hnode⟩ := h.get hget
    exact ⟨node', h.root ▸ hget', hnode.parent.trans hnone⟩

/-! ### The invariant -/

/-- Building by hand leaves a forest at every moment. -/
theorem Built.isRooted (h : t.Built) : t.IsRooted := by
  induction h with
  | empty nextTag => exact isRooted_empty nextTag
  | @addLiteral t text _ ih => exact ih.push (.literal text) ⟨t.nextTag⟩ (t.nextTag + 1) rfl
  | @addCompound t operator _ ih =>
    exact ih.push (.compound operator []) ⟨t.nextTag⟩ (t.nextTag + 1) rfl
  | @addLike t node _ ih =>
    refine ih.push node.content.childless node.tag t.nextTag ?_
    cases node.content <;> rfl
  | addCopy id hsource _ ih => exact ih.addCopy hsource id
  | attach parent child _ ih => exact ih.attach parent child
  | makeRoot hget hnone _ ih => exact ih.makeRoot hget hnone
  | flatten id _ ih => exact ih.flatten id
  | rearrange id target targetId _ ih =>
    exact (Edit.isPermuting_rearrange id target targetId _ ih.toIsForest).isRooted ih

/-- However a store is built by hand, links agree in both directions, every way up comes
to an end, and the root is a top.  Attaching succeeds or leaves everything as it was,
and with live handles it does not fail otherwise than by refusing. -/
theorem invariants_of_built (h : t.Built) :
    t.IsForest ∧
    (∀ id node, t.get? id = some node →
      (∀ child ∈ node.children, (t.get? child).isSome = true) ∧
      (node.isLiteral = true → node.children = []) ∧
      ∃ way, t.ancestors id = .ok way ∧ way.Nodup) ∧
    (0 < t.slots.size → ∃ node, t.get? t.root = some node ∧ node.parent = none) ∧
    (∀ parent child, (∃ t', (Edit.attach parent child).run t = .ok () t' ∧ t'.Built) ∨
      ∃ e, (Edit.attach parent child).run t = .error e t ∧
        ((t.get? parent).isSome = true → (t.get? child).isSome = true → e.isFault = false)) := by
  have hrooted := h.isRooted
  refine ⟨hrooted.toIsForest, ?_, hrooted.root_top, ?_⟩
  · intro id node hget
    refine ⟨?_, ?_, ?_⟩
    · intro child hchild
      obtain ⟨found, hfound, _⟩ := hrooted.lists_iff.mp ⟨node, hget, hchild⟩
      rw [hfound, Option.isSome_some]
    · intro hliteral
      obtain ⟨content, up, tag⟩ := node
      cases content with
      | literal => rfl
      | compound => exact absurd hliteral (by simp [Node.isLiteral, Content.isLiteral])
    · obtain ⟨way, hway⟩ := (hrooted.ascends hget).climbs
      exact ⟨way, hway.ancestors_eq, hway.nodup⟩
  · intro parent child
    rcases Edit.attach_cases hrooted.toIsForest parent child with ⟨t', hrun, _⟩ | hrefused
    · refine .inl ⟨t', hrun, ?_⟩
      have hbuilt := Built.attach parent child h
      rwa [Edit.leaves, hrun] at hbuilt
    · exact .inr hrefused

/-- A sum beside the root, which cannot be attached to its own operand. -/
theorem invariants_of_built_ring : ∃ t, t.Built ∧ t.IsForest ∧
    t.get? ⟨1⟩ = some ⟨.compound .add [⟨2⟩], none, ⟨1⟩⟩ ∧
    t.get? ⟨2⟩ = some ⟨.compound .group [], some ⟨1⟩, ⟨2⟩⟩ ∧
    ∃ e, (Edit.attach ⟨2⟩ ⟨1⟩).run t = .error e t ∧ e.isFault = false := by
  have hbuilt : Built ⟨#[some ⟨.literal "x", none, ⟨0⟩⟩, some ⟨.compound .add [⟨2⟩], none, ⟨1⟩⟩,
      some ⟨.compound .group [], some ⟨1⟩, ⟨2⟩⟩], ⟨0⟩, 3⟩ :=
    .attach ⟨1⟩ ⟨2⟩ (.addCompound .group (.addCompound .add (.addLiteral "x" (.empty 0))))
  obtain ⟨hforest, _, _, hattach⟩ := invariants_of_built hbuilt
  refine ⟨_, hbuilt, hforest, rfl, rfl, ?_⟩
  rcases hattach ⟨2⟩ ⟨1⟩ with ⟨t', hrun, _⟩ | ⟨e, hrun, hrefusal⟩
  · cases hrun
  · exact ⟨e, hrun, hrefusal rfl rfl⟩

end Tree

end FormulaEditor
