/-
Stores that differ in the order of child lists.

To all that looks at the links between nodes and not at their order, two such
stores are the same (`Tree.Permutes`).  Replacing the children of a node by the
same ones in another order is the one step that leads from one to the other:

* `Tree.Permutes.isForest`, `Tree.Permutes.isProper` — what they have in common;
* `Edit.run_replaceChildren_perm` — the step;
* `Edit.run_forM_replaceChildren` — a plan of such steps.
-/
import FormulaEditor.Proofs.Edit
import FormulaEditor.Proofs.Legible

namespace FormulaEditor

/-- The same content, up to the order of children. -/
inductive Content.Permutes : Content → Content → Prop
  | literal (text : String) : Permutes (.literal text) (.literal text)
  | compound (operator : Operator) {children children' : List Handle} :
      children.Perm children' →
      Permutes (.compound operator children) (.compound operator children')

namespace Content.Permutes

variable {c c' c'' : Content}

theorem refl (c : Content) : c.Permutes c := by
  cases c with
  | literal text => exact .literal text
  | compound operator children => exact .compound operator (.refl _)

theorem symm (h : c.Permutes c') : c'.Permutes c := by
  cases h with
  | literal text => exact .literal text
  | compound operator hperm => exact .compound operator hperm.symm

theorem trans (h : c.Permutes c') (h' : c'.Permutes c'') : c.Permutes c'' := by
  cases h with
  | literal => exact h'
  | compound operator hperm =>
    cases h' with
    | compound _ hperm' => exact .compound operator (hperm.trans hperm')

theorem children (h : c.Permutes c') : c.children.Perm c'.children := by
  cases h with
  | literal => exact .refl _
  | compound _ hperm => exact hperm

theorem operator? (h : c.Permutes c') : c'.operator? = c.operator? := by
  cases h <;> rfl

theorem isLiteral (h : c.Permutes c') : c'.isLiteral = c.isLiteral := by
  cases h <;> rfl

end Content.Permutes

/-- The same node, up to the order of its children. -/
structure Node.Permutes (node node' : Node) : Prop where
  content : node.content.Permutes node'.content
  parent : node'.parent = node.parent
  tag : node'.tag = node.tag

namespace Node.Permutes

variable {node node' node'' : Node}

theorem refl (node : Node) : node.Permutes node := ⟨.refl _, rfl, rfl⟩

theorem symm (h : node.Permutes node') : node'.Permutes node :=
  ⟨h.content.symm, h.parent.symm, h.tag.symm⟩

theorem trans (h : node.Permutes node') (h' : node'.Permutes node'') : node.Permutes node'' :=
  ⟨h.content.trans h'.content, h'.parent.trans h.parent, h'.tag.trans h.tag⟩

theorem children (h : node.Permutes node') : node.children.Perm node'.children := h.content.children

theorem operator? (h : node.Permutes node') : node'.operator? = node.operator? :=
  h.content.operator?

theorem isLiteral (h : node.Permutes node') : node'.isLiteral = node.isLiteral :=
  h.content.isLiteral

end Node.Permutes

namespace Tree

/-- The same store, up to the order of child lists. -/
structure Permutes (t t' : Tree) : Prop where
  size : t'.slots.size = t.slots.size
  root : t'.root = t.root
  nextTag : t'.nextTag = t.nextTag
  rel : ∀ id, Option.Rel Node.Permutes (t.get? id) (t'.get? id)

namespace Permutes

variable {t t' t'' : Tree}

theorem refl (t : Tree) : t.Permutes t := by
  refine ⟨rfl, rfl, rfl, ?_⟩
  intro id
  cases t.get? id with
  | none => exact .none
  | some node => exact .some (.refl node)

theorem symm (h : t.Permutes t') : t'.Permutes t := by
  refine ⟨h.size.symm, h.root.symm, h.nextTag.symm, ?_⟩
  intro id
  have hrel := h.rel id
  generalize t.get? id = found, t'.get? id = found' at hrel
  cases hrel with
  | none => exact .none
  | some hnode => exact .some hnode.symm

theorem get (h : t.Permutes t') {id : Handle} {node : Node} (hget : t.get? id = some node) :
    ∃ node', t'.get? id = some node' ∧ node.Permutes node' := by
  have hrel := h.rel id
  rw [hget] at hrel
  generalize t'.get? id = found at hrel
  cases hrel with
  | some hnode => exact ⟨_, rfl, hnode⟩

theorem trans (h : t.Permutes t') (h' : t'.Permutes t'') : t.Permutes t'' := by
  refine ⟨h'.size.trans h.size, h'.root.trans h.root, h'.nextTag.trans h.nextTag, ?_⟩
  intro id
  cases hget : t.get? id with
  | none =>
    -- a slot that is empty in the first store is empty in all of them
    have hrel := h.rel id
    have hrel' := h'.rel id
    rw [hget] at hrel
    generalize t'.get? id = found, t''.get? id = found' at hrel hrel'
    cases hrel
    exact hrel'
  | some node =>
    obtain ⟨node', hget', hnode⟩ := h.get hget
    obtain ⟨node'', hget'', hnode'⟩ := h'.get hget'
    rw [hget'']
    exact .some (hnode.trans hnode')

theorem lists (h : t.Permutes t') {parent child : Handle} (hlists : t.Lists parent child) :
    t'.Lists parent child := by
  obtain ⟨node, hget, hmem⟩ := hlists
  obtain ⟨node', hget', hnode⟩ := h.get hget
  exact ⟨node', hget', hnode.children.mem_iff.mp hmem⟩

theorem hasParent (h : t.Permutes t') {child parent : Handle}
    (hparent : t.HasParent child parent) : t'.HasParent child parent := by
  obtain ⟨node, hget, hup⟩ := hparent
  obtain ⟨node', hget', hnode⟩ := h.get hget
  exact ⟨node', hget', hnode.parent.trans hup⟩

theorem ascends (h : t.Permutes t') {id : Handle} (hid : t.Ascends id) : t'.Ascends id := by
  induction hid with
  | top hget hparent =>
    obtain ⟨node', hget', hnode⟩ := h.get hget
    exact .top hget' (hnode.parent.trans hparent)
  | step hparent _ ih => exact .step (h.hasParent hparent) ih

theorem isForest (h : t.Permutes t') (hforest : t.IsForest) : t'.IsForest where
  lists_iff := ⟨fun hlists => h.hasParent (hforest.lists_iff.mp (h.symm.lists hlists)),
    fun hparent => h.lists (hforest.lists_iff.mpr (h.symm.hasParent hparent))⟩
  nodup hget := by
    obtain ⟨node, hget, hnode⟩ := h.symm.get hget
    exact hnode.children.nodup_iff.mpr (hforest.nodup hget)
  ascends hget := by
    obtain ⟨node, hget, _⟩ := h.symm.get hget
    exact h.ascends (hforest.ascends hget)

theorem isTree (h : t.Permutes t') (ht : t.IsTree) : t'.IsTree where
  toIsForest := h.isForest ht.toIsForest
  root_top := by
    obtain ⟨node, hget, hparent⟩ := ht.root_top
    obtain ⟨node', hget', hnode⟩ := h.get hget
    exact ⟨node', h.root ▸ hget', hnode.parent.trans hparent⟩

theorem reaches (h : t.Permutes t') {top id : Handle} (hid : t.Reaches top id) :
    t'.Reaches top id := by
  induction hid with
  | self => exact .self
  | child _ hget hmem ih =>
    obtain ⟨node', hget', hnode⟩ := h.get hget
    exact .child ih hget' (hnode.children.mem_iff.mp hmem)

theorem operator? (h : t.Permutes t') (id : Handle) : t'.operator? id = t.operator? id := by
  have hrel := h.rel id
  rw [Tree.operator?, Tree.operator?]
  generalize t.get? id = found, t'.get? id = found' at hrel
  cases hrel with
  | none => rfl
  | some hnode => exact hnode.operator?

theorem spells (h : t.Permutes t') {c c' : Content} (hc : c.Permutes c') (hspells : t.Spells c) :
    t'.Spells c' := by
  cases hc with
  | literal => exact hspells
  | @compound operator children children' hperm =>
    cases operator with
    | add =>
      rw [Spells] at hspells ⊢
      rwa [← hperm.length_eq]
    | mul =>
      rw [Spells] at hspells ⊢
      refine ⟨hperm.length_eq ▸ hspells.1, ?_⟩
      intro child hchild
      rw [h.operator?]
      exact hspells.2 child (hperm.mem_iff.mpr hchild)
    | group =>
      rw [Spells] at hspells ⊢
      rwa [← hperm.length_eq]

theorem separates (h : t.Permutes t') {c c' : Content} (hc : c.Permutes c')
    (hseparates : t.Separates c) : t'.Separates c' := by
  cases hc with
  | literal => exact hseparates
  | @compound operator children children' hperm =>
    intro ha child hchild
    rw [h.operator?]
    exact hseparates ha child (hperm.mem_iff.mpr hchild)

theorem isProper (h : t.Permutes t') (ht : t.IsProper) : t'.IsProper where
  toIsTree := h.isTree ht.toIsTree
  reaches id node' hget' := by
    obtain ⟨node, hget, _⟩ := h.symm.get hget'
    rw [h.root]
    exact h.reaches (ht.reaches id node hget)
  isLegible id node' hid hget' := by
    obtain ⟨node, hget, hnode⟩ := h.symm.get hget'
    rw [h.root] at hid
    exact h.spells hnode.symm.content (ht.isLegible id node (h.symm.reaches hid) hget)
  isMerged id node' hid hget' := by
    obtain ⟨node, hget, hnode⟩ := h.symm.get hget'
    rw [h.root] at hid
    exact h.separates hnode.symm.content (ht.isMerged id node (h.symm.reaches hid) hget)

end Permutes

/-! ### Plans -/

namespace IsForest

variable {t : Tree}

theorem get_child (h : t.IsForest) {id child : Handle} {node : Node} (hget : t.get? id = some node)
    (hmem : child ∈ node.children) :
    ∃ found, t.get? child = some found ∧ found.parent = some id :=
  h.lists_iff.mp ⟨node, hget, hmem⟩

/-- No node is its own child. -/
theorem notMem_children (h : t.IsForest) {id : Handle} {node : Node}
    (hget : t.get? id = some node) : id ∉ node.children := by
  intro hmem
  -- else the way up could be made longer by one more round
  obtain ⟨way, hway⟩ := (h.ascends hget).climbs
  have hstep : t.Climbs id (id :: way) := .step (h.get_child hget hmem) hway
  have hlen := congrArg List.length (hway.unique hstep)
  rw [List.length_cons] at hlen
  omega

end IsForest

/-- Every entry of the plan names a compound node and a permutation of its
children. -/
def Permits (t : Tree) (plan : List (Handle × List Handle)) : Prop :=
  ∀ entry ∈ plan, ∃ node, t.get? entry.1 = some node ∧ node.isLiteral = false ∧
    entry.2.Perm node.children

theorem Permutes.permits {t t' : Tree} (h : t.Permutes t') {plan : List (Handle × List Handle)}
    (hplan : t.Permits plan) : t'.Permits plan := by
  intro entry hentry
  obtain ⟨node, hget, hcompound, hperm⟩ := hplan entry hentry
  obtain ⟨node', hget', hnode⟩ := h.get hget
  exact ⟨node', hget', hnode.isLiteral.trans hcompound, hperm.trans hnode.children⟩

end Tree

namespace Edit

variable {t : Tree}

theorem run_replaceChildren_perm (h : t.IsForest) {id : Handle} {node : Node}
    {children : List Handle} (hid : t.get? id = some node) (hcompound : node.isLiteral = false)
    (hperm : children.Perm node.children) :
    ∃ t', (replaceChildren id children).run t = .ok () t' ∧ t.Permutes t' := by
  obtain ⟨content, parent, tag⟩ := node
  cases content with
  | literal => simp [Node.isLiteral, Content.isLiteral] at hcompound
  | compound operator old =>
    have hperm : children.Perm old := hperm
    have hfound : ∀ child ∈ children,
        ∃ found, t.get? child = some found ∧ found.parent = some id := by
      intro child hchild
      exact h.get_child hid (hperm.mem_iff.mp hchild)
    have hlive : ∀ child ∈ children, (t.get? child).isSome = true := by
      intro child hchild
      obtain ⟨found, hget, _⟩ := hfound child hchild
      rw [hget, Option.isSome_some]
    have hne : id ∉ children := fun hmem => h.notMem_children hid (hperm.mem_iff.mp hmem)
    obtain ⟨t', hrun, hsame, hid', hchildren⟩ := run_replaceChildren hid hlive hne
    refine ⟨t', hrun, hsame.size, hsame.root, hsame.nextTag, ?_⟩
    intro other
    by_cases hother : other = id
    · rw [hother, hid, hid']
      exact .some ⟨.compound operator hperm.symm, rfl, rfl⟩
    · have heq : t'.get? other = t.get? other := by
        by_cases hmem : other ∈ children
        · -- the child is told its parent once more
          obtain ⟨found, hget, hup⟩ := hfound other hmem
          rw [hchildren other hmem, hget, Option.map_some, ← hup]
          rfl
        · refine hsame.get? other ?_
          rw [List.mem_cons, not_or]
          exact ⟨hother, hmem⟩
      rw [heq]
      exact (Tree.Permutes.refl t).rel other

theorem run_forM_replaceChildren {plan : List (Handle × List Handle)} (h : t.IsForest)
    (hplan : t.Permits plan) :
    ∃ t', (plan.forM fun (node, children) => replaceChildren node children).run t = .ok () t' ∧
      t.Permutes t' := by
  induction plan generalizing t with
  | nil => exact ⟨t, rfl, .refl t⟩
  | cons entry plan ih =>
    obtain ⟨node, hget, hcompound, hperm⟩ := hplan entry (List.mem_cons_self ..)
    obtain ⟨t₁, hrun₁, hpermutes₁⟩ := run_replaceChildren_perm h hget hcompound hperm
    have hrest : t₁.Permits plan :=
      hpermutes₁.permits fun e he => hplan e (List.mem_cons_of_mem _ he)
    obtain ⟨t₂, hrun₂, hpermutes₂⟩ := ih (hpermutes₁.isForest h) hrest
    refine ⟨t₂, ?_, hpermutes₁.trans hpermutes₂⟩
    rw [run_forM_cons, run_bind_ok hrun₁, hrun₂]

end Edit

end FormulaEditor
