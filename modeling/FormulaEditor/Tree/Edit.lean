/-
Changing a tree step by step.

An `Edit` is a computation that may read a tree, change it, and fail.  Changes
made before a failure stay: that a failing operation leaves the tree as it was
is a property of the operation, not of the way in which edits are combined.

* `Edit.addLiteral`, `Edit.addCompound`, `Edit.addLike` — nodes without a place;
* `Edit.attach` — gives a node without a place one at the end of a compound;
* `Edit.replaceChildren` — replaces the child list of a compound as a whole;
* `Edit.makeRoot`, `Edit.vacate` — choose the root, vacate a slot;
* `Tree.grow` — the tree that an edit makes out of nothing.

Design notes: only `attach` guards the tree against a node with two parents.
`replaceChildren` and `vacate` are the raw steps from which flattening and
rearranging are made, and leave the links of other nodes alone.
-/
import FormulaEditor.Tree.Basic

namespace FormulaEditor

namespace Node

/-- The node under another parent, or under none. -/
def withParent (node : Node) (parent : Option Handle) : Node := { node with parent }

end Node

namespace Tree

/-- The tree with what a slot holds replaced.  There is nothing to replace past
the last slot. -/
def put (t : Tree) (id : Handle) (slot : Option Node) : Tree :=
  { t with slots := t.slots.setIfInBounds id.index slot }

/-- The tree with one more slot. -/
def push (t : Tree) (node : Node) : Tree := { t with slots := t.slots.push (some node) }

@[simp] theorem root_put (t : Tree) (id : Handle) (slot : Option Node) :
    (t.put id slot).root = t.root := rfl

@[simp] theorem nextTag_put (t : Tree) (id : Handle) (slot : Option Node) :
    (t.put id slot).nextTag = t.nextTag := rfl

@[simp] theorem size_slots_put (t : Tree) (id : Handle) (slot : Option Node) :
    (t.put id slot).slots.size = t.slots.size := by simp [put]

/-- A handle with a live node is one that has been given out. -/
theorem lt_size_of_get? {t : Tree} {id : Handle} {node : Node} (h : t.get? id = some node) :
    id.index < t.slots.size := by
  refine Nat.lt_of_not_le fun hle => ?_
  rw [get?, Array.getElem?_eq_none hle] at h
  exact absurd h (by simp)

/-- What is put into a slot is found there, and nowhere else. -/
theorem get?_put (t : Tree) (id other : Handle) (slot : Option Node) :
    (t.put id slot).get? other
      = if other = id ∧ id.index < t.slots.size then slot else t.get? other := by
  obtain ⟨i⟩ := id
  obtain ⟨j⟩ := other
  simp only [get?, put, Array.getElem?_setIfInBounds, Handle.mk.injEq]
  by_cases hij : j = i
  · subst hij
    by_cases hlt : j < t.slots.size <;> simp [hlt]
  · simp [hij, Ne.symm hij]

/-- The node in a new slot is found there, and all others where they were. -/
theorem get?_push (t : Tree) (node : Node) (id : Handle) :
    (t.push node).get? id = if id.index = t.slots.size then some node else t.get? id := by
  simp only [get?, push, Array.getElem?_push]
  split <;> simp

theorem node_eq_ok_iff {t : Tree} {id : Handle} {node : Node} :
    t.node id = .ok node ↔ t.get? id = some node := by
  rw [Tree.node]
  split
  · next found h => simp [h]
  · next h => simp [h]

end Tree

/-- A computation that reads and changes a tree, and may fail. -/
abbrev Edit := EStateM EditError Tree

namespace Edit

/-- The node behind a handle. -/
def node (id : Handle) : Edit Node := ask (·.node id)

/-- Changes the node behind a handle. -/
def modifyNode (id : Handle) (change : Node → Node) : Edit Unit := do
  let node ← node id
  modify (·.put id (some (change node)))

theorem modifyNode_run {t : Tree} {id : Handle} {node : Node} (h : t.get? id = some node)
    (change : Node → Node) :
    (modifyNode id change).run t = .ok () (t.put id (some (change node))) := by
  simp only [modifyNode, Edit.node, ask, EStateM.run, bind, EStateM.bind,
    Tree.node_eq_ok_iff.mpr h]
  rfl

/-! ### New nodes -/

/-- Puts a node without a parent into the next slot. -/
def allocate (content : Content) (tag : Tag) : Edit Handle :=
  modifyGet fun t => (⟨t.slots.size⟩, t.push ⟨content, none, tag⟩)

/-- A tag that this tree has not given out before. -/
def freshTag : Edit Tag :=
  modifyGet fun t => (⟨t.nextTag⟩, { t with nextTag := t.nextTag + 1 })

/-- A new literal with a fresh tag, without a place. -/
def addLiteral (text : String) : Edit Handle := do
  allocate (.literal text) (← freshTag)

/-- A new compound without children, with a fresh tag, without a place. -/
def addCompound (operator : Operator) : Edit Handle := do
  allocate (.compound operator []) (← freshTag)

/-- A new node like the given one and with its tag, but without children and
without a place. -/
def addLike (node : Node) : Edit Handle :=
  allocate node.content.childless node.tag

/-! ### Links -/

/-- Makes a node the root.  A root has no parent. -/
def makeRoot (id : Handle) : Edit Unit := do
  modifyNode id (·.withParent none)
  modify ({ · with root := id })

/-- Vacates a slot, whether it holds a node or not. -/
def vacate (id : Handle) : Edit Unit := do
  let t ← get
  if id.index < t.slots.size then
    set (t.put id none)
  else
    throw (.outOfBounds t.slots.size id.index)

/-- Replaces the children of a compound node and makes it their parent.  Former
children keep the parent that they have. -/
def replaceChildren (id : Handle) (children : List Handle) : Edit Unit := do
  match (← node id).content with
  | .literal _ => throw .childOfLiteral
  | .compound operator _ =>
    children.forM fun child => modifyNode child (·.withParent (some id))
    modifyNode id ({ · with content := .compound operator children })

/-- Appends a node to the children of a compound.  The node must be without a
place: it has no parent, is not the root, and is neither the new parent nor
above it. -/
def attach (parent child : Handle) : Edit Unit := do
  match (← node parent).content with
  | .literal _ => throw .childOfLiteral
  | .compound operator siblings =>
    if (← node child).parent.isSome || child = (← get).root then
      throw .alreadyAttached
    else if ← ask (·.isAbove child parent) then
      throw .alreadyAttached
    else
      modifyNode parent ({ · with content := .compound operator (siblings ++ [child]) })
      modifyNode child (·.withParent (some parent))

end Edit

namespace Tree

/-- The tree that an edit makes out of an empty one, with the node that the
edit returns as its root. -/
def grow (nextTag : Nat) (edit : Edit Handle) : Except EditError Tree :=
  match (edit >>= Edit.makeRoot).run (empty nextTag) with
  | .ok _ t => .ok t
  | .error cause _ => .error cause

end Tree

end FormulaEditor
