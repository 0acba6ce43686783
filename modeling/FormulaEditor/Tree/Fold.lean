/-
Reading a whole subtree.

`Tree.fold` combines a subtree bottom-up: the answer at a node is made from the
node and the answers at its children, in order.  What is read off a subtree
without changing it is such a fold, so that one argument about the walk serves
for all of them:

* `Tree.descendants` — the handles of a subtree, each node before its children;
* `Tree.shape`, `Tree.value` — the formula that a subtree holds, and its value;
* `Tree.outline` — one line per node, indented by depth.

Nodes can also be visited one after the other, with a stack of those that are
still to be visited (`Tree.walk`).  This is another way to list a subtree.

Design notes: an outline is for people to read and says nothing about handles
and tags.
-/
import FormulaEditor.Shape
import FormulaEditor.Tree.Basic

namespace FormulaEditor

namespace Tree

variable {α : Type}

/-- `fold` within a bounded depth. -/
def foldWithin (t : Tree) (combine : Handle → Node → List α → α) :
    Nat → Handle → Except EditError α
  | 0, _ => .error .endless
  | bound + 1, id => do
    let node ← t.node id
    let parts ← node.children.mapM (t.foldWithin combine bound)
    return combine id node parts

/-- Combines the subtree of a node bottom-up. -/
def fold (t : Tree) (combine : Handle → Node → List α → α) (id : Handle) :
    Except EditError α :=
  t.foldWithin combine t.walkBound id

/-- The handles of a subtree in depth-first order, each node before its
children. -/
def descendants (t : Tree) (id : Handle) : Except EditError (List Handle) :=
  t.fold (fun here _ parts => here :: parts.flatten) id

/-- `walk` within a bounded number of nodes. -/
def walkWithin (t : Tree) : Nat → List Handle → Except EditError (List Handle)
  | _, [] => .ok []
  | 0, _ :: _ => .error .endless
  | bound + 1, id :: pending => do
    let node ← t.node id
    return id :: (← t.walkWithin bound (node.children ++ pending))

/-- The handles of a subtree in the order in which its nodes are visited, when
the nodes still to be visited are kept on a stack and the children of each node
go on top of it, the first one uppermost. -/
def walk (t : Tree) (id : Handle) : Except EditError (List Handle) :=
  t.walkWithin t.walkBound [id]

/-! ### Formulas -/

/-- The shape of one node over the shapes of its children. -/
def shapeOver (node : Node) (parts : List Shape) : Shape :=
  match node.content with
  | .literal text => .literal text
  | .compound operator _ => .compound operator parts

/-- The formula that a subtree holds, without handles and tags. -/
def shape (t : Tree) (id : Handle) : Except EditError Shape :=
  t.fold (fun _ node parts => shapeOver node parts) id

/-- The value of the subtree of a node, if all of it has one. -/
def value (m : Interpretation α) (t : Tree) (id : Handle) : Except EditError (Option α) := do
  return (← t.shape id).value m

/-! ### Outlines -/

/-- The line of a node at a depth: a tab for each level of indentation, and the
name of the node. -/
def outlineLine (depth : Nat) (node : Node) : String :=
  "".pushn '\t' depth ++ node.name ++ "\n"

/-- The outline of a subtree, its topmost line indented by `depth` tabs. -/
def outline (t : Tree) (id : Handle) (depth : Nat) : Except EditError String := do
  let lines : Nat → String ← t.fold (fun _ node parts depth =>
    outlineLine depth node ++ String.join (parts.map (· (depth + 1)))) id
  return lines depth

end Tree

end FormulaEditor
