/-
Rearranging a tree to match another one.

Children are matched by name and tag.  A rearrangement is planned as a whole
before anything is changed: the plan says for each compound node of the subtree
in which order its children have to stand, so a mismatch anywhere leaves the
tree as it was.  The nodes themselves stay, and with them every handle.

* `Tree.matchChildren` — finds the child for each wanted key;
* `Tree.rearrangement` — the new child lists, deeper nodes first;
* `Edit.rearrange` — plans a rearrangement and carries it out.
-/
import FormulaEditor.Tree.Edit

namespace FormulaEditor

/-- What identifies a child across a tree and its copies. -/
structure ChildKey where
  name : String
  tag : Tag
  deriving DecidableEq

namespace Tree

/-- The key of a node. -/
def childKey (t : Tree) (id : Handle) : Except EditError ChildKey := do
  let node ← t.node id
  return ⟨node.name, node.tag⟩

/-- The children by their keys, provided that each key is wanted and none
occurs twice. -/
def keyedChildren (t : Tree) (wanted : List ChildKey) (children : List Handle) :
    Except EditError (List (ChildKey × Handle)) :=
  children.foldlM (fun found child => do
    let key ← t.childKey child
    if key ∈ wanted ∧ key ∉ found.map (·.1) then
      return found ++ [(key, child)]
    else
      throw .mismatchedChildren) []

/-- The children in the order of the wanted keys. -/
def matchChildren (t : Tree) (wanted : List ChildKey) (children : List Handle) :
    Except EditError (List Handle) := do
  let found ← t.keyedChildren wanted children
  wanted.mapM fun key =>
    match found.lookup key with
    | some child => return child
    | none => throw .mismatchedChildren

/-- `rearrangement` within a bounded depth. -/
def rearrangementWithin (t target : Tree) :
    Nat → Handle → Handle → Except EditError (List (Handle × List Handle))
  | 0, _, _ => throw .endless
  | bound + 1, id, targetId => do
    let here ← t.node id
    let there ← target.node targetId
    if here.name ≠ there.name ∨ here.children.length ≠ there.children.length then
      throw .mismatchedChildren
    else if here.children.isEmpty then
      return []
    else
      let wanted ← there.children.mapM target.childKey
      let reordered ← t.matchChildren wanted here.children
      let below ← (reordered.zip there.children).mapM fun (child, targetChild) => do
        if (← t.node child).isLiteral then
          return []
        else
          t.rearrangementWithin target bound child targetChild
      return below.flatten ++ [(id, reordered)]

/-- The child lists that turn the subtree of `id` into a rearrangement that
matches the subtree of `targetId`, each with the node it is for. -/
def rearrangement (t target : Tree) (id targetId : Handle) :
    Except EditError (List (Handle × List Handle)) :=
  t.rearrangementWithin target t.walkBound id targetId

end Tree

namespace Edit

/-- Rearranges the subtree of a node to match a node of another tree.  Fails
with `mismatchedChildren` if the two subtrees are not rearrangements of each
other. -/
def rearrange (id : Handle) (target : Tree) (targetId : Handle) : Edit Unit := do
  let plan ← ask fun t => t.rearrangement target id targetId
  plan.forM fun (node, children) => replaceChildren node children

end Edit

end FormulaEditor
