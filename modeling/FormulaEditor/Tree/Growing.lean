/-
Growing trees: copies of a subtree, and trees of a given shape.

Nodes are made one by one, each before those below it, and each of these is
attached as soon as it is complete.  So handles count the new nodes in
depth-first order.  A copy has new handles but the names and the tags of what
it was made from, so the nodes of a tree and of its copies can be matched; a
tree that is grown from a shape has new tags as well.

* `Edit.addCopy` — adds a copy of a subtree of another tree, without a place;
* `Tree.copyOf` — a tree of its own for a subtree;
* `Shape.plant` — adds the nodes of a shape to a tree;
* `Tree.ofShape` — a new tree of a given shape.
-/
import FormulaEditor.Shape
import FormulaEditor.Tree.Edit

namespace FormulaEditor

/-! ### Copies -/

namespace Edit

/-- `addCopy` within a bounded depth. -/
def addCopyWithin (source : Tree) : Nat → Handle → Edit Handle
  | 0, _ => throw .endless
  | bound + 1, id => do
    let here ← ofExcept (source.node id)
    let top ← addLike here
    here.children.forM fun child => do
      attach top (← addCopyWithin source bound child)
    return top

/-- Adds a copy of a subtree of `source` to the tree, each node before its
children, and gives the top of the copy, which has no place yet. -/
def addCopy (source : Tree) (id : Handle) : Edit Handle :=
  addCopyWithin source source.walkBound id

end Edit

namespace Tree

/-- A tree that holds a copy of a subtree and nothing else.  Its next tag is
that of the tree it was made from. -/
def copyOf (t : Tree) (id : Handle) : Except EditError Tree :=
  grow t.nextTag (Edit.addCopy t id)

end Tree

/-! ### Shapes -/

namespace Shape

mutual

/-- Adds new nodes for a shape to the tree, and gives the topmost one. -/
def plant : Shape → Edit Handle
  | literal text => Edit.addLiteral text
  | compound operator parts => do
    let top ← Edit.addCompound operator
    plantUnder top parts
    return top

/-- Adds new nodes for each of the shapes, as children of a compound. -/
def plantUnder (top : Handle) : List Shape → Edit Unit
  | [] => return
  | part :: rest => do
    Edit.attach top (← part.plant)
    plantUnder top rest

end

end Shape

namespace Tree

/-- A new tree of a given shape, its tags counted from zero. -/
def ofShape (shape : Shape) : Except EditError Tree := grow 0 shape.plant

end Tree

end FormulaEditor
