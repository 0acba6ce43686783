/-
Dragging a node to another place among its siblings.

A drag remembers what it needs of the tree it was begun on: copies of the
dragged node and of every arrangement it could bring about, and the path to the
parent.  It holds on to nothing of the tree itself, so the tree may change
before the node is dropped; the drop then succeeds only if the arrangement
still matches what is found at the path.

* `Drag.start` — picks up the node at a path;
* `Drag.nearest` — the closest position that is offered;
* `Drag.drop` — drops the node at a position.
-/
import FormulaEditor.Tree.Arrangement
import FormulaEditor.Tree.Rearrangement
import FormulaEditor.Tree.Path

namespace FormulaEditor

/-- A node under way among its siblings. -/
structure Drag where
  /-- Where the parent was when the drag began. -/
  parentPath : Path
  /-- The position of the node when the drag began. -/
  startPosition : Nat
  /-- The identity of the node. -/
  tag : Tag
  /-- A copy of the node, to be shown while it is under way. -/
  preview : Tree
  /-- What it can bring about, by ascending position. -/
  arrangements : List Arrangement

namespace Drag

/-- Picks up the node at a path.  The root has no siblings to move among. -/
def start (t : Tree) (path : Path) : Except EditError Drag := do
  let selected ← t.nodeAt path
  let arrangements ← t.arrangements selected
  match path.last? with
  | none => throw .noParent
  | some startPosition =>
    return {
      parentPath := path.pop 1
      startPosition
      tag := (← t.node selected).tag
      preview := ← t.copyOf selected
      arrangements }

/-- The arrangement with the node at a position, if it is offered. -/
def arrangementAt? (drag : Drag) (position : Nat) : Option Tree :=
  (drag.arrangements.find? (·.position = position)).map (·.tree)

/-- The offered position that is closest to the given one. -/
def nearest (drag : Drag) (position : Nat) : Nat :=
  min position (drag.arrangements.length - 1)

/-- Drops the node at a position and gives its new path.  The tree takes the
order of the arrangement, by moving the nodes that it has. -/
def drop (drag : Drag) (position : Nat) : Edit Path := do
  match drag.arrangementAt? position with
  | none => throw .invalidPath
  | some arrangement =>
    let parent ← ask (·.nodeAt drag.parentPath)
    Edit.rearrange parent arrangement arrangement.root
    let path := drag.parentPath.push position
    let moved ← ask (·.nodeAt path)
    if (← Edit.node moved).tag = drag.tag then
      return path
    else
      throw .mismatchedChildren

end Drag

end FormulaEditor
