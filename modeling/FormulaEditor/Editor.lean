/-
An editor at work on a tree.

The editor keeps a path to the node that is selected.  The selection moves from node to
node, or the selected node is picked up, taken to a position among its siblings and
dropped there.  What is asked for at a time when it makes no sense, like moving the
selection while a node is under way, is passed over.

* `Tree.move` — changes a path into that to a neighbour;
* `Editor.step` — one action of the user;
* `Editor.run` — one action after another.
-/
import FormulaEditor.Drag

namespace FormulaEditor

/-- The four neighbours of a node. -/
inductive Direction where
  | left
  | right
  | up
  | down
  deriving DecidableEq

/-- Goes on to a neighbour, if there is one. -/
def Tree.move (t : Tree) : Direction → EStateM EditError Path Unit
  | .left => t.moveLeft
  | .right => t.moveRight
  | .up => t.moveUp
  | .down => t.moveDown

/-- A tree that is being edited. -/
structure Editor where
  tree : Tree
  /-- Where the selected node is. -/
  path : Path
  /-- The drag that is under way, and the position where the node would be dropped. -/
  drag : Option (Drag × Nat)

namespace Editor

/-- What a user can ask for. -/
inductive Action where
  /-- Select a neighbour. -/
  | move (direction : Direction)
  /-- Pick the selected node up. -/
  | grab
  /-- Take the node to the closest position that is offered. -/
  | hover (wanted : Nat)
  /-- Leave the node where it was. -/
  | cancel
  /-- Drop the node where it has been taken to. -/
  | drop
  deriving DecidableEq

/-- A new tree, with the root selected. -/
def start (tree : Tree) : Editor := ⟨tree, .root, none⟩

/-- Does what is asked for.  A node that was dropped stays selected. -/
def step (editor : Editor) (action : Action) : Except EditError Editor :=
  match editor.drag, action with
  | none, .move direction =>
    match (editor.tree.move direction).run editor.path with
    | .ok _ path => .ok { editor with path }
    | .error cause _ => .error cause
  | none, .grab => do
    let drag ← Drag.start editor.tree editor.path
    return { editor with drag := some (drag, drag.startPosition) }
  | some (drag, _), .hover wanted => .ok { editor with drag := some (drag, drag.nearest wanted) }
  | some _, .cancel => .ok { editor with drag := none }
  | some (drag, position), .drop =>
    match (drag.drop position).run editor.tree with
    | .ok path tree => .ok ⟨tree, path, none⟩
    | .error cause _ => .error cause
  | _, _ => .ok editor

/-- The editor after an action.  If the action fails, it goes on as it was. -/
def act (editor : Editor) (action : Action) : Editor :=
  match editor.step action with
  | .ok editor' => editor'
  | .error _ => editor

/-- The editor after one action and another. -/
def run (editor : Editor) (actions : List Action) : Editor := actions.foldl act editor

end Editor

end FormulaEditor
