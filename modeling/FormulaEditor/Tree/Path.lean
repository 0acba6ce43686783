/-
Paths: where a node is, counted from the root.

A path lists which child to step to, from the root on; the empty path is the
root.  Other than a handle, a path means the same place in a tree and in its
copies, and it keeps its meaning only as long as the nodes above stay where
they are.

* `Tree.nodeAt`, `Tree.pathTo` — from a path to a node and back;
* `Tree.moveLeft`, `Tree.moveRight`, `Tree.moveUp`, `Tree.moveDown` — change a
  path into that to a neighbour, and leave it as it is where there is none.

Design notes: steps are 64-bit words, so shifting one past either end of that
range goes on at the other end.  A move is a computation on the path, so what
becomes of the path when the move fails is a property of the move.
-/
import FormulaEditor.Tree.Basic

namespace FormulaEditor

/-- The indices of the children to step to, from the root on. -/
structure Path where
  steps : List Nat
  deriving DecidableEq

namespace Path

/-- The path to the root. -/
def root : Path := ⟨[]⟩

/-- Whether this is the path to the root. -/
def isRoot (path : Path) : Bool := path.steps.isEmpty

/-- The number of steps. -/
def length (path : Path) : Nat := path.steps.length

/-- The last step, which is the position of the node among its siblings. -/
def last? (path : Path) : Option Nat := path.steps.getLast?

/-- The step at an index. -/
def step (path : Path) (index : Nat) : Except EditError Nat :=
  match path.steps[index]? with
  | some step => .ok step
  | none => .error (.outOfBounds path.length index)

/-- The path with one more step. -/
def push (path : Path) (step : Nat) : Path := ⟨path.steps ++ [step]⟩

/-- The path without its last `count` steps, as far as it has them. -/
def pop (path : Path) (count : Nat) : Path := ⟨path.steps.take (path.length - count)⟩

/-- The number of different steps, the 64th power of two. -/
def stepRange : Nat := 18446744073709551616

/-- The path with its last step shifted; a path without steps stays. -/
def shift (path : Path) (amount : Int) : Path :=
  match path.last? with
  | none => path
  | some step => (path.pop 1).push ((step + amount) % stepRange).toNat

end Path

namespace Tree

/-! ### Between paths and nodes -/

/-- The node that a path leads to. -/
def nodeAt (t : Tree) (path : Path) : Except EditError Handle :=
  path.steps.foldlM (fun here step => do
    match (← t.node here).children[step]? with
    | some child => return child
    | none => throw .invalidPath) t.root

/-- `pathTo` within a bounded number of steps. -/
def pathWithin (t : Tree) : Nat → Handle → Except EditError Path
  | 0, _ => throw .endless
  | bound + 1, id => do
    match ← t.place? id with
    | none => return .root
    | some (parent, position) => return (← t.pathWithin bound parent).push position

/-- The path to a node from the topmost node above it. -/
def pathTo (t : Tree) (id : Handle) : Except EditError Path :=
  t.pathWithin t.walkBound id

/-! ### Moves -/

/-- Goes on to the next sibling on the right, if there is one. -/
def moveRight (t : Tree) : EStateM EditError Path Unit := do
  let here ← ask t.nodeAt
  match (← ofExcept (t.node here)).parent with
  | none => return
  | some parent =>
    let siblings := (← ofExcept (t.node parent)).children
    if (← get).last?.any (· + 1 < siblings.length) then
      modify (·.shift 1)

/-- Goes back to the next sibling on the left, if there is one. -/
def moveLeft (t : Tree) : EStateM EditError Path Unit := do
  let _ ← ask t.nodeAt
  if (← get).last?.any (0 < ·) then
    modify (·.shift (-1))

/-- Goes down to the first child, if there is one. -/
def moveDown (t : Tree) : EStateM EditError Path Unit := do
  let here ← ask t.nodeAt
  if !(← ofExcept (t.node here)).children.isEmpty then
    modify (·.push 0)

/-- Goes up to the parent.  The root stays. -/
def moveUp (t : Tree) : EStateM EditError Path Unit := do
  let _ ← ask t.nodeAt
  modify (·.pop 1)

end Tree

end FormulaEditor
