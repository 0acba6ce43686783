/-
The ways in which reading or changing a tree can fail.

The first five causes are refusals: the request makes sense, but the tree does
not allow it.  The last three are faults: a handle or an index was used that
names nothing, or the nodes are linked in a ring.  A refusal leaves an editor
running, a fault is a mistake of its author (`EditError.isFault`).

A computation that may fail is run on a state, and leaves one behind in either
case.  To ask the state a question (`ask`) leaves it as it is.
-/

namespace FormulaEditor

/-- Why an operation on a tree did not succeed. -/
inductive EditError where
  /-- A literal was asked to hold a child. -/
  | childOfLiteral
  /-- The node has no parent, so it has no siblings either. -/
  | noParent
  /-- The node already has a place in a tree. -/
  | alreadyAttached
  /-- Two nodes that should hold the same children do not. -/
  | mismatchedChildren
  /-- A path leaves the tree, or a position lies outside its range. -/
  | invalidPath
  /-- A handle names no live node. -/
  | deadHandle
  /-- An index lies past the end of a sequence of the given length. -/
  | outOfBounds (length index : Nat)
  /-- A walk along parents or children came back to where it had been. -/
  | endless
  deriving DecidableEq

namespace EditError

/-- The wording of each cause. -/
def message : EditError → String
  | childOfLiteral => "cannot add a child to a literal node"
  | noParent => "node has no parent"
  | alreadyAttached => "node is already part of a tree"
  | mismatchedChildren => "trees do not contain the same children"
  | invalidPath => "path does not lead to a node"
  | deadHandle => "node handle does not belong to this tree"
  | outOfBounds length index =>
    "index out of bounds: the len is " ++ toString length
      ++ " but the index is " ++ toString index
  | endless => "the nodes of this tree are linked in a ring"

/-- Whether the cause is a misuse of handles or indices, and not a refusal. -/
def isFault : EditError → Bool
  | deadHandle | outOfBounds _ _ | endless => true
  | _ => false

end EditError

/-- Asks the state a question and leaves it as it is. -/
def ask {σ α : Type} (question : σ → Except EditError α) : EStateM EditError σ α := fun s =>
  match question s with
  | .ok answer => .ok answer s
  | .error cause => .error cause s

/-- An outcome that does not depend on the state. -/
def ofExcept {σ α : Type} (outcome : Except EditError α) : EStateM EditError σ α :=
  ask fun _ => outcome

end FormulaEditor
