/-
The arrangements that a node can be moved into among its siblings.

A node moves by swaps with a neighbour, so its siblings keep their order and an
arrangement is known by the position that the node ends up in.  Each is offered
as a tree of its own: a copy of the parent with its children in the new order.

* `Arrangement.walkRight`, `Arrangement.walkLeft` — the orders met on the way to
  either end;
* `Tree.arrangements` — one arrangement for each position that can be reached.
-/
import FormulaEditor.Tree.Growing

namespace FormulaEditor

/-- An order of the children of a node, as a copy of that node, with the
position that the moved child takes in it. -/
structure Arrangement where
  position : Nat
  tree : Tree

namespace Arrangement

variable {α : Type}

/-! ### Orders -/

/-- The orders met when `x`, between `before` and `after`, swaps places with
its right neighbour until it is last. -/
def walkRight (before : List α) (x : α) : List α → List (List α)
  | [] => []
  | next :: after =>
    let passed := before ++ [next]
    (passed ++ x :: after) :: walkRight passed x after

/-- The orders met when `x` swaps places with its left neighbour until it is
first.  What stands to the left of `x` is given nearest first. -/
def walkLeft (x : α) (after : List α) : List α → List (List α)
  | [] => []
  | next :: before =>
    (before.reverse ++ x :: next :: after) :: walkLeft x (next :: after) before

/-- The orders that moving `id`, which stands at `index`, can bring about, the
present one first. -/
def orders (siblings : List Handle) (index : Nat) (id : Handle) : List (List Handle) :=
  let before := siblings.take index
  let after := siblings.drop (index + 1)
  siblings :: walkRight before id after ++ walkLeft id after before.reverse

/-- For each position below `size` the order in which `id` has it, if there is
one.  Only in a list that holds a node more than once can several orders give
it the same first position; the last of them counts. -/
def byPosition (orders : List (List Handle)) (size : Nat) (id : Handle) :
    List (Nat × List Handle) :=
  let placed := orders.map fun order => (order.idxOf id, order)
  (List.range size).filterMap fun position => placed.findRev? (·.1 = position)

end Arrangement

namespace Tree

/-- A copy of a node with the given nodes as its children. -/
def arranged (t : Tree) (parent : Handle) (order : List Handle) : Except EditError Tree :=
  grow t.nextTag do
    let top ← Edit.addLike (← ofExcept (t.node parent))
    let children ← order.mapM (Edit.addCopy t)
    Edit.replaceChildren top children
    return top

/-- All arrangements of the parent of a node that moving the node past its
siblings can bring about, by ascending position, the present one among them. -/
def arrangements (t : Tree) (id : Handle) : Except EditError (List Arrangement) := do
  match ← t.place? id with
  | none => throw .noParent
  | some (parent, index) =>
    let siblings := (← t.node parent).children
    let orders := Arrangement.orders siblings index id
    (Arrangement.byPosition orders siblings.length id).mapM fun (position, order) => do
      return ⟨position, ← t.arranged parent order⟩

end Tree

end FormulaEditor
