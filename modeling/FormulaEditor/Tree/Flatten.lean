/-
Flattening: one wide node instead of a chain of the same operator.

Addition and multiplication are associative, so a sum among the summands of a
sum, or a product among the factors of a product, can give its operands to the
node above it.  The operands take the place of the node they came from, so
their order stays, and the slot of that node is vacated.  Parentheses neither
merge into what is around them nor absorb what is inside.

A slot can be vacated twice without anything being noticed, so the same steps
are also taken with a closer look: each node is looked up again whenever its
handle is used, and only live nodes are given up.  Then the use of a handle
that has no node any more is a fault wherever it happens.

* `Edit.operandsWithin` — what a node contributes to a chain above it;
* `Edit.flatten` — merges all chains of a subtree;
* `Edit.discard` — vacates the slot of a live node;
* `Edit.flattenChecked` — flattens with every handle looked at.
-/
import FormulaEditor.Tree.Edit

namespace FormulaEditor

namespace Edit

/-- What a node contributes to a chain of an operator: its operands, to any
depth, if it is a node of that operator, and else itself.  A node that gives up
its operands leaves its slot vacant. -/
def operandsWithin (operator : Operator) : Nat → Handle → Edit (List Handle)
  | 0, _ => throw .endless
  | bound + 1, id => do
    let here ← node id
    if here.operator? = some operator then
      let parts ← here.children.mapM (operandsWithin operator bound)
      vacate id
      return parts.flatten
    else
      return [id]

/-- The children of a compound node after merging. -/
def mergedWithin (operator : Operator) (bound : Nat) (children : List Handle) :
    Edit (List Handle) :=
  if operator.isAssociative then
    return (← children.mapM (operandsWithin operator bound)).flatten
  else
    return children

/-- `flatten` within a bounded depth. -/
def flattenWithin : Nat → Handle → Edit Unit
  | 0, _ => throw .endless
  | bound + 1, id => do
    match (← node id).content with
    | .literal _ => return
    | .compound operator children =>
      let merged ← mergedWithin operator bound children
      if merged ≠ children then
        replaceChildren id merged
      merged.forM (flattenWithin bound)

/-- Merges nested uses of an associative operator everywhere in a subtree.  A
node gets new children only if there is something to merge, and operands are
flattened after the node that they end up under. -/
def flatten (id : Handle) : Edit Unit := do
  flattenWithin (← get).walkBound id

/-! ### A look at every handle -/

/-- Vacates the slot of a live node. -/
def discard (id : Handle) : Edit Unit := do
  let _ ← node id
  vacate id

/-- `operandsWithin`, with a look at each node that is given up. -/
def operandsCheckedWithin (operator : Operator) : Nat → Handle → Edit (List Handle)
  | 0, _ => throw .endless
  | bound + 1, id => do
    if (← node id).operator? = some operator then
      let parts ← (← node id).children.mapM (operandsCheckedWithin operator bound)
      discard id
      return parts.flatten
    else
      return [id]

/-- The children of a compound node after merging, with a look at each node
that is given up. -/
def mergedCheckedWithin (operator : Operator) (bound : Nat) (children : List Handle) :
    Edit (List Handle) :=
  if operator.isAssociative then
    return (← children.mapM (operandsCheckedWithin operator bound)).flatten
  else
    return children

/-- `flattenWithin`, with another look at the node after each step. -/
def flattenCheckedWithin : Nat → Handle → Edit Unit
  | 0, _ => throw .endless
  | bound + 1, id => do
    match (← node id).operator? with
    | none => return
    | some operator =>
      let merged ← mergedCheckedWithin operator bound (← node id).children
      if merged ≠ (← node id).children then
        replaceChildren id merged
      (← node id).children.forM (flattenCheckedWithin bound)

/-- Merges nested uses of an associative operator everywhere in a subtree, as
`flatten` does, with a look at every handle. -/
def flattenChecked (id : Handle) : Edit Unit := do
  flattenCheckedWithin (← get).walkBound id

end Edit

end FormulaEditor
