/-
Formula trees as stores of nodes.

A tree keeps its nodes in numbered slots, and nodes refer to each other by
handles, which are slot numbers.  A node that is merged away leaves its slot
vacant for good, so a handle never comes to mean another node.  Every node also
carries a tag, which copies of the node share: handles tell nodes of one tree
apart, tags tell which nodes of two trees correspond.

A store is a forest when child lists and parent handles say the same, no node
is listed twice, and every way up comes to an end.  A forest may hold several
trees and vacant slots.  It is a tree when its root is one of the tops.

* `Tree.get?`, `Tree.node` — the live node behind a handle, if there is one;
* `Tree.place?` — where a node stands among the children of its parent;
* `Tree.ancestors`, `Tree.isAbove` — a node, its parent, and so on up to the
  top, and whether another node is met on the way;
* `Tree.IsForest` — links agree, and lead upwards to a top;
* `Tree.IsTree` — a forest with a live root that has no parent.

Design notes: slots hold `Option Node`, so a vacated slot and a slot that was
never given out read alike.  A walk along handles takes a bound on its length,
one more than the number of slots; a longer walk would have to meet some node
twice, and is reported as `EditError.endless`.
-/
import FormulaEditor.EditError
import FormulaEditor.Shape

namespace FormulaEditor

/-- A handle: the number of the slot that a node lives in. -/
structure Handle where
  index : Nat
  deriving DecidableEq

/-- The identity that a node shares with its copies. -/
structure Tag where
  value : Nat
  deriving DecidableEq

/-- What a node holds: the text of a literal, or an operator and the handles of
its operands in order. -/
inductive Content where
  | literal (text : String)
  | compound (operator : Operator) (children : List Handle)
  deriving DecidableEq

namespace Content

/-- The text of a literal, or the symbol of an operator. -/
def name : Content → String
  | literal text => text
  | compound operator _ => operator.symbol

/-- The operands in order.  A literal has none. -/
def children : Content → List Handle
  | literal _ => []
  | compound _ children => children

/-- The operator of a compound. -/
def operator? : Content → Option Operator
  | literal _ => none
  | compound operator _ => some operator

/-- Whether this is a leaf. -/
def isLiteral : Content → Bool
  | literal _ => true
  | compound _ _ => false

/-- The same literal, or the same operator over nothing. -/
def childless : Content → Content
  | literal text => literal text
  | compound operator _ => compound operator []

end Content

/-- A node of a tree. -/
structure Node where
  content : Content
  /-- The node that lists this one among its children. -/
  parent : Option Handle
  tag : Tag
  deriving DecidableEq

namespace Node

/-- The text of a literal, or the symbol of an operator. -/
def name (node : Node) : String := node.content.name

/-- The children of a node in order. -/
def children (node : Node) : List Handle := node.content.children

/-- The operator of a compound node. -/
def operator? (node : Node) : Option Operator := node.content.operator?

/-- Whether the node is a leaf. -/
def isLiteral (node : Node) : Bool := node.content.isLiteral

end Node

/-- A store of nodes with a distinguished root, and the next tag to give out. -/
structure Tree where
  slots : Array (Option Node)
  root : Handle
  nextTag : Nat
  deriving DecidableEq

namespace Tree

/-- A tree without nodes.  Its root is the handle that the first node will
get. -/
def empty (nextTag : Nat) : Tree := ⟨#[], ⟨0⟩, nextTag⟩

/-- The live node behind a handle. -/
def get? (t : Tree) (id : Handle) : Option Node := t.slots[id.index]?.getD none

/-- The live node behind a handle that is expected to have one. -/
def node (t : Tree) (id : Handle) : Except EditError Node :=
  match t.get? id with
  | some node => .ok node
  | none => .error .deadHandle

/-- The live nodes with their handles, in the order of their slots. -/
def entries (t : Tree) : List (Handle × Node) :=
  t.slots.toList.zipIdx.filterMap fun (slot, index) => slot.map (⟨index⟩, ·)

/-- The number of live nodes. -/
def size (t : Tree) : Nat := t.slots.countP Option.isSome

/-- Whether no node is live. -/
def isEmpty (t : Tree) : Bool := t.size = 0

/-- More steps than any walk along handles can take without meeting some node
twice. -/
def walkBound (t : Tree) : Nat := t.slots.size + 1

/-! ### Upwards -/

/-- The parent of a node and the index of the node among the parent's
children.  There is none for a node without a parent, nor for one that its
parent does not list. -/
def place? (t : Tree) (id : Handle) : Except EditError (Option (Handle × Nat)) := do
  match (← t.node id).parent with
  | none => return none
  | some parent => return ((← t.node parent).children.idxOf? id).map (parent, ·)

/-- The index of a node among the children of its parent. -/
def position? (t : Tree) (id : Handle) : Except EditError (Option Nat) := do
  return (← t.place? id).map (·.2)

/-- `ancestors` within a bounded number of steps. -/
def ancestorsWithin (t : Tree) : Nat → Handle → Except EditError (List Handle)
  | 0, _ => .error .endless
  | bound + 1, id => do
    match (← t.node id).parent with
    | none => return [id]
    | some parent => return id :: (← t.ancestorsWithin bound parent)

/-- The node itself, its parent, the parent of that, and so on to the top. -/
def ancestors (t : Tree) (id : Handle) : Except EditError (List Handle) :=
  t.ancestorsWithin t.walkBound id

/-- `isAbove`, looking at a bounded number of nodes.  To look at one more node
is to follow one more parent handle. -/
def isAboveWithin (t : Tree) (ancestor : Handle) : Nat → Handle → Except EditError Bool
  | 0, _ => .error .endless
  | bound + 1, id => do
    if id = ancestor then
      return true
    else
      match (← t.node id).parent with
      | none => return false
      | some parent => t.isAboveWithin ancestor bound parent

/-- Whether the first handle is the second one or stands above it.  The walk
upwards goes no further than to the answer. -/
def isAbove (t : Tree) (ancestor id : Handle) : Except EditError Bool :=
  t.isAboveWithin ancestor t.walkBound id

/-! ### Links that agree -/

/-- A node lists another one among its children. -/
def Lists (t : Tree) (parent child : Handle) : Prop :=
  ∃ node, t.get? parent = some node ∧ child ∈ node.children

/-- A node names another one as its parent. -/
def HasParent (t : Tree) (child parent : Handle) : Prop :=
  ∃ node, t.get? child = some node ∧ node.parent = some parent

/-- The way up from a node ends at a live node without a parent. -/
inductive Ascends (t : Tree) : Handle → Prop
  | top {id : Handle} {node : Node} : t.get? id = some node → node.parent = none → Ascends t id
  | step {id parent : Handle} : t.HasParent id parent → Ascends t parent → Ascends t id

/-- Child lists and parent handles agree, nothing is listed twice, and there
are no rings. -/
structure IsForest (t : Tree) : Prop where
  lists_iff : ∀ {parent child : Handle}, t.Lists parent child ↔ t.HasParent child parent
  nodup : ∀ {id : Handle} {node : Node}, t.get? id = some node → node.children.Nodup
  ascends : ∀ {id : Handle} {node : Node}, t.get? id = some node → t.Ascends id

/-- A forest with a live root at the top. -/
structure IsTree (t : Tree) : Prop extends t.IsForest where
  root_top : ∃ node, t.get? t.root = some node ∧ node.parent = none

end Tree

end FormulaEditor
