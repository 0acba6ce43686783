/-
Operators and shapes: what a formula looks like, without the identity of its nodes.

A formula adds and multiplies, and a pair of parentheses that was written down
is kept as an operator of its own, with the formula inside it as its one
operand.  Addition and multiplication are associative, so nested uses of one of
them can be merged; parentheses never merge with anything.

A shape is a literal text or an operator over an ordered list of shapes.  It is
the value that two trees share when they hold the same formula, whatever
handles and tags their nodes carry, and it is also a recipe from which a tree
can be planted node by node.  Nothing is asked of the number of parts or of the
text of a literal: trees that are built by hand may hold any.

Given what its literals stand for and how two values are added and multiplied,
a formula denotes a value: a sum or product combines its operands left to
right, and parentheses hand on what is inside.  An operator without operands
and parentheses around anything but one operand have no value.

* `Operator.symbol` — the name of an operator in a tree;
* `Operator.ofChar?` — the binary operator that a character stands for;
* `Shape` — a formula as a plain ordered tree;
* `Shape.value` — the value of a formula under an interpretation.
-/

namespace FormulaEditor

/-- What a compound node does with its operands. -/
inductive Operator where
  /-- The sum of all operands. -/
  | add
  /-- The product of all operands. -/
  | mul
  /-- Parentheses around one operand. -/
  | group
  deriving DecidableEq

namespace Operator

/-- The name of an operator: its character, or both parentheses. -/
def symbol : Operator → String
  | add => "+"
  | mul => "*"
  | group => "()"

instance : ToString Operator := ⟨symbol⟩

/-- The binary operator written with a character.  Parentheses enclose their
operand instead of standing between two, so no character gives `group`. -/
def ofChar? : Char → Option Operator
  | '+' => some add
  | '*' => some mul
  | _ => none

/-- Whether nested uses of the operator can be merged into one node. -/
def isAssociative : Operator → Bool
  | add | mul => true
  | group => false

end Operator

/-- A formula as a plain ordered tree. -/
inductive Shape where
  /-- A variable or a number, by its text. -/
  | literal (text : String)
  /-- An operator over its operands, left to right. -/
  | compound (operator : Operator) (parts : List Shape)

/-! ### Values -/

/-- What literals and operators stand for. -/
structure Interpretation (α : Type) where
  literal : String → α
  add : α → α → α
  mul : α → α → α

namespace Interpretation

variable {α : Type}

/-- Operands combined left to right.  There is nothing to start from when there
are none. -/
def combine (f : α → α → α) : List α → Option α
  | [] => none
  | first :: rest => some (rest.foldl f first)

/-- What an operator makes of the values of its operands. -/
def apply (m : Interpretation α) : Operator → List α → Option α
  | .add, operands => combine m.add operands
  | .mul, operands => combine m.mul operands
  | .group, [inner] => some inner
  | .group, _ => none

end Interpretation

namespace Shape

variable {α : Type}

mutual

/-- The value of a formula, if all of it has one. -/
def value (m : Interpretation α) : Shape → Option α
  | literal text => some (m.literal text)
  | compound operator parts => do m.apply operator (← values m parts)

/-- The values of formulas in a row, if all of them have one. -/
def values (m : Interpretation α) : List Shape → Option (List α)
  | [] => some []
  | part :: rest => return (← part.value m) :: (← values m rest)

end

end Shape

end FormulaEditor
