/-
Decimals, and the numbers in a tree.

A literal that starts with a digit is a numeral.  Its value is a decimal: a
whole number, the mantissa, with a count of digits after the point, the scale.
How digits are read as a decimal is no matter of trees, so the reader is a
parameter of the question.  Variables and compound nodes have no value, and
the reader is not asked.

* `Content.number?`, `Tree.number?` — the value of a node, by some reader;
* `Decimal.ofText?` — a reader.

Design notes: the mantissa of a decimal stays below 2⁹⁶ and the scale at most
28.  A text with more digits than fit is rounded once by `Decimal.ofText?`,
half up, on the first digit that does not fit, unless that digit stands before
the point: then the number is too large and has no decimal.
-/
import FormulaEditor.Tree.Basic

namespace FormulaEditor

/-- The number `mantissa / 10 ^ scale`. -/
structure Decimal where
  mantissa : Nat
  scale : Nat
  deriving DecidableEq

/-! ### The numbers in a tree -/

/-- Whether a text starts with a digit. -/
def Text.startsWithDigit (text : String) : Bool := text.toList.head?.any Char.isDigit

/-- The value of a numeral, by the given reader. -/
def Content.number? (read : String → Option Decimal) : Content → Option Decimal
  | .literal text => if Text.startsWithDigit text then read text else none
  | .compound _ _ => none

/-- The value of a node, if it is a numeral and the given reader finds one. -/
def Tree.number? (t : Tree) (read : String → Option Decimal) (id : Handle) :
    Except EditError (Option Decimal) := do
  return (← t.node id).content.number? read

/-! ### A reader -/

namespace Decimal

/-- The mantissa stays below this, the 96th power of two. -/
def mantissaBound : Nat := 79228162514264337593543950336

/-- The greatest number of digits after the point. -/
def maxScale : Nat := 28

/-- The value of a decimal digit. -/
def digitValue (c : Char) : Nat := c.toNat - '0'.toNat

/-- Whether a mantissa and a scale are within their bounds. -/
def fits (mantissa scale : Nat) : Bool := mantissa < mantissaBound ∧ scale ≤ maxScale

/-- Rounds half up on the first digit that does not fit.  If that carries the
mantissa to its bound, one more digit has to go. -/
def roundOn (digit : Nat) (d : Decimal) : Option Decimal :=
  let rounded := if digit ≥ 5 then d.mantissa + 1 else d.mantissa
  if rounded < mantissaBound then
    some ⟨rounded, d.scale⟩
  else if d.scale = 0 then
    none
  else
    some ⟨(rounded + 4) / 10, d.scale - 1⟩

/-- Whether a character may follow the point: a digit, or an underscore, which
is passed over. -/
def isFractionChar (c : Char) : Bool := c.isDigit || c = '_'

/-- Reads the digits after the point on to what has been read so far. -/
def readFraction (d : Decimal) : List Char → Option Decimal
  | [] => some d
  | c :: rest =>
    if c = '_' then
      readFraction d rest
    else if c.isDigit then
      let next := 10 * d.mantissa + digitValue c
      if fits next (d.scale + 1) then
        readFraction ⟨next, d.scale + 1⟩ rest
      else if rest.all isFractionChar then
        roundOn (digitValue c) d
      else
        none
    else
      none

/-- Reads the digits before the point on to the mantissa so far, and then what
follows the point. -/
def readWhole (mantissa : Nat) : List Char → Option Decimal
  | [] => some ⟨mantissa, 0⟩
  | c :: rest =>
    if c = '.' then
      readFraction ⟨mantissa, 0⟩ rest
    else if c = '_' then
      readWhole mantissa rest
    else if c.isDigit then
      let next := 10 * mantissa + digitValue c
      if fits next 0 then readWhole next rest else none
    else
      none

/-- The decimal that a text starting with a digit stands for; it is asked of no
others.  Underscores are passed over, and a point at the end may stay without
digits. -/
def ofText? (text : String) : Option Decimal := readWhole 0 text.toList

end Decimal

end FormulaEditor
