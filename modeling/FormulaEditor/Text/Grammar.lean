/-
The grammar of formulas, with the shape that each text stands for.

    formula  =  sum
    sum      =  product { '+' product }
    product  =  factor { '*' factor }
    factor   =  '(' formula ')'  |  literal
    literal  =  digits  |  digits '.' digits  |  small letter

A sum of several products is one node over all of them, and a sum of one is
that product itself; likewise for products.  So the grammar gives a text its
shape as well: `IsFormula s shape` says that `s` is a formula of that shape.

Design notes: the relations speak of texts and shapes alone, without cuts,
spans or trees, and are what the parser is to be compared with.
-/
import FormulaEditor.Shape

namespace FormulaEditor

namespace Shape

/-- Operands under one operator; a single operand needs no operator. -/
def chain (operator : Operator) : List Shape → Shape
  | [part] => part
  | parts => compound operator parts

end Shape

namespace Grammar

/-- One or more digits. -/
def IsDigits (s : List Char) : Prop := s ≠ [] ∧ ∀ c ∈ s, '0' ≤ c ∧ c ≤ '9'

/-- The texts of single operands. -/
inductive IsLiteral : List Char → Prop
  | digits {whole : List Char} : IsDigits whole → IsLiteral whole
  | point {whole fraction : List Char} :
      IsDigits whole → IsDigits fraction → IsLiteral (whole ++ '.' :: fraction)
  | letter {c : Char} : 'a' ≤ c → c ≤ 'z' → IsLiteral [c]

mutual

/-- A factor: a literal, or parentheses around a sum. -/
inductive IsFactor : List Char → Shape → Prop
  | literal {s : List Char} : IsLiteral s → IsFactor s (.literal (String.ofList s))
  | group {s : List Char} {terms : List Shape} : IsSum s terms →
      IsFactor ('(' :: s ++ [')']) (.compound .group [.chain .add terms])

/-- A product, as the shapes of its factors. -/
inductive IsProduct : List Char → List Shape → Prop
  | one {s : List Char} {factor : Shape} : IsFactor s factor → IsProduct s [factor]
  | more {s t : List Char} {factor : Shape} {factors : List Shape} :
      IsFactor s factor → IsProduct t factors → IsProduct (s ++ '*' :: t) (factor :: factors)

/-- A sum, as the shapes of its terms. -/
inductive IsSum : List Char → List Shape → Prop
  | one {s : List Char} {factors : List Shape} : IsProduct s factors →
      IsSum s [.chain .mul factors]
  | more {s t : List Char} {factors terms : List Shape} :
      IsProduct s factors → IsSum t terms → IsSum (s ++ '+' :: t) (.chain .mul factors :: terms)

end

/-- A text that is a formula, and its shape. -/
def IsFormula (s : List Char) (shape : Shape) : Prop :=
  ∃ terms, IsSum s terms ∧ shape = .chain .add terms

end Grammar

end FormulaEditor
