/-
A tree laid out for drawing.

A formula is drawn as a row of glyphs, left to right: literals, operators
between operands, parentheses, and a pair of marks around the node that has the
focus.  A renderer draws one glyph after the other; the only one here appends
them to a line of text, which reads the way a formula is typed, with the focus
in square brackets.

* `Tree.layout` — the glyphs of a subtree;
* `Line.draw`, `Line.drawTree` — one glyph, or a whole tree, as text.
-/
import FormulaEditor.Tree.Fold

namespace FormulaEditor

/-- A piece of a drawn formula. -/
inductive Glyph where
  /-- A variable or a number. -/
  | literal (text : String)
  /-- An operator between two operands. -/
  | sign (operator : Operator)
  | opening
  | closing
  /-- Stands before what has the focus. -/
  | focusOpening
  /-- Stands after what has the focus. -/
  | focusClosing
  deriving DecidableEq

namespace Tree

/-- The glyphs of one node, given those of its children. -/
def glyphsOver (node : Node) (parts : List (List Glyph)) : List Glyph :=
  match node.content with
  | .literal text => [.literal text]
  | .compound .group _ => .opening :: parts.flatten ++ [.closing]
  | .compound operator _ => [Glyph.sign operator].intercalate parts

/-- Glyphs between the marks of the focus. -/
def focused (glyphs : List Glyph) : List Glyph :=
  .focusOpening :: glyphs ++ [.focusClosing]

/-- The glyphs of a subtree, with marks around the node in focus if it is
there. -/
def layout (t : Tree) (id : Handle) (focus : Option Handle) : Except EditError (List Glyph) :=
  t.fold (fun here node parts =>
    let glyphs := glyphsOver node parts
    if focus = some here then focused glyphs else glyphs) id

end Tree

/-- The text that a glyph is drawn as. -/
def Glyph.text : Glyph → String
  | literal text => text
  | sign operator => operator.symbol
  | opening => "("
  | closing => ")"
  | focusOpening => "["
  | focusClosing => "]"

/-- A drawing surface that is one line of text. -/
structure Line where
  text : String

namespace Line

/-- A surface without anything on it. -/
def blank : Line := ⟨""⟩

/-- Draws a glyph right of what is there. -/
def draw (line : Line) (glyph : Glyph) : Line := ⟨line.text ++ glyph.text⟩

/-- Draws glyphs one after the other. -/
def drawGlyphs (line : Line) (glyphs : List Glyph) : Line := glyphs.foldl draw line

/-- A whole tree on a surface of its own. -/
def drawTree (t : Tree) (focus : Option Handle) : Except EditError Line := do
  return blank.drawGlyphs (← t.layout t.root focus)

end Line

end FormulaEditor
