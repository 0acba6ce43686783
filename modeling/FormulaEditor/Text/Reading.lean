/-
Reading a formula from a text.

Spaces are removed first, and nothing else: any other character that the
grammar has no place for makes the text unreadable.  Whether a part of the text
is a formula and where it is cut are separate questions.  The first is answered
by `Text.acceptsSpan`, which tries every cut; the second by `Text.splitPoint`,
which names one.  A compound is made before the formulas on its left and right,
these are attached once both are complete, and chains of one operator are
flattened as soon as they arise.

* `Text.readSpan` — reads the formula in a span of the text;
* `parse` — reads a whole text into a tree.

What is done in the end to a compound of two sides and to the whole tree, and
what is known about the text at first, are parameters of the reader
(`Text.readSpanWith`, `parseFrom`).  Parsing flattens in the end, and nothing is
known at first.

Design notes: a text that is no formula and a tree that could not be put
together are told apart (`ParseError`), so a fault of the reader would show.
-/
import FormulaEditor.Text.Acceptance
import FormulaEditor.Text.Nesting
import FormulaEditor.Tree.Flatten

namespace FormulaEditor

/-- Why a text gave no tree. -/
inductive ParseError where
  /-- The text, its spaces removed, is not a formula. -/
  | notFormula (text : String)
  /-- The tree could not be put together. -/
  | broken (cause : EditError)
  deriving DecidableEq

namespace ParseError

/-- The wording of each cause. -/
def message : ParseError → String
  | notFormula text => "cannot parse expression: " ++ text
  | broken cause => cause.message

end ParseError

namespace Text

/-- The tree made so far, and the answers known about the text. -/
structure Progress where
  tree : Tree
  verdicts : Verdicts

/-- Changes the tree.  What can go wrong is worded by the given function. -/
def editWith {ε α : Type} (broken : EditError → ε) (change : Edit α) : EStateM ε Progress α :=
  fun ⟨tree, verdicts⟩ =>
    match change.run tree with
    | .ok a tree => .ok a ⟨tree, verdicts⟩
    | .error cause tree => .error (broken cause) ⟨tree, verdicts⟩

/-- The tree that a reading makes out of nothing, with what is known about the
text at first. -/
def treeOf {ε : Type} (known : Verdicts) (reading : EStateM ε Progress Unit) : Except ε Tree :=
  match reading.run ⟨.empty 0, known⟩ with
  | .ok _ progress => .ok progress.tree
  | .error cause _ => .error cause

/-- A computation that reads a text into a tree. -/
abbrev Reading := EStateM ParseError Progress

namespace Reading

variable {α : Type}

/-- Whether a span holds a formula. -/
def check (source : Array Char) (span : Span) : Reading Bool := fun ⟨tree, verdicts⟩ =>
  let (verdict, verdicts) := (acceptsSpan source span).run verdicts
  .ok verdict ⟨tree, verdicts⟩

/-- Changes the tree. -/
def edit (change : Edit α) : Reading α := editWith .broken change

/-- Gives the text up. -/
def refuse (source : Array Char) : Reading α :=
  throw (.notFormula (String.ofList source.toList))

end Reading

open Reading

/-- Reads the formula in a span into new nodes, and gives the topmost one.  The
last step for a compound of two sides is given. -/
def readSpanWith (finish : Handle → Edit Unit) (source : Array Char) (span : Span) :
    Reading Handle := do
  let s := span.chars source
  if !(← check source span) then
    refuse source
  else if isLiteral s then
    edit (Edit.addLiteral (String.ofList s))
  else if _hg : isGroup s = true then
    let top ← edit (Edit.addCompound .group)
    let inner ← readSpanWith finish source span.inside
    edit (Edit.attach top inner)
    return top
  else
    match _hs : splitPoint s with
    | none => refuse source
    | some (offset, operator) =>
      let top ← edit (Edit.addCompound operator)
      let left ← readSpanWith finish source (span.before offset)
      let right ← readSpanWith finish source (span.after offset)
      edit (Edit.attach top left)
      edit (Edit.attach top right)
      edit (finish top)
      return top
termination_by span.length
decreasing_by
  · have := two_le_of_isGroup _hg
    have := span.length_chars_le source
    simp only [s, Span.inside, Span.length] at *
    omega
  · have := splitPoint_lt _hs
    have := span.length_chars_le source
    simp only [s, Span.before, Span.length] at *
    omega
  · have := splitPoint_lt _hs
    have := span.length_chars_le source
    simp only [s, Span.after, Span.length] at *
    omega

/-- Reads the formula in a span, and flattens each compound as it is complete. -/
def readSpan (source : Array Char) (span : Span) : Reading Handle :=
  readSpanWith Edit.flatten source span

/-- Reads all of a text, and makes the topmost node the root.  The last step for
the whole tree is the one for each compound of two sides. -/
def readText (finish : Handle → Edit Unit) (source : Array Char) : Reading Unit := do
  let top ← readSpanWith finish source (.whole source)
  edit do
    Edit.makeRoot top
    finish top

end Text

/-- The text without its spaces. -/
def withoutSpaces (text : String) : List Char := text.toList.filter (· ≠ ' ')

/-- Reads a text into a tree, with the given last step, and with what is known
about the text at first. -/
def parseFrom (finish : Handle → Edit Unit) (known : Text.Verdicts) (text : String) :
    Except ParseError Tree :=
  Text.treeOf known (Text.readText finish (withoutSpaces text).toArray)

/-- Reads a text into a flattened tree. -/
def parse (text : String) : Except ParseError Tree := parseFrom Edit.flatten ∅ text

end FormulaEditor
