/-
Reading a formula from bytes, with a check before every step.

A text is stored as bytes, and a character may take up several of them.  A reader that works on
the bytes can go wrong in ways that one that works on characters cannot: it may look at a byte that
is not there, or take a part of the text that starts or ends inside a character.  It may also use a
node that has been given up.  Here the reading of `Text.readSpan` is done on bytes, and each of
these is a fault that ends it.

* `Span.IsAligned` — spans of bytes that are parts of a text;
* `Text.Fault` — what can go wrong;
* `Text.Checked.verifyWithin` — whether a span of bytes holds a formula;
* `Text.Checked.readWithin` — reads the formula in a span of bytes;
* `parseChecked` — reads a whole text into a tree.

Design notes: a byte is written as the character of the same number, so what is said about the
characters of a text can be said of its bytes.  A text that is no formula is refused, which is no
fault.
-/
import FormulaEditor.Text.Reading

namespace FormulaEditor

/-- The span of bytes is a part of the text: it reaches from one place between characters to
another one, which is not further to the left. -/
structure Span.IsAligned (text : String) (span : Span) : Prop where
  start_le : span.start ≤ span.stop
  start : String.Pos.Raw.IsValid text ⟨span.start⟩
  stop : String.Pos.Raw.IsValid text ⟨span.stop⟩

instance (text : String) (span : Span) : Decidable (span.IsAligned text) :=
  decidable_of_iff (span.start ≤ span.stop ∧ String.Pos.Raw.IsValid text ⟨span.start⟩ ∧
    String.Pos.Raw.IsValid text ⟨span.stop⟩)
    ⟨fun ⟨hle, hstart, hstop⟩ => ⟨hle, hstart, hstop⟩, fun h => ⟨h.start_le, h.start, h.stop⟩⟩

namespace Text

/-- The bytes of a text, each as the character of the same number. -/
def bytes (text : String) : Array Char := text.toByteArray.data.map Char.ofUInt8

/-- The part of a text that a span of bytes covers. -/
def slice {text : String} {span : Span} (h : span.IsAligned text) : String :=
  text.extract (text.pos ⟨span.start⟩ h.start) (text.pos ⟨span.stop⟩ h.stop)

/-- A mistake of the reader. -/
inductive Fault where
  /-- A span of bytes is no part of the text. -/
  | misplaced (span : Span)
  /-- There is no byte at the index, in a part of the given length. -/
  | outOfBounds (length index : Nat)
  /-- There is nothing before the first byte. -/
  | beforeFirst
  /-- The tree could not be put together. -/
  | broken (cause : EditError)
  /-- The reader did not come to an end. -/
  | endless

/-- Why a checked reading stopped. -/
inductive Halt where
  /-- The text is not a formula. -/
  | refused
  | fault (cause : Fault)

/-- A computation that reads a text into a tree and is watched. -/
abbrev Checked := EStateM Halt Progress

namespace Checked

variable {α : Type}

/-- Changes the tree. -/
def edit (change : Edit α) : Checked α := editWith (.fault <| .broken ·) change

/-- The part of the text in a span of bytes. -/
def cutOut (text : String) (span : Span) : Checked String :=
  if h : span.IsAligned text then return slice h else throw (.fault (.misplaced span))

/-! ### Bytes -/

/-- The byte at an index. -/
def byteAt (s : List Char) (index : Nat) : Checked Char :=
  match s[index]? with
  | some c => return c
  | none => throw (.fault (.outOfBounds s.length index))

/-- The byte before an index. -/
def byteBefore (s : List Char) : Nat → Checked Char
  | 0 => throw (.fault .beforeFirst)
  | index + 1 => byteAt s index

/-- The bytes up to an index. -/
def upTo (s : List Char) (index : Nat) : Checked (List Char) :=
  if index ≤ s.length then return s.take index
  else throw (.fault (.outOfBounds s.length index))

/-- The bytes from an index on. -/
def onFrom (s : List Char) (index : Nat) : Checked (List Char) :=
  if index ≤ s.length then return s.drop index
  else throw (.fault (.outOfBounds s.length index))

/-- Whether this is a numeral, which is told by its first point. -/
def isNumeral (s : List Char) : Checked Bool :=
  match s.idxOf? '.' with
  | some point => do
    let whole ← upTo s point
    let fraction ← onFrom s (point + 1)
    return isDigits whole && isDigits fraction
  | none => return isDigits s

/-- Whether this is a single operand. -/
def isLiteral (s : List Char) : Checked Bool :=
  (pure (s.length = 1) <&&> return (← byteAt s 0).isLower) <||> isNumeral s

/-- Whether this starts and ends with a parenthesis, matched or not. -/
def isWrapped (s : List Char) : Checked Bool :=
  pure (2 ≤ s.length) <&&> (return (← byteAt s 0) = '(') <&&>
    return (← byteBefore s s.length) = ')'

/-- Whether there is an operator at an index, and none on either side. -/
def isCut (s : List Char) (index : Nat) : Checked Bool :=
  (return isOperator (← byteAt s index)) <&&> (return !isOperator (← byteBefore s index)) <&&>
    return !isOperator (← byteAt s (index + 1))

/-- Whether the last byte is the parenthesis that closes the first one. -/
def isGroup (s : List Char) : Checked Bool :=
  (return (← byteAt s 0) = '(') <&&>
    return (firstUnnested ')' (s.drop 1)).map (· + 1) = some (s.length - 1)

/-! ### Spans of bytes -/

/-- Whether a span of bytes holds a formula, within a bounded depth. -/
def verifyWithin (text : String) : Nat → Span → Checked Bool
  | 0, _ => throw (.fault .endless)
  | bound + 1, span => do
    let s := (bytes (← cutOut text span)).toList
    match (← get).verdicts[span]? with
    | some known => return known
    | none =>
      let verdict ← isLiteral s
        <||> (isWrapped s <&&> verifyWithin text bound span.inside)
        <||> (List.range' 1 (s.length - 1 - 1)).anyM fun i =>
          isCut s i <&&> verifyWithin text bound (span.before i) <&&>
            verifyWithin text bound (span.after i)
      modify fun progress => { progress with verdicts := progress.verdicts.insert span verdict }
      return verdict

/-- Whether a span of bytes holds a formula.  Parts of a span are shorter. -/
def verify (text : String) (span : Span) : Checked Bool :=
  verifyWithin text (text.utf8ByteSize + 1) span

/-- Reads the formula in a span of bytes into new nodes, within a bounded depth, and gives the
topmost one. -/
def readWithin (text : String) : Nat → Span → Checked Handle
  | 0, _ => throw (.fault .endless)
  | bound + 1, span => do
    let part ← cutOut text span
    let s := (bytes part).toList
    if !(← verify text span) then
      throw .refused
    else if ← isLiteral s then
      edit (Edit.addLiteral part)
    else if ← isGroup s then
      let top ← edit (Edit.addCompound .group)
      let inner ← readWithin text bound span.inside
      edit (Edit.attach top inner)
      return top
    else
      match splitPoint s with
      | none => throw .refused
      | some (offset, operator) =>
        let top ← edit (Edit.addCompound operator)
        let left ← readWithin text bound (span.before offset)
        let right ← readWithin text bound (span.after offset)
        edit (Edit.attach top left)
        edit (Edit.attach top right)
        edit (Edit.flattenChecked top)
        return top

/-- Reads all of a text, and makes the topmost node the root. -/
def readText (text : String) : Checked Unit := do
  let top ← readWithin text (text.utf8ByteSize + 1) ⟨0, text.utf8ByteSize⟩
  edit do
    Edit.makeRoot top
    Edit.flattenChecked top

end Checked

end Text

/-- Reads the bytes of a text into a flattened tree, with a check before every step. -/
def parseChecked (text : String) : Except Text.Halt Tree :=
  Text.treeOf ∅ (Text.Checked.readText (String.ofList (withoutSpaces text)))

end FormulaEditor
