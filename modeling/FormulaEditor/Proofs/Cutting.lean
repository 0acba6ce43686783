/-
How a text is cut.

A text that is neither a literal nor in parentheses is cut in two at its split point, and
both sides are cut in turn.  The cuts say which nodes there are before any of them are
merged, and since slots and tags are given out from left to right, also where these nodes
go:

* `Text.Cut`, `Text.CutsTo` — the cuts of a text;
* `Text.Cut.branch` — the branch with a node for each part of the text;
* `Text.CutsTo.readsAs`, `Text.ReadsAs.exists_cutsTo` — texts that can be cut are those that
  can be read, and `Text.Cut.flat_shape_branch` — as what.
-/
import FormulaEditor.Proofs.Branch
import FormulaEditor.Proofs.Splitting

namespace FormulaEditor

namespace Text

open Grammar

/-- How a text is cut into literals. -/
inductive Cut where
  | literal (text : String)
  | group (inner : Cut)
  | split (operator : Operator) (left right : Cut)

namespace Cut

/-- The number of nodes that are made. -/
def size : Cut → Nat
  | literal _ => 1
  | group inner => 1 + inner.size
  | split _ left right => 1 + left.size + right.size

/-- The nodes for the parts of the text, each before those below it, if so many slots and so
many tags have been given out already. -/
def branch (slots tags : Nat) : Cut → Branch
  | literal text => .literal ⟨slots⟩ ⟨tags⟩ text
  | group inner => .compound ⟨slots⟩ ⟨tags⟩ .group [inner.branch (slots + 1) (tags + 1)]
  | split operator left right =>
    .compound ⟨slots⟩ ⟨tags⟩ operator [left.branch (slots + 1) (tags + 1),
      right.branch (slots + 1 + left.size) (tags + 1 + left.size)]

/-- The shape that is read off the cuts, with the compounds merged as soon as they arise. -/
def shape : Cut → Shape
  | literal text => .literal text
  | group inner => .compound .group [inner.shape]
  | split operator left right => (Shape.compound operator [left.shape, right.shape]).flat

@[simp] theorem top_branch (slots tags : Nat) (cut : Cut) :
    (cut.branch slots tags).top = ⟨slots⟩ := by
  cases cut <;> rfl

/-- Merging on the way and merging in the end give the same shape. -/
theorem flat_shape_branch (slots tags : Nat) (cut : Cut) :
    (cut.branch slots tags).shape.flat = cut.shape := by
  induction cut generalizing slots tags with
  | literal text => rw [branch, Branch.shape, Shape.flat_literal, shape]
  | group inner ih =>
    rw [branch, Branch.shape, Shape.flat_group, shape, List.map_singleton, List.map_singleton, ih]
  | split operator left right ihl ihr =>
    rw [shape, ← ihl (slots + 1) (tags + 1),
      ← ihr (slots + 1 + left.size) (tags + 1 + left.size), branch, Branch.shape]
    simp only [Shape.flat, List.map_cons, List.map_nil, (Shape.isFlat_flat _).flat]

end Cut

/-- A text without spaces is cut in this way. -/
inductive CutsTo : List Char → Cut → Prop
  | literal {s : List Char} : isLiteral s = true → CutsTo s (.literal (String.ofList s))
  | group {s : List Char} {inner : Cut} : isLiteral s = false → isGroup s = true →
      CutsTo s.tail.dropLast inner → CutsTo s (.group inner)
  | split {s : List Char} {i : Nat} {operator : Operator} {left right : Cut} :
      isLiteral s = false → isGroup s = false → splitPoint s = some (i, operator) →
      CutsTo (s.take i) left → CutsTo (s.drop (i + 1)) right →
      CutsTo s (.split operator left right)

/-- The cuts of a text give the shape that it is read as. -/
theorem CutsTo.readsAs {s : List Char} {cut : Cut} (h : CutsTo s cut) : ReadsAs s cut.shape := by
  induction h with
  | literal hl => exact .literal hl
  | group hl hg _ ih => exact .group hl hg ih
  | split hl hg hs _ _ ihl ihr => exact .split hl hg hs ihl ihr

/-- A text that can be read can be cut. -/
theorem ReadsAs.exists_cutsTo {s : List Char} {shape : Shape} (h : ReadsAs s shape) :
    ∃ cut, CutsTo s cut ∧ cut.shape = shape := by
  induction h with
  | literal hl => exact ⟨_, .literal hl, rfl⟩
  | group hl hg _ ih =>
    obtain ⟨inner, hinner, rfl⟩ := ih
    exact ⟨_, .group hl hg hinner, rfl⟩
  | split hl hg hs _ _ ihl ihr =>
    obtain ⟨left, hleft, rfl⟩ := ihl
    obtain ⟨right, hright, rfl⟩ := ihr
    exact ⟨_, .split hl hg hs hleft hright, rfl⟩

theorem CutsTo.accepts {s : List Char} {cut : Cut} (h : CutsTo s cut) : accepts s = true :=
  accepts_iff.mpr ⟨cut.shape, h.readsAs.isFormula⟩

end Text

end FormulaEditor
