/-
Drawings and outlines of branches.

The glyphs of a branch have marks around the node in focus (`Branch.glyphs`).
Laid out without a focus, a subtree is a row of glyphs that depends on its shape
alone (`Shape.glyphs`), and drawn on a line these glyphs are the shape written
down.  Its outline depends on nothing but the shape either (`Shape.outline`):

* `Tree.Bears.layout_focus_eq`, `Tree.Bears.layout_eq`, `Tree.Bears.outline_eq` — the
  layouts and the outline of a branch that a store bears;
* `Line.drawTree_eq` — the line that a whole tree is drawn as.
-/
import FormulaEditor.Proofs.Branch
import FormulaEditor.Tree.Layout

namespace FormulaEditor

/-! ### Glyphs -/

/-- The glyphs of an operator, given those of its operands. -/
def Operator.glyphs : Operator → List (List Glyph) → List Glyph
  | .group, parts => .opening :: parts.flatten ++ [.closing]
  | operator, parts => [Glyph.sign operator].intercalate parts

/-- The glyphs that a shape is drawn as. -/
def Shape.glyphs : Shape → List Glyph
  | .literal text => [.literal text]
  | .compound .group parts => .opening :: (parts.map glyphs).flatten ++ [.closing]
  | .compound operator parts => [Glyph.sign operator].intercalate (parts.map glyphs)

theorem Shape.glyphs_compound (operator : Operator) (parts : List Shape) :
    (compound operator parts).glyphs = operator.glyphs (parts.map glyphs) := by
  cases operator with
  | group => rw [glyphs, Operator.glyphs]
  | add => rw [glyphs.eq_3 _ _ (by decide), Operator.glyphs.eq_2 _ _ (by decide)]
  | mul => rw [glyphs.eq_3 _ _ (by decide), Operator.glyphs.eq_2 _ _ (by decide)]

namespace Branch

/-- The glyphs of a node, between marks if the node has the focus. -/
def marked (focus : Option Handle) (id : Handle) (glyphs : List Glyph) : List Glyph :=
  if focus = some id then Tree.focused glyphs else glyphs

/-- The glyphs of a branch, with marks around the node in focus if it is there. -/
def glyphs (focus : Option Handle) : Branch → List Glyph
  | literal id _ text => marked focus id [.literal text]
  | compound id _ operator parts =>
    marked focus id (operator.glyphs (parts.map (glyphs focus)))

theorem fold_glyphs (focus parent : Option Handle) (b : Branch) :
    b.fold (fun here node parts =>
      let glyphs := Tree.glyphsOver node parts
      if focus = some here then Tree.focused glyphs else glyphs) parent = b.glyphs focus := by
  induction b generalizing parent with
  | literal id tag text =>
    rw [fold, glyphs, marked]
    rfl
  | compound id tag operator parts ih =>
    rw [fold, glyphs, marked, List.map_congr_left fun part hp => ih part hp (some id)]
    cases operator <;> rfl

/-- A focus that is none of the nodes leaves no marks. -/
theorem glyphs_of_notMem {focus : Option Handle} {b : Branch}
    (h : ∀ id ∈ b.handles, focus ≠ some id) :
    b.glyphs focus = b.shape.glyphs := by
  induction b with
  | literal id tag text =>
    rw [glyphs, marked, if_neg (h id (by simp [handles])), shape, Shape.glyphs]
  | compound id tag operator parts ih =>
    have hparts : parts.map (glyphs focus) = (parts.map shape).map Shape.glyphs := by
      rw [List.map_map]
      refine List.map_congr_left fun part hp => ih part hp fun other hother => h other ?_
      exact mem_handles_of_mem_parts (b := compound id tag operator parts) hp hother
    rw [glyphs, marked, if_neg (h id (by simp [handles])), hparts, shape, Shape.glyphs_compound]

theorem glyphs_none (b : Branch) : b.glyphs none = b.shape.glyphs :=
  glyphs_of_notMem fun _ _ => by simp

end Branch

namespace Tree

variable {t : Tree} {parent : Option Handle} {b : Branch}

theorem Bears.layout_focus_eq (h : t.Bears parent b) (focus : Option Handle) :
    t.layout b.top focus = .ok (b.glyphs focus) := by
  rw [layout, h.fold_eq, Branch.fold_glyphs]

theorem Bears.layout_eq (h : t.Bears parent b) : t.layout b.top none = .ok b.shape.glyphs := by
  rw [h.layout_focus_eq, Branch.glyphs_none]

end Tree

/-! ### Outlines -/

/-- The outline of a shape, its topmost line indented by a number of tabs. -/
def Shape.outline : Shape → Nat → String
  | .literal text => fun depth => "".pushn '\t' depth ++ text ++ "\n"
  | .compound operator parts => fun depth =>
    "".pushn '\t' depth ++ operator.symbol ++ "\n"
      ++ String.join ((parts.map outline).map (· (depth + 1)))

theorem Branch.fold_outline (parent : Option Handle) (b : Branch) :
    b.fold (fun _ node parts depth =>
      Tree.outlineLine depth node ++ String.join (parts.map (· (depth + 1)))) parent
      = b.shape.outline := by
  induction b generalizing parent with
  | literal id tag text =>
    rw [fold, shape, Shape.outline]
    funext depth
    exact String.append_empty
  | compound id tag operator parts ih =>
    rw [fold, shape, Shape.outline, List.map_congr_left fun part hp => ih part hp (some id),
      List.map_map]
    rfl

theorem Tree.Bears.outline_eq {t : Tree} {parent : Option Handle} {b : Branch}
    (h : t.Bears parent b) (depth : Nat) : t.outline b.top depth = .ok (b.shape.outline depth) := by
  rw [outline, h.fold_eq, Branch.fold_outline]
  rfl

/-! ### Lines -/

theorem flatMap_intercalate {α β : Type} (f : α → List β) (sep : List α) (l : List (List α)) :
    (sep.intercalate l).flatMap f = (sep.flatMap f).intercalate (l.map (List.flatMap f)) := by
  induction l with
  | nil => rfl
  | cons a l ih =>
    cases l with
    | nil => simp
    | cons b l =>
      rw [List.intercalate_cons_cons, List.flatMap_append, List.flatMap_append, ih, List.map_cons,
        List.map_cons, List.map_cons, List.intercalate_cons_cons]

/-- The texts of the glyphs are the shape written down. -/
theorem Shape.flatMap_text_glyphs (shape : Shape) :
    shape.glyphs.flatMap (fun glyph => glyph.text.toList) = shape.written := by
  induction shape with
  | literal text => rw [glyphs, List.flatMap_singleton, Glyph.text, written_literal]
  | compound operator parts ih =>
    have hparts : (parts.map glyphs).map (List.flatMap fun glyph => glyph.text.toList)
        = parts.map written := by
      rw [List.map_map]
      exact List.map_congr_left ih
    -- a group is drawn between parentheses, and all else around signs
    by_cases hg : operator = .group
    · subst hg
      rw [glyphs, written, List.flatMap_append, List.flatMap_cons, ← hparts, List.flatMap_def,
        List.map_flatten, List.flatten_flatten, List.map_map]
      rfl
    · rw [glyphs.eq_3 _ _ hg, written_compound hg, flatMap_intercalate, hparts,
        List.flatMap_singleton, Glyph.text]

namespace Line

theorem toList_text_drawGlyphs (line : Line) (glyphs : List Glyph) :
    (line.drawGlyphs glyphs).text.toList
      = line.text.toList ++ glyphs.flatMap fun glyph => glyph.text.toList := by
  induction glyphs generalizing line with
  | nil => simp [drawGlyphs]
  | cons glyph glyphs ih =>
    have hstep : line.drawGlyphs (glyph :: glyphs) = (line.draw glyph).drawGlyphs glyphs := rfl
    rw [hstep, ih, draw, String.toList_append, List.flatMap_cons, List.append_assoc]

/-- The glyphs of a shape are drawn as the shape written down. -/
theorem text_drawGlyphs_glyphs (shape : Shape) :
    (blank.drawGlyphs shape.glyphs).text = String.ofList shape.written := by
  rw [← String.toList_inj, toList_text_drawGlyphs, Shape.flatMap_text_glyphs]
  simp [blank]

theorem drawTree_eq {t : Tree} {b : Branch} (hroot : t.root = b.top) (h : t.Bears none b) :
    drawTree t none = .ok ⟨String.ofList b.shape.written⟩ := by
  rw [drawTree, hroot, h.layout_eq, ← text_drawGlyphs_glyphs]
  rfl

end Line

end FormulaEditor
