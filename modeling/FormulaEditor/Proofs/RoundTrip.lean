/-
Drawing and parsing undo each other.

What is parsed is drawn as the text it was parsed from, without its spaces
(`drawTree_of_parse`).  What is drawn can be parsed if the tree is legible, and
gives the tree back up to merging (`parse_of_drawTree`): the line has no trace
of a chain of one operator having been several nodes.
-/
import FormulaEditor.Proofs.Copying
import FormulaEditor.Proofs.Drawing
import FormulaEditor.Proofs.Forest
import FormulaEditor.Proofs.Obtained

namespace FormulaEditor

open Grammar

/-- A text without spaces is left as it is. -/
theorem withoutSpaces_ofList {s : List Char} (h : ' ' ∉ s) :
    withoutSpaces (String.ofList s) = s := by
  rw [withoutSpaces, String.toList_ofList]
  refine List.filter_eq_self.mpr ?_
  intro c hc
  refine decide_eq_true ?_
  rintro rfl
  exact h hc

/-- Drawing undoes parsing. -/
theorem drawTree_of_parse {text : String} {t : Tree} (h : parse text = .ok t) :
    Line.drawTree t none = .ok ⟨String.ofList (withoutSpaces text)⟩ := by
  obtain ⟨b, hwhole, hb⟩ := exists_of_parse h
  rw [Line.drawTree_eq hwhole.root hwhole.bears, hb.written]

/-- Parentheses stay and spaces go. -/
theorem drawTree_of_parse_group : ∃ t, parse "( 2.5 ) * x" = .ok t ∧
    Line.drawTree t none = .ok ⟨"(2.5)*x"⟩ := by
  have hnumeral : IsFactor ['2', '.', '5'] (.literal "2.5") :=
    .literal (isLiteral_iff.mp (by decide))
  have hvariable : IsFactor ['x'] (.literal "x") := .literal (isLiteral_iff.mp (by decide))
  have hproduct : IsFormula (withoutSpaces "( 2.5 ) * x")
      (.compound .mul [.compound .group [.literal "2.5"], .literal "x"]) :=
    ⟨_, .one (.more (.group (.one (.one hnumeral))) (.one hvariable)), rfl⟩
  obtain ⟨t, _, ht, _, _⟩ := parse_of_isFormula hproduct
  exact ⟨t, ht, drawTree_of_parse ht⟩

/-- A writable shape can be read from where it is written down. -/
theorem exists_parse_written {shape : Shape} (h : shape.IsWritable) :
    ∃ t, parse (String.ofList shape.written) = .ok t ∧ t.shape t.root = .ok shape.flat := by
  have hf := h.isFormula
  have hspaces : ' ' ∉ shape.written := by
    obtain ⟨terms, hterms, _⟩ := hf
    exact hterms.space_notMem
  rw [← withoutSpaces_ofList hspaces] at hf
  obtain ⟨t, b, hparse, hwhole, hshape⟩ := parse_of_isFormula hf
  exact ⟨t, hparse, hshape ▸ hwhole.shape_eq⟩

/-- Flattening a whole branch makes its shape flat. -/
theorem exists_flatten {t : Tree} {b : Branch} (hroot : b.top = t.root) (h : t.Bears none b) :
    ∃ t', (Edit.flatten t.root).run t = .ok () t' ∧ t'.shape t'.root = .ok b.shape.flat := by
  obtain ⟨t', hrun, hre⟩ := Edit.run_flatten h
  refine ⟨t', hroot ▸ hrun, ?_⟩
  rw [hre.same.root, ← hroot, ← Branch.top_flat, (hre.bears_flat h).shape_eq, Branch.shape_flat]

/-- Parsing undoes drawing, up to merging.  A tree that an editor has obtained has
nothing to merge, so each of its subtrees is found again as it is. -/
theorem parse_of_drawTree {t : Tree} :
    (t.IsTree → t.IsLegible → ∃ (line : Line) (parsed flattened : Tree) (shape : Shape),
      Line.drawTree t none = .ok line ∧ parse line.text = .ok parsed ∧
      (Edit.flatten t.root).run t = .ok () flattened ∧
      flattened.shape flattened.root = .ok shape ∧ parsed.shape parsed.root = .ok shape ∧
      (t.IsMerged → t.shape t.root = .ok shape)) ∧
    (t.Obtained → ∀ id, t.Reaches t.root id →
      ∃ (glyphs : List Glyph) (parsed : Tree) (shape : Shape),
        t.layout id none = .ok glyphs ∧ parse (Line.blank.drawGlyphs glyphs).text = .ok parsed ∧
        t.shape id = .ok shape ∧ parsed.shape parsed.root = .ok shape) := by
  constructor
  · intro h hlegible
    obtain ⟨b, hroot, hb⟩ := h.exists_bears
    obtain ⟨parsed, hparse, hparsed⟩ := exists_parse_written (hlegible.isWritable hroot hb)
    obtain ⟨flattened, hrun, hflattened⟩ := exists_flatten hroot hb
    refine ⟨_, parsed, flattened, b.shape.flat, Line.drawTree_eq hroot.symm hb, hparse, hrun,
      hflattened, hparsed, ?_⟩
    -- a merged tree is its own flat form
    intro hmerged
    rw [(hmerged.isFlat hroot hb).flat, ← hroot, hb.shape_eq]
  · -- a subtree is a branch of the whole, and all of these are normal
    intro h id hid
    obtain ⟨b, hwhole, hn⟩ := h.isProper.exists_isWhole
    obtain ⟨c, rfl, hc⟩ := Branch.exists_within ((hwhole.root ▸ hid).mem_handles hwhole.bears)
    obtain ⟨place, hbears⟩ := hwhole.bears.within hc
    have hnormal := Tree.isNormal_of_within hc hn
    obtain ⟨parsed, hparse, hparsed⟩ := exists_parse_written hnormal.isWritable
    rw [hnormal.flat] at hparsed
    refine ⟨_, parsed, _, hbears.layout_eq, ?_, hbears.shape_eq, hparsed⟩
    rw [Line.text_drawGlyphs_glyphs, hparse]

/-- A sum under a sum is drawn and read as one sum, and a product within a parsed
sum is drawn and read on its own. -/
theorem parse_of_drawTree_sum :
    (∃ t, Tree.ofShape (.compound .add [.literal "a", .compound .add [.literal "b", .literal "c"]])
        = .ok t ∧
      ∃ (line : Line) (parsed flattened : Tree) (shape : Shape),
        Line.drawTree t none = .ok line ∧ parse line.text = .ok parsed ∧
        (Edit.flatten t.root).run t = .ok () flattened ∧
        flattened.shape flattened.root = .ok shape ∧ parsed.shape parsed.root = .ok shape) ∧
    (∃ t, parse "a+b*c" = .ok t ∧ t.Reaches t.root ⟨2⟩ ∧ ⟨2⟩ ≠ t.root ∧
      t.shape ⟨2⟩ = .ok (.compound .mul [.literal "b", .literal "c"]) ∧
      ∃ (glyphs : List Glyph) (parsed : Tree), t.layout ⟨2⟩ none = .ok glyphs ∧
        parse (Line.blank.drawGlyphs glyphs).text = .ok parsed ∧
        parsed.shape parsed.root = .ok (.compound .mul [.literal "b", .literal "c"])) := by
  have hliteral (c : Char) (h : Text.isLiteral [c] = true) :
      (Shape.literal (String.ofList [c])).IsWritable :=
    .literal (by rw [String.toList_ofList]; exact isLiteral_iff.mp h)
  have ha := hliteral 'a' (by decide)
  have hb := hliteral 'b' (by decide)
  have hc := hliteral 'c' (by decide)
  constructor
  · have hinner : (Shape.compound .add [.literal "b", .literal "c"]).IsWritable :=
      .add (Nat.le_refl 2) (by simp [hb, hc])
    have hw : (Shape.compound .add
        [.literal "a", .compound .add [.literal "b", .literal "c"]]).IsWritable :=
      .add (Nat.le_refl 2) (by simp [ha, hinner])
    obtain ⟨t, b, ht, hwhole, hshape⟩ := Tree.exists_ofShape
      (.compound .add [.literal "a", .compound .add [.literal "b", .literal "c"]])
    obtain ⟨line, parsed, flattened, shape, hline, hparse, hflatten, hflattened, hparsed, _⟩ :=
      parse_of_drawTree.1 hwhole.isTree (hwhole.isLegible (hshape ▸ hw))
    exact ⟨t, ht, line, parsed, flattened, shape, hline, hparse, hflatten, hflattened, hparsed⟩
  · obtain ⟨t, ht, hstore⟩ := Tree.exists_sum_product
    have hreaches : t.Reaches t.root ⟨2⟩ := by
      rw [hstore]
      exact .child .self rfl (by simp [Node.children, Content.children])
    have hne : ⟨2⟩ ≠ t.root := by
      rw [hstore]
      decide
    have hproduct : t.shape ⟨2⟩ = .ok (.compound .mul [.literal "b", .literal "c"]) := by
      rw [hstore]
      cbv
    obtain ⟨glyphs, parsed, shape, hglyphs, hparsed, hshape, hsame⟩ :=
      parse_of_drawTree.2 (.parse ht) ⟨2⟩ hreaches
    obtain rfl := Except.ok.inj (hproduct.symm.trans hshape)
    exact ⟨t, ht, hreaches, hne, hproduct, glyphs, parsed, hglyphs, hparsed, hsame⟩

end FormulaEditor
