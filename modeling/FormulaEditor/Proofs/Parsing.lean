/-
Parsing whole texts.

A text is read in one piece, without its spaces.  If that is a formula the nodes
of the tree make up one branch, which has the shape that the grammar names, and
if it is none the text is refused as such:

* `parse_of_isFormula`, `parse_of_not_isFormula` — the two outcomes;
* `parse_iff_isFormula` — so parsing decides the grammar;
* `shape_of_parse` — and gives the one shape of the text;
* `exists_cut_of_parse` — what is parsed is the branch of the cuts of the text, merged.
-/
import FormulaEditor.Proofs.Reading

namespace FormulaEditor

open Grammar Text

/-- The text of a formula is read as a tree of its shape. -/
theorem parse_of_isFormula {text : String} {shape : Shape}
    (h : IsFormula (withoutSpaces text) shape) :
    ∃ (t : Tree) (b : Branch), parse text = .ok t ∧ t.IsWhole b ∧ b.shape = shape := by
  obtain ⟨cut, hcut, rfl⟩ := h.readsAs.exists_cutsTo
  obtain ⟨t, hparse, hwhole, _⟩ := run_parse_of_cutsTo hcut
  refine ⟨t, (cut.branch 0 0).flat, hparse, hwhole, ?_⟩
  rw [Branch.shape_flat, cut.flat_shape_branch]

/-- Any other text is refused. -/
theorem parse_of_not_isFormula {text : String}
    (h : ¬∃ shape, IsFormula (withoutSpaces text) shape) :
    parse text = .error (.notFormula (String.ofList (withoutSpaces text))) := by
  have hno : accepts (withoutSpaces text) = false := by
    rw [← Bool.not_eq_true, accepts_iff]
    exact h
  exact treeOf_readText_of_not_accepts Edit.flatten hno

/-- What a tree that was parsed looks like. -/
theorem exists_of_parse {text : String} {t : Tree} (h : parse text = .ok t) :
    ∃ b : Branch, t.IsWhole b ∧ IsFormula (withoutSpaces text) b.shape := by
  by_cases hf : ∃ shape, IsFormula (withoutSpaces text) shape
  · obtain ⟨shape, hshape⟩ := hf
    obtain ⟨t', b, hparse, hwhole, rfl⟩ := parse_of_isFormula hshape
    rw [h, Except.ok.injEq] at hparse
    exact ⟨b, hparse ▸ hwhole, hshape⟩
  · rw [parse_of_not_isFormula hf] at h
    exact absurd h (by simp)

/-- Behind every tree that was parsed there are cuts of its text. -/
theorem exists_cut_of_parse {text : String} {t : Tree} (h : parse text = .ok t) :
    ∃ cut, CutsTo (withoutSpaces text) cut ∧ t.IsWhole (cut.branch 0 0).flat ∧
      t.HasSlots cut.size cut.size := by
  obtain ⟨b, _, hformula⟩ := exists_of_parse h
  obtain ⟨cut, hcut, _⟩ := hformula.readsAs.exists_cutsTo
  obtain ⟨t', hparse, hwhole, hslots⟩ := run_parse_of_cutsTo hcut
  rw [h, Except.ok.injEq] at hparse
  exact ⟨cut, hcut, hparse ▸ hwhole, hparse ▸ hslots⟩

/-- Parsing succeeds on the formulas of the grammar and names the stripped text
in the error otherwise.  The acceptance rule decides which it is: what it has
accepted is always put together. -/
theorem parse_iff_isFormula (text : String) :
    ((∃ t, parse text = .ok t) ↔ ∃ shape, IsFormula (withoutSpaces text) shape) ∧
    ((¬∃ t, parse text = .ok t) ↔
      parse text = .error (.notFormula (String.ofList (withoutSpaces text)))) ∧
    (((acceptsSpan (withoutSpaces text).toArray (.whole (withoutSpaces text).toArray)).run ∅).1
      = true ↔ ∃ t, parse text = .ok t) := by
  have hiff : (∃ t, parse text = .ok t) ↔ ∃ shape, IsFormula (withoutSpaces text) shape := by
    constructor
    · rintro ⟨t, ht⟩
      obtain ⟨b, _, hb⟩ := exists_of_parse ht
      exact ⟨b.shape, hb⟩
    · rintro ⟨shape, hshape⟩
      obtain ⟨t, _, ht, _⟩ := parse_of_isFormula hshape
      exact ⟨t, ht⟩
  refine ⟨hiff, ⟨?_, ?_⟩, ?_⟩
  · intro hno
    rw [hiff] at hno
    exact parse_of_not_isFormula hno
  · rintro herror ⟨t, ht⟩
    rw [ht] at herror
    exact absurd herror (by simp)
  · -- nothing is known about the text at first, so the answer is that of the rule
    obtain ⟨_, hrun, _⟩ := gives_acceptsSpan (Span.whole (withoutSpaces text).toArray)
      (Span.Fits.whole _) ∅ (Verdicts.isSound_empty _)
    rw [hrun, Span.chars_whole, accepts_iff, hiff]

/-- A parsed tree has the shape that the grammar gives the text, and there is no
other one.  Wherever the text can be cut into two sums at a plus sign, their
terms are the operands of one sum; the same holds of products and times signs. -/
theorem shape_of_parse {text : String} {t : Tree} (h : parse text = .ok t) :
    ∃ shape, t.shape t.root = .ok shape ∧ IsFormula (withoutSpaces text) shape ∧
      (∀ other, IsFormula (withoutSpaces text) other → other = shape) ∧
      (∀ l r ls rs, withoutSpaces text = l ++ '+' :: r → IsSum l ls → IsSum r rs →
        shape = .compound .add (ls ++ rs)) ∧
      (∀ l r ls rs, withoutSpaces text = l ++ '*' :: r → IsProduct l ls → IsProduct r rs →
        shape = .compound .mul (ls ++ rs)) := by
  obtain ⟨b, hwhole, hb⟩ := exists_of_parse h
  refine ⟨b.shape, hwhole.shape_eq, hb, fun other ho => ho.unique hb, ?_, ?_⟩
  · -- the sums on both sides make up one sum, and there is no other reading
    intro l r ls rs htext hl hr
    rw [htext] at hb
    rw [hb.unique ⟨_, hl.append hr, rfl⟩, Shape.chain_of_two_le]
    have := List.length_pos_of_ne_nil hl.shapes_ne_nil
    have := List.length_pos_of_ne_nil hr.shapes_ne_nil
    rw [List.length_append]
    omega
  · intro l r ls rs htext hl hr
    rw [htext] at hb
    rw [hb.unique ⟨_, .one (hl.append hr), rfl⟩, Shape.chain, Shape.chain_of_two_le]
    have := List.length_pos_of_ne_nil hl.shapes_ne_nil
    have := List.length_pos_of_ne_nil hr.shapes_ne_nil
    rw [List.length_append]
    omega

/-- The times sign binds tighter. -/
theorem shape_of_parse_sum : ∃ t, parse "a + b*c" = .ok t ∧ t.shape t.root
    = .ok (.compound .add [.literal "a", .compound .mul [.literal "b", .literal "c"]]) := by
  have ha : IsFactor ['a'] (.literal "a") := .literal (.letter (by decide) (by decide))
  have hb : IsFactor ['b'] (.literal "b") := .literal (.letter (by decide) (by decide))
  have hc : IsFactor ['c'] (.literal "c") := .literal (.letter (by decide) (by decide))
  have hsum : IsFormula (withoutSpaces "a + b*c")
      (.compound .add [.literal "a", .compound .mul [.literal "b", .literal "c"]]) :=
    ⟨_, .more (.one ha) (.one (.more hb (.one hc))), rfl⟩
  obtain ⟨t, _, ht, _, _⟩ := parse_of_isFormula hsum
  obtain ⟨shape, hshape, _, hunique, _, _⟩ := shape_of_parse ht
  rw [← hunique _ hsum] at hshape
  exact ⟨t, ht, hshape⟩

end FormulaEditor
