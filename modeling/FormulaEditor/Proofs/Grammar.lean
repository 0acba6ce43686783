/-
The language of the grammar.

What the grammar says about texts, before any reader looks at them:

* `Grammar.IsFormula.append` — formulas on both sides of an operator make a
  formula, whatever is inside them;
* `Grammar.IsSum.hasEnds` — a formula neither begins nor ends with an operator;
* `Grammar.isLiteral_iff` — the test for literals agrees with the grammar.

Design notes: the levels of the grammar are defined together, and what holds of
one of them mostly holds of all three.  `Grammar.Steps` collects what has to be
shown for that, with one field for each rule.
-/
import FormulaEditor.Text.Acceptance
import FormulaEditor.Text.Grammar
import Mathlib.Data.List.TakeWhile

namespace FormulaEditor

namespace Grammar

open Text

/-! ### Induction over the rules -/

/-- Properties of factors, products and sums that every rule hands on. -/
structure Steps (F : List Char → Shape → Prop) (P S : List Char → List Shape → Prop) : Prop where
  literal : ∀ {s}, IsLiteral s → F s (.literal (String.ofList s))
  group : ∀ {s terms}, IsSum s terms → S s terms →
    F ('(' :: s ++ [')']) (.compound .group [.chain .add terms])
  factor : ∀ {s f}, IsFactor s f → F s f → P s [f]
  times : ∀ {s t f fs}, IsFactor s f → F s f → IsProduct t fs → P t fs →
    P (s ++ '*' :: t) (f :: fs)
  product : ∀ {s fs}, IsProduct s fs → P s fs → S s [.chain .mul fs]
  plus : ∀ {s t fs ts}, IsProduct s fs → P s fs → IsSum t ts → S t ts →
    S (s ++ '+' :: t) (.chain .mul fs :: ts)

section

variable {F : List Char → Shape → Prop} {P S : List Char → List Shape → Prop}

mutual

theorem Steps.ofFactor (steps : Steps F P S) : ∀ {s f}, IsFactor s f → F s f
  | _, _, .literal h => steps.literal h
  | _, _, .group h => steps.group h (steps.ofSum h)

theorem Steps.ofProduct (steps : Steps F P S) : ∀ {s fs}, IsProduct s fs → P s fs
  | _, _, .one h => steps.factor h (steps.ofFactor h)
  | _, _, .more h h' => steps.times h (steps.ofFactor h) h' (steps.ofProduct h')

theorem Steps.ofSum (steps : Steps F P S) : ∀ {s ts}, IsSum s ts → S s ts
  | _, _, .one h => steps.product h (steps.ofProduct h)
  | _, _, .more h h' => steps.plus h (steps.ofProduct h) h' (steps.ofSum h')

end

end

/-! ### Literals -/

theorem isDigits_iff {s : List Char} : isDigits s = true ↔ IsDigits s := by
  simp only [isDigits, IsDigits, Char.isDigit, Bool.and_eq_true, Bool.not_eq_true',
    List.isEmpty_eq_false_iff, List.all_eq_true, decide_eq_true_eq]
  rfl

theorem isNumeral_iff {s : List Char} :
    isNumeral s = true ↔ IsDigits s ∨
      ∃ whole fraction, s = whole ++ '.' :: fraction ∧ IsDigits whole ∧ IsDigits fraction := by
  rw [isNumeral, Bool.and_eq_true, isDigits_iff]
  constructor
  · rintro ⟨hwhole, hrest⟩
    have hs := List.takeWhile_append_dropWhile (p := Char.isDigit) (l := s)
    split at hrest
    · -- digits up to the end
      next hd =>
      rw [hd, List.append_nil] at hs
      exact .inl (hs ▸ hwhole)
    · -- some other character behind them, which has to be the point
      next c fraction hd =>
      rw [Bool.and_eq_true, decide_eq_true_eq, isDigits_iff] at hrest
      rw [hd, hrest.1] at hs
      exact .inr ⟨_, fraction, hs.symm, hwhole, hrest.2⟩
  · have digit {w : List Char} (h : IsDigits w) : ∀ c ∈ w, c.isDigit = true :=
      List.all_eq_true.mp (Bool.and_eq_true_iff.mp (isDigits_iff.mpr h)).2
    rintro (h | ⟨whole, fraction, rfl, hw, hf⟩)
    · rw [List.takeWhile_eq_self_iff.mpr (digit h), List.dropWhile_eq_nil_iff.mpr (digit h)]
      exact ⟨h, rfl⟩
    · rw [List.takeWhile_append_of_pos (digit hw), List.dropWhile_append_of_pos (digit hw)]
      simpa [List.takeWhile, List.dropWhile, isDigits_iff] using And.intro hw hf

theorem isVariable_iff {s : List Char} :
    isVariable s = true ↔ ∃ c, s = [c] ∧ 'a' ≤ c ∧ c ≤ 'z' := by
  rw [isVariable.eq_def]
  split
  · next c =>
    show (decide ('a' ≤ c) && decide (c ≤ 'z')) = true ↔ _
    simp only [Bool.and_eq_true, decide_eq_true_eq, List.cons.injEq, and_true, exists_eq_left']
  · next h => simpa using fun c hc => absurd hc (h c)

/-- The test for literals agrees with the grammar. -/
theorem isLiteral_iff {s : List Char} : Text.isLiteral s = true ↔ IsLiteral s := by
  rw [Text.isLiteral, Bool.or_eq_true, isVariable_iff, isNumeral_iff]
  constructor
  · rintro (⟨c, rfl, ha, hz⟩ | h | ⟨whole, fraction, rfl, hw, hf⟩)
    · exact .letter ha hz
    · exact .digits h
    · exact .point hw hf
  · rintro (h | ⟨hw, hf⟩ | ⟨ha, hz⟩)
    · exact .inr (.inl h)
    · exact .inr (.inr ⟨_, _, rfl, hw, hf⟩)
    · exact .inl ⟨_, rfl, ha, hz⟩

/-- Characters that mean something between literals, and the space. -/
def isMark (c : Char) : Prop := c ∈ ['+', '*', '(', ')', ' ']

theorem not_isMark_of_bounds {c : Char} (h : '0' ≤ c ∧ c ≤ '9' ∨ 'a' ≤ c ∧ c ≤ 'z' ∨ c = '.') :
    ¬isMark c := by
  intro hm
  simp only [isMark, List.mem_cons, List.not_mem_nil, or_false] at hm
  rcases hm with rfl | rfl | rfl | rfl | rfl <;> revert h <;> decide

/-- A literal is made of digits, small letters and points. -/
theorem IsLiteral.bounds {s : List Char} (h : IsLiteral s) {c : Char} (hc : c ∈ s) :
    '0' ≤ c ∧ c ≤ '9' ∨ 'a' ≤ c ∧ c ≤ 'z' ∨ c = '.' := by
  cases h with
  | digits h => exact .inl (h.2 c hc)
  | point hw hf =>
    rcases List.mem_append.mp hc with hc | hc
    · exact .inl (hw.2 c hc)
    · rcases List.mem_cons.mp hc with rfl | hc
      · exact .inr (.inr rfl)
      · exact .inl (hf.2 c hc)
  | letter ha hz =>
    rw [List.mem_singleton.mp hc]
    exact .inr (.inl ⟨ha, hz⟩)

/-- A literal is made of other characters. -/
theorem IsLiteral.not_isMark {s : List Char} (h : IsLiteral s) {c : Char} (hc : c ∈ s) :
    ¬isMark c :=
  not_isMark_of_bounds (h.bounds hc)

theorem IsLiteral.ne_nil {s : List Char} (h : IsLiteral s) : s ≠ [] := by
  cases h with
  | digits h => exact h.1
  | point => simp
  | letter => simp

/-! ### Where a formula begins and ends -/

/-- The text begins and ends with a character that is no operator. -/
structure HasEnds (s : List Char) : Prop where
  head : ∃ c, s.head? = some c ∧ isOperator c = false
  last : ∃ c, s.getLast? = some c ∧ isOperator c = false

theorem HasEnds.append {s t : List Char} (hs : HasEnds s) (ht : HasEnds t) (c : Char) :
    HasEnds (s ++ c :: t) := by
  obtain ⟨first, hfirst, hf⟩ := hs.head
  obtain ⟨last, hlast, hl⟩ := ht.last
  constructor
  · refine ⟨first, ?_, hf⟩
    simp [List.head?_append, hfirst]
  · refine ⟨last, ?_, hl⟩
    simp [List.getLast?_append, List.getLast?_cons, hlast]

theorem isOperator_eq_true_iff {c : Char} : isOperator c = true ↔ c = '+' ∨ c = '*' := by
  rw [isOperator, Operator.ofChar?.eq_def]
  split <;> simp_all

theorem IsLiteral.hasEnds {s : List Char} (h : IsLiteral s) : HasEnds s := by
  have plain {c : Char} (hc : c ∈ s) : isOperator c = false := by
    refine Bool.eq_false_iff.mpr ?_
    intro ho
    refine h.not_isMark hc ?_
    rcases isOperator_eq_true_iff.mp ho with rfl | rfl <;> simp [isMark]
  have hne := h.ne_nil
  exact ⟨⟨s.head hne, List.head?_eq_some_head hne, plain (List.head_mem hne)⟩,
    ⟨s.getLast hne, List.getLast?_eq_some_getLast hne, plain (List.getLast_mem hne)⟩⟩

theorem hasEnds_steps :
    Steps (fun s _ => HasEnds s) (fun s _ => HasEnds s) (fun s _ => HasEnds s) where
  literal h := h.hasEnds
  group _ _ := ⟨⟨'(', by simp, by decide⟩, ⟨')', List.getLast?_concat, by decide⟩⟩
  factor _ h := h
  times _ hs _ ht := hs.append ht '*'
  product _ h := h
  plus _ hs _ ht := hs.append ht '+'

theorem IsFactor.hasEnds {s : List Char} {f : Shape} (h : IsFactor s f) : HasEnds s :=
  hasEnds_steps.ofFactor h

theorem IsProduct.hasEnds {s : List Char} {fs : List Shape} (h : IsProduct s fs) : HasEnds s :=
  hasEnds_steps.ofProduct h

theorem IsSum.hasEnds {s : List Char} {ts : List Shape} (h : IsSum s ts) : HasEnds s :=
  hasEnds_steps.ofSum h

/-- In a formula there are only the characters of literals, operators and parentheses. -/
theorem IsSum.notMem {c : Char} (hliteral : ¬('0' ≤ c ∧ c ≤ '9' ∨ 'a' ≤ c ∧ c ≤ 'z' ∨ c = '.'))
    (hmark : c ∉ ['+', '*', '(', ')']) {s : List Char} {ts : List Shape} (h : IsSum s ts) :
    c ∉ s := by
  simp only [List.mem_cons, List.not_mem_nil, or_false, not_or] at hmark
  obtain ⟨hplus, htimes, hopening, hclosing⟩ := hmark
  have steps : Steps (fun s _ => c ∉ s) (fun s _ => c ∉ s) (fun s _ => c ∉ s) := {
    literal := fun h hc => hliteral (h.bounds hc)
    group := fun _ h => by simp [h, hopening, hclosing]
    factor := fun _ h => h
    times := fun _ hs _ ht => by simp [hs, ht, htimes]
    product := fun _ h => h
    plus := fun _ hs _ ht => by simp [hs, ht, hplus] }
  exact steps.ofSum h

/-- There are no spaces in a formula. -/
theorem IsSum.space_notMem {s : List Char} {ts : List Shape} (h : IsSum s ts) : ' ' ∉ s :=
  h.notMem (by decide) (by decide)

/-! ### Formulas around an operator -/

theorem IsProduct.append {s t : List Char} {fs gs : List Shape} (hs : IsProduct s fs)
    (ht : IsProduct t gs) : IsProduct (s ++ '*' :: t) (fs ++ gs) := by
  match hs with
  | .one h => exact .more h ht
  | .more h h' =>
    rw [List.append_assoc]
    exact .more h (h'.append ht)

/-- The terms of two sums, one after the other. -/
theorem IsSum.append {s t : List Char} {fs gs : List Shape} (hs : IsSum s fs)
    (ht : IsSum t gs) : IsSum (s ++ '+' :: t) (fs ++ gs) := by
  match hs with
  | .one h => exact .more h ht
  | .more h h' =>
    rw [List.append_assoc]
    exact .more h (h'.append ht)

/-- A factor in front of a sum multiplies its first term. -/
theorem IsSum.product_append {s t : List Char} {fs gs : List Shape} (hs : IsProduct s fs)
    (ht : IsSum t gs) : ∃ us, IsSum (s ++ '*' :: t) us := by
  cases ht with
  | one h => exact ⟨_, .one (hs.append h)⟩
  | more h h' =>
    -- the product takes up the first term of the sum only
    have := IsSum.more (hs.append h) h'
    rw [List.append_assoc, List.cons_append] at this
    exact ⟨_, this⟩

theorem IsSum.times {s t : List Char} {fs gs : List Shape} (hs : IsSum s fs)
    (ht : IsSum t gs) : ∃ us, IsSum (s ++ '*' :: t) us := by
  match hs with
  | .one h => exact IsSum.product_append h ht
  | .more h h' =>
    -- the first term stays as it is, and the rest of the sum goes on
    obtain ⟨ts, hts⟩ := h'.times ht
    have := IsSum.more h hts
    rw [← List.cons_append, ← List.append_assoc] at this
    exact ⟨_, this⟩

theorem IsFormula.literal {s : List Char} (h : IsLiteral s) :
    IsFormula s (.literal (String.ofList s)) :=
  ⟨_, .one (.one (.literal h)), rfl⟩

theorem IsFormula.group {s : List Char} {inner : Shape} (h : IsFormula s inner) :
    IsFormula ('(' :: s ++ [')']) (.compound .group [inner]) := by
  obtain ⟨terms, hterms, rfl⟩ := h
  exact ⟨_, .one (.one (.group hterms)), rfl⟩

/-- Formulas on both sides of an operator make a formula, although not always
one over the two: in `a+b*c+d` the sides of the times sign are sums. -/
theorem IsFormula.append {s t : List Char} {a b : Shape} {c : Char} (hc : isOperator c = true)
    (hs : IsFormula s a) (ht : IsFormula t b) : ∃ shape, IsFormula (s ++ c :: t) shape := by
  obtain ⟨fs, hfs, rfl⟩ := hs
  obtain ⟨gs, hgs, rfl⟩ := ht
  rcases isOperator_eq_true_iff.mp hc with rfl | rfl
  · exact ⟨_, _, hfs.append hgs, rfl⟩
  · obtain ⟨ts, hts⟩ := hfs.times hgs
    exact ⟨_, _, hts, rfl⟩

end Grammar

end FormulaEditor
