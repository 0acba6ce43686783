/-
Shapes in normal form.

Merging nested sums and products gives a shape its flat form (`Shape.flat`).
The flat form is what the grammar assigns to a text, so it is also what remains
of a shape after it has been written down without parentheses of its own:

* `Shape.flat`, `Shape.IsFlat` — the flat form, and what is in it already;
* `Shape.isFlat_flat` — nothing can be merged in the flat form;
* `Shape.written` — a shape as a line of text;
* `Shape.IsWritable` — shapes that mean the same after they are written down;
* `Shape.HasArity` — shapes whose compounds have as many parts as their operators allow;
* `Shape.IsWritable.isFormula` — a writable shape is written as a formula of its
  flat form;
* `Grammar.IsFormula.written`, `Grammar.IsFormula.isNormal` — a formula is its
  shape written down, and the shape is flat and writable.
-/
import FormulaEditor.Proofs.Grammar
import Mathlib.Data.List.Basic

namespace FormulaEditor

/-- A sum or a product with this number of operands has something to combine. -/
def Operator.HasOperands (operator : Operator) (count : Nat) : Prop :=
  operator.isAssociative = true → 0 < count

/-- Parentheses with this number of operands enclose a formula. -/
def Operator.Encloses (operator : Operator) (count : Nat) : Prop :=
  operator = .group → count = 1

namespace Shape

/-- Induction over shapes, with a hypothesis for every part of a compound. -/
@[induction_eliminator]
theorem induct {motive : Shape → Prop} (literal : ∀ text, motive (literal text))
    (compound : ∀ operator parts, (∀ part ∈ parts, motive part) →
      motive (compound operator parts)) : ∀ shape, motive shape
  | .literal text => literal text
  | .compound operator parts =>
    compound operator parts fun part _ => induct literal compound part

/-- The operator of a compound. -/
def operator? : Shape → Option Operator
  | literal _ => none
  | compound operator _ => some operator

/-! ### Merging -/

/-- What a shape contributes to a chain of an operator: its parts if it is a
compound of that operator, and else itself. -/
def operands (operator : Operator) : Shape → List Shape
  | literal text => [literal text]
  | compound own parts => if own = operator then parts else [compound own parts]

/-- The parts of a compound after nested uses of its operator were merged. -/
def merged (operator : Operator) (parts : List Shape) : List Shape :=
  if operator.isAssociative then parts.flatMap (operands operator) else parts

/-- The shape with nested sums and products merged. -/
def flat : Shape → Shape
  | literal text => literal text
  | compound operator parts => compound operator (merged operator (parts.map flat))

@[simp] theorem flat_literal (text : String) : (literal text).flat = literal text := by rw [flat]

@[simp] theorem operator?_flat (shape : Shape) : shape.flat.operator? = shape.operator? := by
  cases shape with
  | literal => rw [flat]
  | compound => rw [flat, operator?, operator?]

theorem operands_of_ne {operator : Operator} {shape : Shape}
    (h : shape.operator? ≠ some operator) : shape.operands operator = [shape] := by
  cases shape with
  | literal => rfl
  | compound own parts => exact if_neg fun heq => h (congrArg some heq)

@[simp] theorem operands_compound_self (operator : Operator) (parts : List Shape) :
    (compound operator parts).operands operator = parts := if_pos rfl

/-- Nothing can be merged: no part of a compound has its operator, if that is
associative. -/
inductive IsFlat : Shape → Prop
  | literal (text : String) : IsFlat (literal text)
  | compound {operator : Operator} {parts : List Shape} : (∀ part ∈ parts, IsFlat part) →
      (operator.isAssociative = true → ∀ part ∈ parts, part.operator? ≠ some operator) →
      IsFlat (compound operator parts)

theorem IsFlat.of_mem {operator : Operator} {parts : List Shape}
    (h : (Shape.compound operator parts).IsFlat) {part : Shape} (hp : part ∈ parts) :
    part.IsFlat := by
  cases h with
  | compound hparts _ => exact hparts part hp

theorem merged_of_ne {operator : Operator} {parts : List Shape}
    (h : operator.isAssociative = true → ∀ part ∈ parts, part.operator? ≠ some operator) :
    merged operator parts = parts := by
  rw [merged]
  split
  · next ha =>
    calc parts.flatMap (operands operator)
      _ = parts.flatMap fun part => [part] :=
        List.flatMap_congr fun part hp => operands_of_ne (h ha part hp)
      _ = parts := by simp
  · rfl

theorem IsFlat.flat {shape : Shape} (h : shape.IsFlat) : shape.flat = shape := by
  induction h with
  | literal text => exact flat_literal text
  | @compound operator parts _ hne ih =>
    rw [Shape.flat, List.map_congr_left ih, List.map_id', merged_of_ne hne]

/-- What a flat shape contributes to a chain is flat, and does not belong to the chain
itself. -/
theorem IsFlat.of_mem_operands {operator : Operator} {shape part : Shape} (h : shape.IsFlat)
    (hp : part ∈ shape.operands operator) :
    part.IsFlat ∧ (operator.isAssociative = true → part.operator? ≠ some operator) := by
  by_cases hown : shape.operator? = some operator
  · cases h with
    | literal => cases hown
    | @compound own parts hparts hne =>
      obtain rfl : own = operator := Option.some_inj.mp hown
      rw [operands_compound_self] at hp
      exact ⟨hparts part hp, fun ha => hne ha part hp⟩
  · rw [operands_of_ne hown, List.mem_singleton] at hp
    exact ⟨hp ▸ h, fun _ => hp ▸ hown⟩

/-- Nothing can be merged after merging. -/
theorem isFlat_flat (shape : Shape) : shape.flat.IsFlat := by
  induction shape with
  | literal text =>
    rw [flat_literal]
    exact .literal text
  | compound operator parts ih =>
    rw [flat, merged]
    split
    · next ha =>
      have hoperands : ∀ part ∈ (parts.map flat).flatMap (operands operator),
          part.IsFlat ∧ (operator.isAssociative = true → part.operator? ≠ some operator) := by
        intro part hp
        obtain ⟨_, hmem, hp⟩ := List.mem_flatMap.mp hp
        obtain ⟨old, hold, rfl⟩ := List.mem_map.mp hmem
        exact (ih old hold).of_mem_operands hp
      exact .compound (fun part hp => (hoperands part hp).1)
        fun ha part hp => (hoperands part hp).2 ha
    · next ha => exact .compound (List.forall_mem_map.mpr ih) fun h => absurd h ha

/-! ### Chains -/

theorem chain_of_two_le {operator : Operator} {parts : List Shape} (h : 2 ≤ parts.length) :
    chain operator parts = compound operator parts := by
  match parts, h with
  | _ :: _ :: _, _ => rfl

/-- A chain contributes its operands, also when it is a single one. -/
theorem operands_chain {operator : Operator} {parts : List Shape}
    (h : ∀ part ∈ parts, part.operator? ≠ some operator) :
    (chain operator parts).operands operator = parts := by
  match parts with
  | [] => exact operands_compound_self operator []
  | [part] => exact operands_of_ne (h part (List.mem_singleton_self part))
  | _ :: _ :: _ => exact operands_compound_self operator _

/-- A property of every part, and of compounds of several parts, is one of
chains. -/
theorem chain_induct {motive : Shape → Prop} {operator : Operator} {parts : List Shape}
    (hne : parts ≠ []) (hparts : ∀ part ∈ parts, motive part)
    (hcompound : 2 ≤ parts.length → motive (compound operator parts)) :
    motive (chain operator parts) := by
  match parts with
  | [part] => exact hparts part (List.mem_singleton_self part)
  | _ :: _ :: _ => exact hcompound (by simp)

/-! ### Shapes as text -/

/-- The shape as a line of text, without spaces. -/
def written : Shape → List Char
  | literal text => text.toList
  | compound .group parts => '(' :: (parts.map written).flatten ++ [')']
  | compound operator parts => operator.symbol.toList.intercalate (parts.map written)

@[simp] theorem written_literal (text : String) : (literal text).written = text.toList := by
  rw [written]

theorem written_compound {operator : Operator} (h : operator ≠ .group) (parts : List Shape) :
    (compound operator parts).written
      = operator.symbol.toList.intercalate (parts.map written) := by
  rw [written.eq_3 _ _ h]

/-- Shapes that can be written down and read again: literals are those of the
grammar, a sum or a product has several operands, parentheses enclose one, and
no factor is a sum without parentheses. -/
inductive IsWritable : Shape → Prop
  | literal {text : String} : Grammar.IsLiteral text.toList → IsWritable (literal text)
  | group {part : Shape} : IsWritable part → IsWritable (compound .group [part])
  | add {parts : List Shape} : 2 ≤ parts.length → (∀ part ∈ parts, IsWritable part) →
      IsWritable (compound .add parts)
  | mul {parts : List Shape} : 2 ≤ parts.length → (∀ part ∈ parts, IsWritable part) →
      (∀ part ∈ parts, part.operator? ≠ some .add) → IsWritable (compound .mul parts)

theorem IsWritable.of_mem {operator : Operator} {parts : List Shape}
    (h : (compound operator parts).IsWritable) {part : Shape} (hp : part ∈ parts) :
    part.IsWritable := by
  cases h with
  | group hpart => exact List.mem_singleton.mp hp ▸ hpart
  | add _ hparts => exact hparts part hp
  | mul _ hparts _ => exact hparts part hp

/-- Every compound has a number of parts that its operator allows. -/
inductive HasArity (allowed : Operator → Nat → Prop) : Shape → Prop
  | literal (text : String) : HasArity allowed (literal text)
  | compound {operator : Operator} {parts : List Shape} : allowed operator parts.length →
      (∀ part ∈ parts, HasArity allowed part) → HasArity allowed (compound operator parts)

theorem HasArity.of_mem {allowed : Operator → Nat → Prop} {operator : Operator}
    {parts : List Shape} (h : (Shape.compound operator parts).HasArity allowed) {part : Shape}
    (hp : part ∈ parts) : part.HasArity allowed := by
  cases h with
  | compound _ hparts => exact hparts part hp

theorem IsWritable.hasArity {shape : Shape} (h : shape.IsWritable) :
    shape.HasArity Operator.HasOperands ∧ shape.HasArity Operator.Encloses := by
  induction h with
  | literal => exact ⟨.literal _, .literal _⟩
  | @group part _ ih =>
    exact ⟨.compound (fun ha => absurd ha (by decide)) (by simpa using ih.1),
      .compound (fun _ => rfl) (by simpa using ih.2)⟩
  | add hlen _ ih =>
    exact ⟨.compound (fun _ => by omega) fun part hp => (ih part hp).1,
      .compound (fun hg => absurd hg (by decide)) fun part hp => (ih part hp).2⟩
  | mul hlen _ _ ih =>
    exact ⟨.compound (fun _ => by omega) fun part hp => (ih part hp).1,
      .compound (fun hg => absurd hg (by decide)) fun part hp => (ih part hp).2⟩

/-! ### Writable shapes are formulas -/

section

variable {α : Type} {text : α → List Char} {parts : α → List Shape} {l : List α}

/-- What holds of the parts of a chain holds of the chain, if it can be put
together around one operator character. -/
theorem intercalate_induct {R : List Char → List Shape → Prop} {c : Char}
    (append : ∀ {s t fs gs}, R s fs → R t gs → R (s ++ c :: t) (fs ++ gs)) (hne : l ≠ [])
    (h : ∀ a ∈ l, R (text a) (parts a)) : R ([c].intercalate (l.map text)) (l.flatMap parts) := by
  induction l with
  | nil => exact absurd rfl hne
  | cons a l ih =>
    have ha := h a (List.mem_cons_self ..)
    cases l with
    | nil => simpa using ha
    | cons b l =>
      rw [List.map_cons, List.map_cons, List.intercalate_cons_cons, List.append_assoc]
      exact append ha (ih (by simp) fun c hc => h c (List.mem_cons_of_mem _ hc))

theorem two_le_length_flatMap (hl : 2 ≤ l.length) (h : ∀ a ∈ l, parts a ≠ []) :
    2 ≤ (l.flatMap parts).length := by
  match l, hl with
  | a :: b :: l, _ =>
    have ha := List.length_pos_of_ne_nil (h a (by simp))
    have hb := List.length_pos_of_ne_nil (h b (by simp))
    simp only [List.flatMap_cons, List.length_append]
    omega

end

theorem flat_associative (operator : Operator) (h : operator.isAssociative = true)
    (parts : List Shape) : (compound operator parts).flat
      = compound operator (parts.flatMap (·.flat.operands operator)) := by
  rw [flat, merged, if_pos h, List.flatMap_map]

theorem flat_group (parts : List Shape) :
    (compound .group parts).flat = compound .group (parts.map flat) := by
  rw [flat, merged, if_neg (by decide)]

/-- A shape without empty sums and products contributes something to every chain. -/
theorem HasArity.operands_flat_ne_nil {shape : Shape} (h : shape.HasArity Operator.HasOperands)
    {operator : Operator} (ha : operator.isAssociative = true) :
    shape.flat.operands operator ≠ [] := by
  induction h with
  | literal =>
    rw [flat_literal, operands]
    exact List.cons_ne_nil _ _
  | @compound own parts hlen _ ih =>
    by_cases hown : own = operator
    · -- what the first part contributes is passed on
      subst hown
      obtain ⟨part, hp⟩ := List.exists_mem_of_length_pos (hlen ha)
      rw [flat_associative own ha, operands_compound_self]
      exact fun hnil => ih part hp (List.flatMap_eq_nil_iff.mp hnil part hp)
    · have hne : (Shape.compound own parts).flat.operator? ≠ some operator := by
        rw [operator?_flat]
        exact fun heq => hown (Option.some_inj.mp heq)
      rw [operands_of_ne hne]
      exact List.cons_ne_nil _ _

/-- The flat form of a writable shape is the chain of its operands. -/
theorem IsWritable.chain_operands_flat {shape : Shape} (h : shape.IsWritable)
    {operator : Operator} (ha : operator.isAssociative = true) :
    chain operator (shape.flat.operands operator) = shape.flat := by
  have single (hne : shape.operator? ≠ some operator) :
      chain operator (shape.flat.operands operator) = shape.flat := by
    rw [operands_of_ne (by rwa [operator?_flat])]
    rfl
  cases h with
  | literal => exact single (by simp [operator?])
  | group =>
    refine single ?_
    intro heq
    cases heq
    exact absurd ha (by decide)
  | add hlen hparts =>
    by_cases heq : operator = .add
    · subst heq
      rw [flat_associative .add rfl, operands_compound_self, chain_of_two_le]
      exact two_le_length_flatMap hlen fun part hp =>
        (hparts part hp).hasArity.1.operands_flat_ne_nil rfl
    · exact single fun h => heq (Option.some_inj.mp h).symm
  | mul hlen hparts _ =>
    by_cases heq : operator = .mul
    · subst heq
      rw [flat_associative .mul rfl, operands_compound_self, chain_of_two_le]
      exact two_le_length_flatMap hlen fun part hp =>
        (hparts part hp).hasArity.1.operands_flat_ne_nil rfl
    · exact single fun h => heq (Option.some_inj.mp h).symm

/-- The levels of the grammar at which a writable shape is written.  The terms
of the sum, or the factors of the product, are those of the flat form. -/
theorem IsWritable.derives {shape : Shape} (h : shape.IsWritable) :
    Grammar.IsSum shape.written (shape.flat.operands .add) ∧
      (shape.operator? ≠ some .add →
        Grammar.IsProduct shape.written (shape.flat.operands .mul)) := by
  induction h with
  | @literal text h =>
    -- literals and groups are factors, and as such also products and sums
    have hf := Grammar.IsFactor.literal h
    rw [String.ofList_toList] at hf
    rw [written_literal, flat_literal]
    exact ⟨.one (.one hf), fun _ => .one hf⟩
  | @group part h ih =>
    have hf := Grammar.IsFactor.group ih.1
    rw [h.chain_operands_flat rfl] at hf
    rw [written, flat_group, List.map_singleton, List.map_singleton, List.flatten_singleton]
    exact ⟨.one (.one hf), fun _ => .one hf⟩
  | @add parts hlen _ ih =>
    rw [written_compound (by decide), flat_associative .add rfl, operands_compound_self]
    have hne : parts ≠ [] := List.length_pos_iff.mp (by omega)
    exact ⟨intercalate_induct Grammar.IsSum.append hne fun part hp => (ih part hp).1,
      fun h => absurd rfl h⟩
  | @mul parts hlen hparts hne ih =>
    rw [written_compound (by decide)]
    -- no part is a sum, so all of them are products
    have hp : Grammar.IsProduct (['*'].intercalate (parts.map written))
        (parts.flatMap (·.flat.operands .mul)) :=
      intercalate_induct Grammar.IsProduct.append (List.length_pos_iff.mp (by omega))
        fun part hp => (ih part hp).2 (hne part hp)
    have hlen' : 2 ≤ (parts.flatMap (·.flat.operands .mul)).length :=
      two_le_length_flatMap hlen fun part hp => (hparts part hp).hasArity.1.operands_flat_ne_nil rfl
    rw [flat_associative .mul rfl, operands_compound_self, operands_of_ne (by simp [operator?]),
      ← chain_of_two_le hlen']
    exact ⟨.one hp, fun _ => hp⟩

/-- A writable shape is written as a formula of its flat form. -/
theorem IsWritable.isFormula {shape : Shape} (h : shape.IsWritable) :
    Grammar.IsFormula shape.written shape.flat :=
  ⟨_, h.derives.1, (h.chain_operands_flat rfl).symm⟩

/-! ### Formulas are written shapes -/

theorem written_chain {operator : Operator} (h : operator ≠ .group) (parts : List Shape) :
    (chain operator parts).written = operator.symbol.toList.intercalate (parts.map written) := by
  match parts with
  | [] => exact written_compound h []
  | [part] => rw [List.map_singleton, List.intercalate_singleton, chain]
  | _ :: _ :: _ => exact written_compound h _

/-- Flat and writable: the shapes that formulas have. -/
structure IsNormal (shape : Shape) : Prop where
  isFlat : shape.IsFlat
  isWritable : shape.IsWritable

theorem IsNormal.of_mem {operator : Operator} {parts : List Shape}
    (h : (compound operator parts).IsNormal) {part : Shape} (hp : part ∈ parts) :
    part.IsNormal :=
  ⟨h.isFlat.of_mem hp, h.isWritable.of_mem hp⟩

/-- The order of operands does not matter to any of this. -/
theorem IsNormal.perm {operator : Operator} {parts parts' : List Shape}
    (h : (compound operator parts).IsNormal) (hperm : parts'.Perm parts) :
    (compound operator parts').IsNormal := by
  constructor
  · cases h.isFlat with
    | compound hparts hne =>
      exact .compound (fun part hp => hparts part (hperm.subset hp))
        fun ha part hp => hne ha part (hperm.subset hp)
  · cases h.isWritable with
    | group hpart =>
      rw [List.perm_singleton.mp hperm]
      exact .group hpart
    | add htwo hparts =>
      exact .add (hperm.length_eq ▸ htwo) fun part hp => hparts part (hperm.subset hp)
    | mul htwo hparts hne =>
      exact .mul (hperm.length_eq ▸ htwo) (fun part hp => hparts part (hperm.subset hp))
        fun part hp => hne part (hperm.subset hp)

theorem IsNormal.flat {shape : Shape} (h : shape.IsNormal) : shape.flat = shape := h.isFlat.flat

/-- A chain of normal shapes of other operators is normal. -/
theorem isNormal_chain {operator : Operator} {parts : List Shape} (hne : parts ≠ [])
    (hparts : ∀ part ∈ parts, part.IsNormal) (hown : ∀ part ∈ parts, part.operator? ≠ some operator)
    (hcompound : 2 ≤ parts.length → (compound operator parts).IsWritable) :
    (chain operator parts).IsNormal :=
  chain_induct hne hparts fun hlen =>
    ⟨.compound (fun part hp => (hparts part hp).isFlat) fun _ => hown, hcompound hlen⟩

end Shape

namespace Grammar

theorem IsProduct.shapes_ne_nil {s : List Char} {fs : List Shape} (h : IsProduct s fs) :
    fs ≠ [] := by
  cases h <;> simp

theorem IsSum.shapes_ne_nil {s : List Char} {ts : List Shape} (h : IsSum s ts) : ts ≠ [] := by
  cases h <;> simp

theorem written_steps : Steps (fun s f => f.written = s)
    (fun s fs => ['*'].intercalate (fs.map Shape.written) = s)
    (fun s ts => ['+'].intercalate (ts.map Shape.written) = s) where
  literal _ := by rw [Shape.written_literal, String.toList_ofList]
  group {s terms} _ h := by
    rw [Shape.written, List.map_singleton, List.flatten_singleton,
      Shape.written_chain (by decide)]
    exact congrArg (fun s => '(' :: s ++ [')']) h
  factor _ h := by rw [List.map_singleton, List.intercalate_singleton, h]
  times _ hs h ht := by
    rw [List.map_cons, List.intercalate_cons_of_ne_nil (by simp [h.shapes_ne_nil]), hs, ht,
      List.append_assoc, List.singleton_append]
  product {_ fs} _ h := by
    rw [List.map_singleton, List.intercalate_singleton, Shape.written_chain (by decide)]
    exact h
  plus {_ _ fs ts} _ hs h ht := by
    rw [List.map_cons, List.intercalate_cons_of_ne_nil (by simp [h.shapes_ne_nil]),
      Shape.written_chain (by decide), ht, List.append_assoc, List.singleton_append]
    exact congrArg (· ++ '+' :: _) hs

/-- A formula is its shape, written down. -/
theorem IsFormula.written {s : List Char} {shape : Shape} (h : IsFormula s shape) :
    shape.written = s := by
  obtain ⟨terms, hterms, rfl⟩ := h
  rw [Shape.written_chain (by decide)]
  exact written_steps.ofSum hterms

/-- A product of factors that are neither sums nor products is normal, and no
sum. -/
theorem isNormal_product {fs : List Shape} (hne : fs ≠ []) (h : ∀ f ∈ fs,
    f.IsNormal ∧ f.operator? ≠ some .add ∧ f.operator? ≠ some .mul) :
    (Shape.chain .mul fs).IsNormal ∧ (Shape.chain .mul fs).operator? ≠ some .add := by
  constructor
  · exact Shape.isNormal_chain hne (fun f hf => (h f hf).1) (fun f hf => (h f hf).2.2)
      fun hlen => .mul hlen (fun f hf => (h f hf).1.isWritable) fun f hf => (h f hf).2.1
  · exact Shape.chain_induct (motive := fun shape => shape.operator? ≠ some .add) hne
      (fun f hf => (h f hf).2.1) fun _ => by simp [Shape.operator?]

theorem isNormal_sum {ts : List Shape} (hne : ts ≠ [])
    (h : ∀ t ∈ ts, t.IsNormal ∧ t.operator? ≠ some .add) : (Shape.chain .add ts).IsNormal :=
  Shape.isNormal_chain hne (fun t ht => (h t ht).1) (fun t ht => (h t ht).2)
    fun hlen => .add hlen fun t ht => (h t ht).1.isWritable

theorem isNormal_steps :
    Steps (fun _ f => f.IsNormal ∧ f.operator? ≠ some .add ∧ f.operator? ≠ some .mul)
      (fun _ fs => ∀ f ∈ fs, f.IsNormal ∧ f.operator? ≠ some .add ∧ f.operator? ≠ some .mul)
      (fun _ ts => ∀ t ∈ ts, t.IsNormal ∧ t.operator? ≠ some .add) where
  literal h :=
    ⟨⟨.literal _, .literal (by rwa [String.toList_ofList])⟩, by simp [Shape.operator?]⟩
  group hs h := by
    have hterms := isNormal_sum hs.shapes_ne_nil h
    refine ⟨⟨.compound ?_ ?_, .group hterms.isWritable⟩, by simp [Shape.operator?]⟩
    · simpa using hterms.isFlat
    · exact fun ha => absurd ha (by decide)
  factor _ h := by simpa using h
  times _ hs _ ht := by simpa using ⟨hs, ht⟩
  product h hfs := by simpa using isNormal_product h.shapes_ne_nil hfs
  plus h hfs _ hts := by simpa using ⟨isNormal_product h.shapes_ne_nil hfs, hts⟩

/-- The shapes of formulas are normal. -/
theorem IsFormula.isNormal {s : List Char} {shape : Shape} (h : IsFormula s shape) :
    shape.IsNormal := by
  obtain ⟨terms, hterms, rfl⟩ := h
  exact isNormal_sum hterms.shapes_ne_nil (isNormal_steps.ofSum hterms)

end Grammar

end FormulaEditor
