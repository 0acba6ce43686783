/-
Where a formula is cut.

Scanning for an unnested character passes over whole formulas without noticing
their parentheses (`Text.Skips`), so the one place at which a formula is cut is
the one that the grammar asks for: after the first term of a sum, after the
first factor of a product, and in a group not at all.

* `Text.ReadsAs` — the shape that cutting again and again gives a text;
* `Text.ReadsAs.unique` — there is no more than one;
* `Grammar.IsFormula.readsAs` — a formula reads as its shape;
* `Grammar.IsFormula.unique` — and so it has no other shape;
* `Text.readsAs_iff` — nothing but a formula reads as anything.
-/
import FormulaEditor.Proofs.Acceptance
import FormulaEditor.Proofs.Shape
import FormulaEditor.Text.Nesting

namespace FormulaEditor

namespace Text

open Grammar

/-! ### Passing over formulas -/

/-- Scanning for a character goes on behind `s` as if it had started there. -/
def Skips (target : Char) (depth : Nat) (s : List Char) : Prop :=
  ∀ rest, firstUnnestedFrom target depth (s ++ rest)
    = (firstUnnestedFrom target depth rest).map (· + s.length)

namespace Skips

variable {target : Char} {depth : Nat} {s t : List Char}

theorem nil (target : Char) (depth : Nat) : Skips target depth [] := by
  intro rest
  simp

theorem append (hs : Skips target depth s) (ht : Skips target depth t) :
    Skips target depth (s ++ t) := by
  intro rest
  rw [List.append_assoc, hs, ht, Option.map_map]
  congr 1
  funext i
  simp only [Function.comp_apply, List.length_append]
  omega

/-- A character that is not looked for here and is no parenthesis. -/
theorem cons {c : Char} (hc : ¬(c = target ∧ depth = 0)) (hp : depthAfter depth c = depth)
    (h : Skips target depth s) : Skips target depth (c :: s) := by
  intro rest
  rw [List.cons_append, firstUnnestedFrom, if_neg hc, hp, h, Option.map_map]
  congr 1

/-- Parentheses around what can be passed over. -/
theorem wrap (hopen : '(' ≠ target) (h : Skips target (depth + 1) s) :
    Skips target depth ('(' :: s ++ [')']) := by
  intro rest
  have hin : depthAfter depth '(' = depth + 1 := rfl
  have hout : depthAfter (depth + 1) ')' = depth := rfl
  rw [List.append_assoc, List.cons_append, firstUnnestedFrom, if_neg fun h => hopen h.1, hin, h,
    List.singleton_append, firstUnnestedFrom, if_neg fun h => Nat.succ_ne_zero _ h.2, hout,
    Option.map_map, Option.map_map]
  congr 1
  funext i
  simp only [Function.comp_apply, List.length_append, List.length_cons, List.length_nil]
  omega

theorem ofPlain (h : ∀ c ∈ s, c ≠ target ∧ c ≠ '(' ∧ c ≠ ')') : Skips target depth s := by
  induction s with
  | nil => exact nil target depth
  | cons c s ih =>
    obtain ⟨hc, hopen, hclose⟩ := h c (List.mem_cons_self ..)
    refine cons (fun hand => hc hand.1) ?_ (ih fun d hd => h d (List.mem_cons_of_mem _ hd))
    rw [depthAfter, if_neg hopen, if_neg hclose]

/-- What is found right behind `s`. -/
theorem firstUnnested_append (h : Skips target 0 s) (rest : List Char) :
    firstUnnested target (s ++ target :: rest) = some s.length := by
  rw [firstUnnested, h, firstUnnestedFrom, if_pos ⟨rfl, rfl⟩, Option.map_some, Nat.zero_add]

theorem firstUnnested_eq_none (h : Skips target 0 s) : firstUnnested target s = none := by
  have := h []
  rwa [List.append_nil] at this

end Skips

/-- Factors hide all operators and closing parentheses, products the plus signs
and closing parentheses, and sums the closing parentheses.  Inside parentheses
all of them hide everything. -/
theorem skips_steps {target : Char} (h : target = '+' ∨ target = '*' ∨ target = ')') :
    Steps (fun s _ => ∀ depth, Skips target depth s)
      (fun s _ => ∀ depth, 0 < depth ∨ target ≠ '*' → Skips target depth s)
      (fun s _ => ∀ depth, 0 < depth ∨ target = ')' → Skips target depth s) where
  literal hl depth := by
    refine Skips.ofPlain ?_
    intro c hc
    have hm := hl.not_isMark hc
    simp only [isMark, List.mem_cons, List.not_mem_nil, or_false, not_or] at hm
    refine ⟨?_, hm.2.2.1, hm.2.2.2.1⟩
    rcases h with rfl | rfl | rfl
    · exact hm.1
    · exact hm.2.1
    · exact hm.2.2.2.1
  group _ hs depth := by
    -- inside the parentheses nothing is looked for
    refine Skips.wrap ?_ (hs (depth + 1) (.inl (Nat.succ_pos _)))
    rcases h with rfl | rfl | rfl <;> decide
  factor _ hs depth _ := hs depth
  times _ hs _ ht depth hd := by
    refine (hs depth).append (Skips.cons ?_ rfl (ht depth hd))
    rcases hd with hd | hne
    · exact fun hand => Nat.ne_of_gt hd hand.2
    · exact fun hand => hne hand.1.symm
  product _ hs depth hd := by
    refine hs depth (hd.imp_right ?_)
    rintro rfl
    decide
  plus _ hs _ ht depth hd := by
    refine (hs depth (hd.imp_right ?_)).append (Skips.cons ?_ rfl (ht depth hd))
    · rintro rfl
      decide
    · rcases hd with hd | rfl
      · exact fun hand => Nat.ne_of_gt hd hand.2
      · exact fun hand => absurd hand.1 (by decide)

/-! ### The cut of a formula -/

/-- A text with an operator or a parenthesis in it is no literal. -/
theorem isLiteral_eq_false {s : List Char} {c : Char} (hc : c ∈ s) (hm : isMark c) :
    Text.isLiteral s = false := by
  refine Bool.eq_false_iff.mpr ?_
  intro h
  exact (isLiteral_iff.mp h).not_isMark hc hm

theorem isGroup_wrap {s : List Char} {terms : List Shape} (h : IsSum s terms) :
    isGroup ('(' :: s ++ [')']) = true := by
  have hs := (skips_steps (.inr (.inr rfl))).ofSum h 0 (.inr rfl)
  rw [List.cons_append, isGroup, hs.firstUnnested_append]
  simp

/-- What goes on after a factor is no group: if it starts with a parenthesis,
then that one is closed before the end. -/
theorem isGroup_append {s t : List Char} {f : Shape} (h : IsFactor s f) (ht : t ≠ []) :
    isGroup (s ++ t) = false := by
  cases h with
  | literal h =>
    obtain ⟨c, s, rfl⟩ := List.exists_cons_of_ne_nil h.ne_nil
    have hc := h.not_isMark (List.mem_cons_self ..)
    rw [List.cons_append, isGroup.eq_2]
    rintro rest hrest
    cases hrest
    exact hc (by simp [isMark])
  | @group s terms h =>
    -- the parenthesis in front is closed where the factor ends
    have hs := (skips_steps (.inr (.inr rfl))).ofSum h 0 (.inr rfl)
    have hpos := List.length_pos_iff.mpr ht
    rw [List.append_assoc, List.cons_append, isGroup, List.singleton_append,
      hs.firstUnnested_append, decide_eq_false_iff_not, Option.some_inj]
    simp only [List.length_append, List.length_cons]
    omega

theorem exists_factor_of_isProduct {s : List Char} {fs : List Shape} (h : IsProduct s fs) :
    ∃ u v f, s = u ++ v ∧ IsFactor u f := by
  cases h with
  | one h => exact ⟨s, [], _, (List.append_nil s).symm, h⟩
  | more h _ => exact ⟨_, _, _, rfl, h⟩

/-- A formula in front of an operator is not all there is, so the text is no
group. -/
theorem isGroup_product_append {s t : List Char} {fs : List Shape} (h : IsProduct s fs)
    (ht : t ≠ []) : isGroup (s ++ t) = false := by
  obtain ⟨u, v, f, rfl, hu⟩ := exists_factor_of_isProduct h
  rw [List.append_assoc]
  exact isGroup_append hu (by simp [ht])

theorem splitPoint_sum {s : List Char} {fs : List Shape} (h : IsProduct s fs) (t : List Char) :
    splitPoint (s ++ '+' :: t) = some (s.length, .add) := by
  have hs := (skips_steps (.inl rfl)).ofProduct h 0 (.inr (by decide))
  rw [splitPoint, hs.firstUnnested_append]

theorem splitPoint_product {s t : List Char} {f : Shape} {fs : List Shape} (h : IsFactor s f)
    (h' : IsProduct t fs) : splitPoint (s ++ '*' :: t) = some (s.length, .mul) := by
  have hall := (skips_steps (.inl rfl)).ofProduct (.more h h') 0 (.inr (by decide))
  have hs := (skips_steps (.inr (.inl rfl))).ofFactor h 0
  rw [splitPoint, hall.firstUnnested_eq_none, hs.firstUnnested_append, Option.map_some]

/-! ### Cutting again and again -/

/-- The shape of a text when it is taken apart at its cuts: first as a literal,
then as a group, and else at its one split point, with chains merged. -/
inductive ReadsAs : List Char → Shape → Prop
  | literal {s : List Char} : isLiteral s = true → ReadsAs s (.literal (String.ofList s))
  | group {s : List Char} {inner : Shape} : isLiteral s = false → isGroup s = true →
      ReadsAs s.tail.dropLast inner → ReadsAs s (.compound .group [inner])
  | split {s : List Char} {i : Nat} {operator : Operator} {left right : Shape} :
      isLiteral s = false → isGroup s = false → splitPoint s = some (i, operator) →
      ReadsAs (s.take i) left → ReadsAs (s.drop (i + 1)) right →
      ReadsAs s (Shape.compound operator [left, right]).flat

/-- Cutting leaves no choice. -/
theorem ReadsAs.unique {s : List Char} {a b : Shape} (ha : ReadsAs s a) (hb : ReadsAs s b) :
    a = b := by
  induction ha generalizing b with
  | literal hl =>
    cases hb with
    | literal => rfl
    | group hl' => simp [hl] at hl'
    | split hl' => simp [hl] at hl'
  | group hl hg _ ih =>
    cases hb with
    | literal hl' => simp [hl] at hl'
    | group _ _ h => rw [ih h]
    | split _ hg' => simp [hg] at hg'
  | split hl hg hs _ _ ihl ihr =>
    cases hb with
    | literal hl' => simp [hl] at hl'
    | group _ hg' => simp [hg] at hg'
    | split _ _ hs' hleft hright =>
      rw [hs, Option.some_inj, Prod.mk.injEq] at hs'
      obtain ⟨rfl, rfl⟩ := hs'
      rw [ihl hleft, ihr hright]

/-- A chain that is cut in front of its second operand and merged again. -/
theorem flat_cons_chain {operator : Operator} {f : Shape} {fs : List Shape}
    (ha : operator.isAssociative = true) (hf : f.IsNormal)
    (hfs : (Shape.chain operator fs).IsNormal) (hne : fs ≠ [])
    (h : ∀ g ∈ f :: fs, g.operator? ≠ some operator) :
    (Shape.compound operator [f, .chain operator fs]).flat = .chain operator (f :: fs) := by
  obtain ⟨hf', hfs'⟩ := List.forall_mem_cons.mp h
  rw [Shape.flat_associative operator ha, List.flatMap_cons, List.flatMap_singleton, hf.flat,
    hfs.flat, Shape.operands_of_ne hf', Shape.operands_chain hfs', Shape.chain_of_two_le]
  · rfl
  · have := List.length_pos_iff.mpr hne
    simp only [List.length_cons]
    omega

theorem ReadsAs.append {s t : List Char} {c : Char} {operator : Operator} {left right : Shape}
    (hc : isMark c) (hg : isGroup (s ++ c :: t) = false)
    (hs : splitPoint (s ++ c :: t) = some (s.length, operator)) (hleft : ReadsAs s left)
    (hright : ReadsAs t right) :
    ReadsAs (s ++ c :: t) (Shape.compound operator [left, right]).flat := by
  refine .split (isLiteral_eq_false (c := c) (by simp) hc) hg hs ?_ ?_
  · rwa [List.take_left]
  · rwa [List.drop_append, List.drop_of_length_le (by omega), Nat.add_sub_cancel_left]

theorem readsAs_steps : Steps ReadsAs (fun s fs => ReadsAs s (.chain .mul fs))
    (fun s ts => ReadsAs s (.chain .add ts)) where
  literal h := .literal (isLiteral_iff.mpr h)
  group h hs := by
    refine .group ?_ (isGroup_wrap h) (by simpa using hs)
    exact isLiteral_eq_false (List.mem_cons_self ..) (by simp [isMark])
  factor _ hs := hs
  times {s t f fs} h hs h' ht := by
    -- cut behind the first factor, the rest is one operand, and merged again
    have hall := isNormal_steps.ofProduct (.more h h')
    have hfs := isNormal_product h'.shapes_ne_nil (isNormal_steps.ofProduct h')
    rw [← flat_cons_chain rfl (hall f (List.mem_cons_self ..)).1 hfs.1 h'.shapes_ne_nil
      fun g hg => (hall g hg).2.2]
    exact .append (by simp [isMark]) (isGroup_append h (by simp)) (splitPoint_product h h') hs ht
  product _ hs := hs
  plus {s t fs ts} h hs h' ht := by
    have hall := isNormal_steps.ofSum (.more h h')
    have hts := isNormal_sum h'.shapes_ne_nil (isNormal_steps.ofSum h')
    rw [← flat_cons_chain rfl (hall _ (List.mem_cons_self ..)).1 hts h'.shapes_ne_nil
      fun g hg => (hall g hg).2]
    exact .append (by simp [isMark]) (isGroup_product_append h (by simp)) (splitPoint_sum h t)
      hs ht

end Text

namespace Grammar

/-- A formula reads as its shape. -/
theorem IsFormula.readsAs {s : List Char} {shape : Shape} (h : IsFormula s shape) :
    Text.ReadsAs s shape := by
  obtain ⟨terms, hterms, rfl⟩ := h
  exact Text.readsAs_steps.ofSum hterms

/-- A text is a formula of no more than one shape. -/
theorem IsFormula.unique {s : List Char} {a b : Shape} (ha : IsFormula s a)
    (hb : IsFormula s b) : a = b :=
  ha.readsAs.unique hb.readsAs

end Grammar

namespace Text

open Grammar

/-! ### What can be cut -/

/-- What is found is the character that was looked for. -/
theorem getElem?_of_firstUnnestedFrom {target : Char} {depth i : Nat} {s : List Char}
    (h : firstUnnestedFrom target depth s = some i) : s[i]? = some target := by
  induction s generalizing depth i with
  | nil => simp [firstUnnestedFrom] at h
  | cons c s ih =>
    rw [firstUnnestedFrom] at h
    split at h
    · next hc =>
      cases h
      rw [List.getElem?_cons_zero, hc.1]
    · obtain ⟨j, hj, rfl⟩ := Option.map_eq_some_iff.mp h
      rw [List.getElem?_cons_succ]
      exact ih hj

/-- A group has its closing parenthesis at the end. -/
theorem isWrapped_of_isGroup {s : List Char} (h : isGroup s = true) : isWrapped s = true := by
  have htwo := two_le_of_isGroup h
  rw [isGroup.eq_def] at h
  split at h
  · next rest =>
    have hlast := getElem?_of_firstUnnestedFrom (of_decide_eq_true h)
    rw [← List.getLast?_eq_getElem?] at hlast
    simp only [isWrapped, htwo, List.getLast?_cons, hlast]
    rfl
  · simp at h

/-- At the split point stands the operator that is applied there. -/
theorem exists_ofChar?_of_splitPoint {s : List Char} {i : Nat} {operator : Operator}
    (h : splitPoint s = some (i, operator)) :
    ∃ c, Operator.ofChar? c = some operator ∧ s = s.take i ++ c :: s.drop (i + 1) := by
  have hfound : ∃ c, Operator.ofChar? c = some operator ∧ s[i]? = some c := by
    rw [splitPoint] at h
    split at h
    · next j hj =>
      cases h
      exact ⟨'+', rfl, getElem?_of_firstUnnestedFrom hj⟩
    · obtain ⟨j, hj, hp⟩ := Option.map_eq_some_iff.mp h
      cases hp
      exact ⟨'*', rfl, getElem?_of_firstUnnestedFrom hj⟩
  obtain ⟨c, hc, hi⟩ := hfound
  obtain ⟨hlt, rfl⟩ := List.getElem?_eq_some_iff.mp hi
  exact ⟨_, hc, by rw [← List.drop_eq_getElem_cons, List.take_append_drop]⟩

theorem exists_of_splitPoint {s : List Char} {i : Nat} {operator : Operator}
    (h : splitPoint s = some (i, operator)) :
    ∃ c, isOperator c = true ∧ s = s.take i ++ c :: s.drop (i + 1) := by
  obtain ⟨c, hc, heq⟩ := exists_ofChar?_of_splitPoint h
  exact ⟨c, by rw [isOperator, hc, Option.isSome_some], heq⟩

/-- What can be taken apart at its cuts is a formula. -/
theorem ReadsAs.isFormula {s : List Char} {shape : Shape} (h : ReadsAs s shape) :
    IsFormula s shape := by
  induction h with
  | literal hl => exact .literal (isLiteral_iff.mp hl)
  | group _ hg _ ih =>
    have := ih.group
    rwa [← eq_of_isWrapped (isWrapped_of_isGroup hg)] at this
  | @split s i operator left right hl hg hs hleft hright ihl ihr =>
    -- the sides make up a formula of some shape, which must be the one at hand
    obtain ⟨c, hc, heq⟩ := exists_of_splitPoint hs
    obtain ⟨shape, hshape⟩ := ihl.append hc ihr
    rw [← heq] at hshape
    rwa [(ReadsAs.split hl hg hs hleft hright).unique hshape.readsAs]

theorem readsAs_iff {s : List Char} {shape : Shape} : ReadsAs s shape ↔ IsFormula s shape :=
  ⟨ReadsAs.isFormula, IsFormula.readsAs⟩

end Text

end FormulaEditor
