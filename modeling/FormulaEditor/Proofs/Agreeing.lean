/-
Computations that agree.

Two computations agree if from states that go together they give the same answer and leave states
that go together, or fail for reasons that go together.  Steps that agree make up computations
that agree, so this is shown step by step.  What is known about a text when it is read is an
example: as long as it is true, it makes no difference to the tree.

* `Alike`, `Agree` — outcomes and computations that go together, and `Agree.bind`;
* `Text.SameTree`, `Text.agree_readSpanWith` — reading from the same tree, with more or less known;
* `Text.treeOf_cases` — what comes of readings that agree;
* `parseKnowing`, `parseKnowing_eq` — so parsing comes to the same.
-/
import FormulaEditor.Proofs.Reading

namespace FormulaEditor

/-- Outcomes that go together: the same answer, or reasons that go together, in states that do. -/
inductive Alike {ε ε' σ σ' α : Type} (R : σ → σ' → Prop) (E : ε → ε' → Prop) :
    EStateM.Result ε σ α → EStateM.Result ε' σ' α → Prop
  | ok {a : α} {s : σ} {s' : σ'} : R s s' → Alike R E (.ok a s) (.ok a s')
  | error {e : ε} {e' : ε'} {s : σ} {s' : σ'} :
      E e e' → R s s' → Alike R E (.error e s) (.error e' s')

/-- From states that go together the computations have outcomes that go together. -/
def Agree {ε ε' σ σ' α : Type} (R : σ → σ' → Prop) (E : ε → ε' → Prop) (x : EStateM ε σ α)
    (y : EStateM ε' σ' α) : Prop :=
  ∀ s s', R s s' → Alike R E (x.run s) (y.run s')

namespace Agree

variable {ε ε' σ σ' α β : Type} {R : σ → σ' → Prop} {E : ε → ε' → Prop} {x : EStateM ε σ α}
  {y : EStateM ε' σ' α} {f : α → EStateM ε σ β} {g : α → EStateM ε' σ' β}

/-- The two ways in which the computations can end. -/
theorem cases (h : Agree R E x y) {s : σ} {s' : σ'} (hs : R s s') :
    (∃ a s₁ s₁', x.run s = .ok a s₁ ∧ y.run s' = .ok a s₁' ∧ R s₁ s₁') ∨
    (∃ e e' s₁ s₁', x.run s = .error e s₁ ∧ y.run s' = .error e' s₁' ∧ E e e' ∧ R s₁ s₁') := by
  have halike := h s s' hs
  generalize hrun : x.run s = outcome, hrun' : y.run s' = outcome' at halike
  cases halike with
  | ok hrel => exact .inl ⟨_, _, _, rfl, rfl, hrel⟩
  | error he hrel => exact .inr ⟨_, _, _, _, rfl, rfl, he, hrel⟩

protected theorem pure (a : α) : Agree R E (pure a) (pure a) := fun _ _ hs => .ok hs

protected theorem throw {e : ε} {e' : ε'} (h : E e e') :
    Agree R E (throw e : EStateM ε σ α) (throw e') := fun _ _ hs => .error h hs

/-- One step after another. -/
protected theorem bind (hx : Agree R E x y) (hf : ∀ a, Agree R E (f a) (g a)) :
    Agree R E (x >>= f) (y >>= g) := by
  intro s s' hs
  rcases hx.cases hs with ⟨a, s₁, s₁', hrun, hrun', hrel⟩ | ⟨e, e', s₁, s₁', hrun, hrun', he, hrel⟩
  · rw [run_bind_ok hrun, run_bind_ok hrun']
    exact hf a s₁ s₁' hrel
  · rw [run_bind_error hrun, run_bind_error hrun']
    exact .error he hrel

end Agree

namespace Text

open Reading

variable {source : Array Char} {span : Span}

/-- The same tree, and true answers about the text, which need not be the same ones. -/
structure SameTree (source : Array Char) (progress progress' : Progress) : Prop where
  tree : progress'.tree = progress.tree
  sound : progress.verdicts.IsSound source
  sound' : progress'.verdicts.IsSound source

theorem agree_check (h : span.Fits source) :
    Agree (SameTree source) Eq (check source span) (check source span) := by
  intro progress progress' hsame
  obtain ⟨known, hknown, hrun⟩ := run_check h hsame.sound
  obtain ⟨known', hknown', hrun'⟩ := run_check h hsame.sound'
  rw [hrun, hrun']
  exact .ok ⟨hsame.tree, hknown, hknown'⟩

/-- A change of the tree, as a step of both computations. -/
theorem agree_editWith {ε ε' α : Type} {E : ε → ε' → Prop} {broken : EditError → ε}
    {broken' : EditError → ε'} (h : ∀ cause, E (broken cause) (broken' cause)) (change : Edit α) :
    Agree (SameTree source) E (editWith broken change) (editWith broken' change) := by
  rintro ⟨t, known⟩ ⟨t', known'⟩ ⟨htree, hknown, hknown'⟩
  obtain rfl : t' = t := htree
  simp only [editWith, EStateM.run]
  cases change t' with
  | ok a t => exact .ok ⟨rfl, hknown, hknown'⟩
  | error cause t => exact .error (h cause) ⟨rfl, hknown, hknown'⟩

theorem agree_edit {α : Type} (change : Edit α) :
    Agree (SameTree source) Eq (edit change) (edit change) :=
  agree_editWith (fun _ => rfl) change

/-- What is known about the text does not matter to what is read. -/
theorem agree_readSpanWith (finish : Handle → Edit Unit) : span.Fits source →
    Agree (SameTree source) Eq (readSpanWith finish source span)
      (readSpanWith finish source span) := by
  fun_induction readSpanWith finish source span with
  | case1 span s ihinside ihbefore ihafter =>
    intro h
    refine .bind (agree_check h) fun verdict => ?_
    split
    · exact .throw rfl
    · split
      · exact agree_edit _
      · split
        · next hg =>
          refine .bind (agree_edit _) fun top => ?_
          refine .bind (ihinside hg (h.inside (two_le_of_isGroup hg))) fun inner => ?_
          exact .bind (agree_edit _) fun _ => .pure top
        · split
          · exact .throw rfl
          · next offset operator hs =>
            have hlt := splitPoint_lt hs
            refine .bind (agree_edit _) fun top => ?_
            refine .bind (ihbefore offset operator hs (h.before (Nat.le_of_lt hlt))) fun left => ?_
            refine .bind (ihafter offset operator hs (h.after hlt)) fun right => ?_
            refine .bind (agree_edit _) fun _ => .bind (agree_edit _) fun _ => ?_
            exact .bind (agree_edit _) fun _ => .pure top

theorem agree_readText (finish : Handle → Edit Unit) :
    Agree (SameTree source) Eq (readText finish source) (readText finish source) :=
  .bind (agree_readSpanWith finish (.whole source)) fun _ => agree_edit _

/-- Readings that agree make the same tree, or fail for reasons that go together. -/
theorem treeOf_cases {ε ε' : Type} {E : ε → ε' → Prop} {x : EStateM ε Progress Unit}
    {y : EStateM ε' Progress Unit} (h : Agree (SameTree source) E x y) {known known' : Verdicts}
    (hknown : known.IsSound source) (hknown' : known'.IsSound source) :
    (∃ t, treeOf known x = .ok t ∧ treeOf known' y = .ok t) ∨
      ∃ e e', treeOf known x = .error e ∧ treeOf known' y = .error e' ∧ E e e' := by
  have hsame : SameTree source ⟨.empty 0, known⟩ ⟨.empty 0, known'⟩ := ⟨rfl, hknown, hknown'⟩
  rw [treeOf, treeOf]
  rcases h.cases hsame with ⟨_, p, p', hrun, hrun', hrel⟩ | ⟨e, e', p, p', hrun, hrun', he, _⟩
  · rw [hrun, hrun']
    exact .inl ⟨p.tree, rfl, congrArg Except.ok hrel.tree⟩
  · rw [hrun, hrun']
    exact .inr ⟨e, e', rfl, rfl, he⟩

end Text

open Text

/-- Reads a text into a tree as `parse` does, when something is known about it already. -/
def parseKnowing (known : Verdicts) (text : String) : Except ParseError Tree :=
  parseFrom Edit.flatten known text

/-- What is known about the text does not matter to what it is parsed into. -/
theorem parseKnowing_eq {text : String} {known : Verdicts}
    (h : known.IsSound (withoutSpaces text).toArray) : parseKnowing known text = parse text := by
  rcases treeOf_cases (agree_readText Edit.flatten) h (Verdicts.isSound_empty _) with
    ⟨t, hknowing, hparse⟩ | ⟨e, _, hknowing, hparse, rfl⟩
  · exact hknowing.trans hparse.symm
  · exact hknowing.trans hparse.symm

end FormulaEditor
