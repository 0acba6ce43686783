/-
What the acceptance rule accepts.

The rule may cut a text at any operator, also inside parentheses, and takes
parentheses off without looking whether they match.  It accepts the formulas of
the grammar nevertheless, and no other text (`Text.accepts_iff`).  Remembering
answers changes nothing about them (`Text.gives_acceptsSpan`): as long as what is
known about the spans of a text is true of it, an answer about a span is the one
of the rule, and what is known afterwards is true as well.
-/
import FormulaEditor.Proofs.Grammar

namespace FormulaEditor

namespace Text

open Grammar

/-! ### Cuts -/

/-- There is an operator at every cut. -/
theorem exists_of_mem_cutsAfter {before : Char} {offset i : Nat} {s : List Char}
    (h : i ∈ cutsAfter before offset s) :
    ∃ l c r, s = l ++ c :: r ∧ i = offset + l.length ∧ isOperator c = true := by
  fun_induction cutsAfter before offset s with
  | case1 before offset c next rest others hc ih =>
    rcases List.mem_cons.mp h with rfl | h
    · -- the first character is a cut itself
      simp only [Bool.and_eq_true] at hc
      exact ⟨[], c, next :: rest, rfl, rfl, hc.1.1⟩
    · obtain ⟨l, d, r, hs, rfl, hd⟩ := ih h
      refine ⟨c :: l, d, r, by rw [hs, List.cons_append], ?_, hd⟩
      simp only [List.length_cons]
      omega
  | case2 before offset c next rest others _ ih =>
    obtain ⟨l, d, r, hs, rfl, hd⟩ := ih h
    refine ⟨c :: l, d, r, by rw [hs, List.cons_append], ?_, hd⟩
    simp only [List.length_cons]
    omega
  | case3 => simp at h

theorem exists_of_mem_cuts {s : List Char} {i : Nat} (h : i ∈ cuts s) :
    ∃ l c r, s = l ++ c :: r ∧ i = l.length ∧ isOperator c = true := by
  match s, h with
  | first :: rest, h =>
    obtain ⟨l, c, r, rfl, rfl, hc⟩ := exists_of_mem_cutsAfter h
    refine ⟨first :: l, c, r, rfl, ?_, hc⟩
    simp only [List.length_cons]
    omega

/-- An operator between characters that are none is a cut. -/
theorem mem_cutsAfter {before c next : Char} {l r : List Char} (offset : Nat)
    (hbefore : isOperator ((before :: l).getLast (by simp)) = false) (hc : isOperator c = true)
    (hnext : isOperator next = false) :
    offset + l.length ∈ cutsAfter before offset (l ++ c :: next :: r) := by
  induction l generalizing before offset with
  | nil =>
    rw [List.getLast_singleton] at hbefore
    simp [cutsAfter, hbefore, hc, hnext]
  | cons x l ih =>
    -- the scan moves on behind `x`, whether or not there is a cut
    rw [List.getLast_cons (by simp)] at hbefore
    have hlater := ih (offset + 1) hbefore
    obtain ⟨y, rest, hl⟩ : ∃ y rest, l ++ c :: next :: r = y :: rest := by
      cases l <;> simp
    rw [List.cons_append, hl, cutsAfter, ← hl]
    rw [show offset + (x :: l).length = offset + 1 + l.length by
      simp only [List.length_cons]; omega]
    split
    · exact List.mem_cons_of_mem _ hlater
    · exact hlater

/-- An operator between formulas is a cut. -/
theorem mem_cuts {s t : List Char} {c : Char} (hs : HasEnds s) (hc : isOperator c = true)
    (ht : HasEnds t) : s.length ∈ cuts (s ++ c :: t) := by
  obtain ⟨last, hlast, hl⟩ := hs.last
  obtain ⟨next, hnext, hn⟩ := ht.head
  obtain ⟨r, rfl⟩ := List.head?_eq_some_iff.mp hnext
  match s, hlast with
  | first :: l, hlast =>
    rw [List.getLast?_eq_some_getLast (by simp), Option.some_inj] at hlast
    have := mem_cutsAfter (r := r) 1 (hlast ▸ hl) hc hn
    rw [Nat.add_comm] at this
    exact this

/-! ### The rule and the grammar -/

theorem accepts_iff_splits {s : List Char} : accepts s = true ↔
    isLiteral s = true ∨ ∃ parts ∈ splits s, ∀ part ∈ parts, accepts part = true := by
  rw [accepts_eq, Bool.or_eq_true, List.any_eq_true]
  simp only [List.all_eq_true]

theorem accepts_append {s t : List Char} {c : Char} (hs : HasEnds s) (hc : isOperator c = true)
    (ht : HasEnds t) (has : accepts s = true) (hat : accepts t = true) :
    accepts (s ++ c :: t) = true := by
  refine accepts_iff_splits.mpr (.inr ⟨[s, t], ?_, by simp [has, hat]⟩)
  refine List.mem_append_right _ (List.mem_map.mpr ⟨s.length, mem_cuts hs hc ht, ?_⟩)
  simp

theorem accepts_steps : Steps (fun s _ => accepts s = true) (fun s _ => accepts s = true)
    (fun s _ => accepts s = true) where
  literal h := accepts_iff_splits.mpr (.inl (isLiteral_iff.mpr h))
  group {s _} _ h := by
    refine accepts_iff_splits.mpr (.inr ⟨[s], List.mem_append_left _ ?_, by simp [h]⟩)
    have hw : isWrapped ('(' :: s ++ [')']) = true := by
      simp [isWrapped, List.getLast?_cons]
    rw [if_pos hw]
    simp
  factor _ h := h
  times h hs h' ht := accepts_append h.hasEnds (by decide) h'.hasEnds hs ht
  product _ h := h
  plus h hs h' ht := accepts_append h.hasEnds (by decide) h'.hasEnds hs ht

/-- What is between the parentheses of a wrapped text. -/
theorem eq_of_isWrapped {s : List Char} (h : isWrapped s = true) :
    s = '(' :: s.tail.dropLast ++ [')'] := by
  have htwo := two_le_of_isWrapped h
  simp only [isWrapped, Bool.and_eq_true, decide_eq_true_eq] at h
  obtain ⟨rest, rfl⟩ := List.head?_eq_some_iff.mp h.1.2
  have hlast := h.2
  cases rest with
  | nil => simp at htwo
  | cons c rest =>
    rw [List.getLast?_cons_cons, List.getLast?_eq_some_getLast (by simp), Option.some_inj] at hlast
    rw [List.tail_cons, List.cons_append, ← hlast, List.dropLast_concat_getLast]

theorem isFormula_of_accepts {s : List Char} (h : accepts s = true) :
    ∃ shape, IsFormula s shape := by
  rcases accepts_iff_splits.mp h with hl | ⟨parts, hparts, hall⟩
  · exact ⟨_, .literal (isLiteral_iff.mp hl)⟩
  · have ih : ∀ part ∈ parts, ∃ shape, IsFormula part shape := by
      intro part hp
      have := length_lt_of_mem_splits hparts hp
      exact isFormula_of_accepts (hall part hp)
    rcases List.mem_append.mp hparts with hw | hc
    · -- parentheses around a formula
      split at hw
      · next hwrapped =>
        rw [List.mem_singleton.mp hw] at ih
        obtain ⟨inner, hinner⟩ := ih _ (List.mem_singleton_self _)
        rw [eq_of_isWrapped hwrapped]
        exact ⟨_, hinner.group⟩
      · simp at hw
    · -- an operator with a formula on either side
      obtain ⟨i, hi, rfl⟩ := List.mem_map.mp hc
      obtain ⟨l, c, r, rfl, rfl, hop⟩ := exists_of_mem_cuts hi
      obtain ⟨a, ha⟩ := ih l (by simp)
      obtain ⟨b, hb⟩ := ih r (by simp)
      exact ha.append hop hb
termination_by s.length

/-- The rule accepts exactly the formulas. -/
theorem accepts_iff {s : List Char} : accepts s = true ↔ ∃ shape, IsFormula s shape := by
  refine ⟨isFormula_of_accepts, ?_⟩
  rintro ⟨_, terms, hterms, rfl⟩
  exact accepts_steps.ofSum hterms

end Text

/-! ### Parts of a span -/

namespace Span

variable {source : Array Char} {span : Span}

/-- The span lies within the text. -/
structure Fits (source : Array Char) (span : Span) : Prop where
  start_le : span.start ≤ span.stop
  stop_le : span.stop ≤ source.size

theorem chars_eq (source : Array Char) (span : Span) :
    span.chars source = (source.toList.drop span.start).take span.length := by
  rw [chars, Array.toList_extract, List.extract_eq_take_drop, length]

theorem Fits.length_chars (h : span.Fits source) : (span.chars source).length = span.length := by
  have := h.start_le
  have := h.stop_le
  simp only [chars_eq, length, List.length_take, List.length_drop, Array.length_toList]
  omega

theorem Fits.whole (source : Array Char) : (Span.whole source).Fits source :=
  ⟨Nat.zero_le _, Nat.le_refl _⟩

theorem chars_whole (source : Array Char) : (Span.whole source).chars source = source.toList := by
  simp [chars, whole]

theorem Fits.inside (h : span.Fits source) (htwo : 2 ≤ (span.chars source).length) :
    span.inside.Fits source := by
  have := h.start_le
  have := h.stop_le
  rw [h.length_chars, length] at htwo
  constructor <;> simp only [Span.inside] <;> omega

theorem Fits.before (h : span.Fits source) {i : Nat} (hi : i ≤ (span.chars source).length) :
    (span.before i).Fits source := by
  have := h.start_le
  have := h.stop_le
  rw [h.length_chars, length] at hi
  constructor <;> simp only [Span.before] <;> omega

theorem Fits.after (h : span.Fits source) {i : Nat} (hi : i < (span.chars source).length) :
    (span.after i).Fits source := by
  have := h.start_le
  have := h.stop_le
  rw [h.length_chars, length] at hi
  constructor <;> simp only [Span.after] <;> omega

theorem Fits.chars_inside (h : span.Fits source) :
    span.inside.chars source = (span.chars source).tail.dropLast := by
  have hlen := h.length_chars
  rw [← List.drop_one, List.dropLast_eq_take, List.length_drop, hlen, chars_eq, chars_eq,
    List.drop_take, List.drop_drop, List.take_take]
  simp only [Span.inside, length]
  congr 1
  omega

theorem Fits.chars_before (h : span.Fits source) {i : Nat}
    (hi : i ≤ (span.chars source).length) :
    (span.before i).chars source = (span.chars source).take i := by
  rw [h.length_chars] at hi
  rw [chars_eq, chars_eq, List.take_take, Nat.min_eq_left hi]
  simp [Span.before, length]

theorem chars_after (source : Array Char) (span : Span) (i : Nat) :
    (span.after i).chars source = (span.chars source).drop (i + 1) := by
  rw [chars_eq, chars_eq, List.drop_take, List.drop_drop]
  simp only [Span.after, length]
  congr 1
  omega

end Span

namespace Text

/-- The parts of a span hold the parts of its text. -/
theorem chars_spanSplits {source : Array Char} {span : Span} (h : span.Fits source) :
    (spanSplits source span).map (·.map (·.chars source)) = splits (span.chars source) := by
  rw [spanSplits, splits, List.map_append, List.map_map]
  congr 1
  · split <;> simp [h.chars_inside]
  · refine List.map_congr_left ?_
    intro i hi
    have := (cuts_bounds hi).2
    simp [h.chars_before (i := i) (by omega), Span.chars_after]

theorem fits_of_mem_spanSplits {source : Array Char} {span part : Span} {parts : List Span}
    (h : span.Fits source) (hs : parts ∈ spanSplits source span) (hp : part ∈ parts) :
    part.Fits source := by
  rcases List.mem_append.mp hs with hw | hc
  · split at hw
    · next hwrapped =>
      rw [List.mem_singleton.mp hw, List.mem_singleton] at hp
      exact hp ▸ h.inside (two_le_of_isWrapped hwrapped)
    · simp at hw
  · obtain ⟨i, hi, rfl⟩ := List.mem_map.mp hc
    have := (cuts_bounds hi).2
    simp only [List.mem_cons, List.not_mem_nil, or_false] at hp
    rcases hp with rfl | rfl
    · exact h.before (by omega)
    · exact h.after (by omega)

/-! ### Remembered answers -/

/-- What is known about the spans of a text is true. -/
def Verdicts.IsSound (source : Array Char) (known : Verdicts) : Prop :=
  ∀ (span : Span) (verdict : Bool), known[span]? = some verdict →
    verdict = accepts (span.chars source)

/-- Nothing known is nothing wrong. -/
theorem Verdicts.isSound_empty (source : Array Char) : Verdicts.IsSound source ∅ := by
  simp [Verdicts.IsSound]

/-- One more true answer. -/
theorem Verdicts.IsSound.insert {source : Array Char} {known : Verdicts}
    (h : known.IsSound source) (span : Span) :
    Verdicts.IsSound source (Std.HashMap.insert known span (accepts (span.chars source))) := by
  intro other verdict ho
  rw [Std.HashMap.getElem?_insert] at ho
  split at ho
  · next heq =>
    rw [← eq_of_beq heq]
    exact (Option.some_inj.mp ho).symm
  · exact h other verdict ho

/-- Nothing is forgotten, and no answer changes. -/
def Verdicts.Grows (known known' : Verdicts) : Prop :=
  ∀ (span : Span) (verdict : Bool), known[span]? = some verdict → known'[span]? = some verdict

theorem run_memoised_of_some {known : Verdicts} {span : Span} {verdict : Bool}
    {answer : StateM Verdicts Bool} (h : known[span]? = some verdict) :
    (memoised span answer).run known = (verdict, known) := by
  simp only [memoised, StateT.run_bind, StateT.run_get, pure_bind, h]
  rfl

theorem run_memoised_of_none {known : Verdicts} {span : Span} {answer : StateM Verdicts Bool}
    (h : known[span]? = none) : (memoised span answer).run known =
      ((answer.run known).1, (answer.run known).2.insert span (answer.run known).1) := by
  simp only [memoised, StateT.run_bind, StateT.run_get, pure_bind, h]
  rfl

/-- What is new is about spans that lie within the text. -/
def Verdicts.LearnsWithin (source : Array Char) (known known' : Verdicts) : Prop :=
  ∀ (span : Span) (verdict : Bool), known'[span]? = some verdict →
    known[span]? = some verdict ∨ span.Fits source

/-- The computation gives this answer, and learns nothing wrong on the way. -/
def Gives (source : Array Char) (answer : StateM Verdicts Bool) (verdict : Bool) : Prop :=
  ∀ known : Verdicts, known.IsSound source → ∃ known' : Verdicts,
    answer.run known = (verdict, known') ∧ known'.IsSound source ∧ known.Grows known' ∧
    known.LearnsWithin source known'

namespace Gives

variable {source : Array Char}

protected theorem pure (verdict : Bool) : Gives source (pure verdict) verdict :=
  fun known h => ⟨known, rfl, h, fun _ _ h => h, fun _ _ h => .inl h⟩

/-- One answer, and then another one that may depend on it. -/
protected theorem bind {x : StateM Verdicts Bool} {f : Bool → StateM Verdicts Bool} {a b : Bool}
    (hx : Gives source x a) (hf : Gives source (f a) b) : Gives source (x >>= f) b := by
  intro known h
  obtain ⟨known', hrun, h', hgrows, hlearns⟩ := hx known h
  obtain ⟨known'', hrun', h'', hgrows', hlearns'⟩ := hf known' h'
  refine ⟨known'', ?_, h'', fun span verdict hs => hgrows' _ _ (hgrows _ _ hs),
    fun span verdict hs => (hlearns' _ _ hs).elim (hlearns _ _) .inr⟩
  rw [StateT.run_bind, hrun]
  exact hrun'

variable {α : Type} {f : α → StateM Verdicts Bool} {g : α → Bool}

protected theorem anyM {l : List α} (h : ∀ a ∈ l, Gives source (f a) (g a)) :
    Gives source (l.anyM f) (l.any g) := by
  induction l with
  | nil => exact Gives.pure false
  | cons a l ih =>
    have hrest := ih fun b hb => h b (List.mem_cons_of_mem _ hb)
    refine (h a (List.mem_cons_self ..)).bind ?_
    rw [List.any_cons]
    cases g a with
    | true => exact Gives.pure true
    | false => exact hrest

protected theorem allM {l : List α} (h : ∀ a ∈ l, Gives source (f a) (g a)) :
    Gives source (l.allM f) (l.all g) := by
  induction l with
  | nil => exact Gives.pure true
  | cons a l ih =>
    have hrest := ih fun b hb => h b (List.mem_cons_of_mem _ hb)
    refine (h a (List.mem_cons_self ..)).bind ?_
    rw [List.all_cons]
    cases g a with
    | true => exact hrest
    | false => exact Gives.pure false

/-- A true answer may be remembered. -/
protected theorem memoised {span : Span} {answer : StateM Verdicts Bool}
    (hfits : span.Fits source) (h : Gives source answer (accepts (span.chars source))) :
    Gives source (memoised span answer) (accepts (span.chars source)) := by
  intro known hknown
  cases hs : known[span]? with
  | some verdict =>
    rw [run_memoised_of_some hs]
    exact ⟨known, by rw [hknown span verdict hs], hknown, fun _ _ h => h, fun _ _ h => .inl h⟩
  | none =>
    obtain ⟨known', hanswer, hknown', hgrows, hlearns⟩ := h known hknown
    rw [run_memoised_of_none hs, hanswer]
    refine ⟨_, rfl, hknown'.insert span, ?_, ?_⟩
    · intro other verdict ho
      rw [Std.HashMap.getElem?_insert]
      split
      · -- the span was not known, so it is another one
        next heq =>
        rw [← eq_of_beq heq, hs] at ho
        simp at ho
      · exact hgrows other verdict ho
    · intro other verdict ho
      rw [Std.HashMap.getElem?_insert] at ho
      split at ho
      · next heq => exact .inr (eq_of_beq heq ▸ hfits)
      · exact hlearns other verdict ho

end Gives

/-- An answer about a span is that of the rule, whatever was asked before. -/
theorem gives_acceptsSpan {source : Array Char} (span : Span) (h : span.Fits source) :
    Gives source (acceptsSpan source span) (accepts (span.chars source)) := by
  rw [acceptsSpan_eq]
  refine Gives.memoised h ?_
  rw [accepts_eq, ← chars_spanSplits h, List.any_map]
  cases isLiteral (span.chars source) with
  | true => exact Gives.pure true
  | false =>
    rw [if_neg (by simp), Bool.false_or]
    refine Gives.anyM ?_
    intro parts hs
    simp only [Function.comp_apply, List.all_map]
    refine Gives.allM ?_
    intro part hp
    have := length_lt_of_mem_spanSplits hs hp
    exact gives_acceptsSpan part (fits_of_mem_spanSplits h hs hp)
termination_by span.length

end Text

end FormulaEditor
