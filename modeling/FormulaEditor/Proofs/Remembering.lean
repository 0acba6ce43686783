/-
Remembered answers do not show.

The answers about the parts of a text are remembered, and the search for a cut goes on with what
it has learned on the way, so what is known of a text depends on what has been asked and in which
order.  The answers do not: they are those of the search that remembers nothing.

* `Text.acceptsAfresh` — that search, `Text.acceptsAfresh_eq_accepts` — it follows the rule;
* `Text.Verdicts.IsRight` — what is known are answers that it gives;
* `Text.run_acceptsSpan_of_isRight` — asking gives its answer, and forgets nothing;
* `Text.run_acceptsSpan_afresh` — so it is with all spans, and with parsing.

Design notes: a span that reaches out of a text has no answer, so no right answer is about one.
-/
import FormulaEditor.Proofs.Agreeing

namespace FormulaEditor

namespace Text

open Grammar

variable {source : Array Char} {span : Span} {known known' : Verdicts}

/-- Whether the text of a span is a formula, worked out from the text alone. -/
def acceptsAfresh (source : Array Char) (span : Span) : Bool :=
  isLiteral (span.chars source) || (spanSplits source span).attach.any fun ⟨parts, hs⟩ =>
    parts.attach.all fun ⟨part, hp⟩ =>
      have := length_lt_of_mem_spanSplits hs hp
      acceptsAfresh source part
termination_by span.length

theorem acceptsAfresh_eq (source : Array Char) (span : Span) :
    acceptsAfresh source span = (isLiteral (span.chars source) ||
      (spanSplits source span).any fun parts => parts.all (acceptsAfresh source)) := by
  rw [acceptsAfresh]
  simp

theorem acceptsAfresh_eq_accepts (span : Span) (h : span.Fits source) :
    acceptsAfresh source span = accepts (span.chars source) := by
  have hparts : ∀ parts ∈ spanSplits source span, ∀ part ∈ parts,
      acceptsAfresh source part = accepts (part.chars source) := by
    intro parts hs part hp
    have := length_lt_of_mem_spanSplits hs hp
    exact acceptsAfresh_eq_accepts part (fits_of_mem_spanSplits h hs hp)
  rw [acceptsAfresh_eq, accepts_eq, ← chars_spanSplits h, Bool.eq_iff_iff]
  simp only [Bool.or_eq_true, List.any_map, List.any_eq_true, Function.comp_apply, List.all_map,
    List.all_eq_true]
  refine or_congr_right (exists_congr fun parts => and_congr_right fun hs => ?_)
  exact forall₂_congr fun part hp => by rw [hparts parts hs part hp]
termination_by span.length

/-- What is known are the answers about spans of the text. -/
def Verdicts.IsRight (source : Array Char) (known : Verdicts) : Prop :=
  ∀ (span : Span) (verdict : Bool), known[span]? = some verdict →
    span.Fits source ∧ verdict = acceptsAfresh source span

theorem Verdicts.IsRight.isSound (h : known.IsRight source) : known.IsSound source := by
  intro span verdict hs
  obtain ⟨hfits, hverdict⟩ := h span verdict hs
  exact hverdict.trans (acceptsAfresh_eq_accepts span hfits)

/-- What is learned about a text leaves what is known right. -/
theorem Verdicts.IsRight.of_learnsWithin (h : known.IsRight source)
    (hlearns : known.LearnsWithin source known') (hsound : known'.IsSound source) :
    known'.IsRight source := by
  intro span verdict hs
  have hfits : span.Fits source := (hlearns span verdict hs).elim (fun ho => (h _ _ ho).1) id
  exact ⟨hfits, (hsound span verdict hs).trans (acceptsAfresh_eq_accepts span hfits).symm⟩

/-- Asking about a span gives the answer of the search that remembers nothing. -/
theorem run_acceptsSpan_of_isRight (h : span.Fits source) (hknown : known.IsRight source) :
    ∃ known' : Verdicts, (acceptsSpan source span).run known = (acceptsAfresh source span, known') ∧
      known.Grows known' ∧ known'.IsRight source := by
  obtain ⟨known', hrun, hsound, hgrows, hlearns⟩ :=
    gives_acceptsSpan span h known hknown.isSound
  refine ⟨known', ?_, hgrows, hknown.of_learnsWithin hlearns hsound⟩
  rw [hrun, acceptsAfresh_eq_accepts span h]

/-- Asks about spans, one after the other, for the sake of what is learned. -/
def askAll (source : Array Char) (spans : List Span) : StateM Verdicts Unit :=
  spans.forM fun span => do let _ ← acceptsSpan source span

theorem exists_run_askAll {spans : List Span} (hfits : ∀ span ∈ spans, span.Fits source)
    (hknown : known.IsRight source) :
    ∃ known' : Verdicts, (askAll source spans).run known = ((), known') ∧
      known.Grows known' ∧ known'.IsRight source := by
  induction spans generalizing known with
  | nil => exact ⟨known, rfl, fun _ _ h => h, hknown⟩
  | cons span spans ih =>
    obtain ⟨known₁, hrun₁, hgrows₁, hknown₁⟩ :=
      run_acceptsSpan_of_isRight (hfits span (List.mem_cons_self ..)) hknown
    obtain ⟨known₂, hrun₂, hgrows₂, hknown₂⟩ :=
      ih (fun other ho => hfits other (List.mem_cons_of_mem _ ho)) hknown₁
    refine ⟨known₂, ?_, fun _ _ h => hgrows₂ _ _ (hgrows₁ _ _ h), hknown₂⟩
    rw [askAll, List.forM_eq_forM, List.forM_cons, StateT.run_bind, StateT.run_bind, hrun₁]
    exact hrun₂

/-- Whatever answers are known of a text, as long as they are right: the parts that a span is
taken apart into are shorter and lie within the text, so the search comes to an end, and its answer
is that of the search that remembers nothing.  All that was known still is, and it is right again.
So a text is parsed into the same whatever was known about it, and whatever was asked before, in
whichever order. -/
theorem run_acceptsSpan_afresh (hknown : known.IsRight source) :
    (∀ span : Span, span.Fits source →
      (∀ parts ∈ spanSplits source span, ∀ part ∈ parts,
        part.Fits source ∧ part.length < span.length) ∧
      ∃ known' : Verdicts,
        (acceptsSpan source span).run known = (acceptsAfresh source span, known') ∧
        known.Grows known' ∧ known'.IsRight source) ∧
    ∀ (text : String) (spans : List Span), (withoutSpaces text).toArray = source →
      (∀ span ∈ spans, span.Fits source) →
      parseKnowing ((askAll source spans).run known).2 text = parse text := by
  refine ⟨fun span h => ⟨fun parts hs part hp =>
    ⟨fits_of_mem_spanSplits h hs hp, length_lt_of_mem_spanSplits hs hp⟩,
    run_acceptsSpan_of_isRight h hknown⟩, ?_⟩
  rintro text spans rfl hspans
  obtain ⟨known', hrun, _, hknown'⟩ := exists_run_askAll hspans hknown
  rw [hrun]
  exact parseKnowing_eq hknown'.isSound

/-- A sum of which an operand and a part that is no formula are known, and then two more parts. -/
theorem run_acceptsSpan_afresh_sum : ∃ (source : Array Char) (known : Verdicts),
    source = #['a', '+', 'b'] ∧ known[(⟨0, 1⟩ : Span)]? = some true ∧
    known[(⟨1, 3⟩ : Span)]? = some false ∧ known.IsRight source ∧
    (∃ known' : Verdicts, (acceptsSpan source ⟨0, 3⟩).run known = (true, known') ∧
      known.Grows known' ∧ known'.IsRight source) ∧
    parseKnowing ((askAll source [⟨2, 3⟩, ⟨0, 2⟩]).run known).2 "a + b" = parse "a + b" := by
  obtain ⟨source, hsource⟩ : ∃ source : Array Char, source = #['a', '+', 'b'] := ⟨_, rfl⟩
  have hfits {i j : Nat} (hij : i ≤ j) (hj : j ≤ 3) : Span.Fits source ⟨i, j⟩ :=
    ⟨hij, by rw [hsource]; exact hj⟩
  have ha : IsFormula ['a'] (.literal "a") := .literal (.letter (by decide) (by decide))
  have hb : IsFormula ['b'] (.literal "b") := .literal (.letter (by decide) (by decide))
  have hoperand : acceptsAfresh source ⟨0, 1⟩ = true := by
    rw [acceptsAfresh_eq_accepts _ (hfits (by decide) (by decide)), hsource]
    exact accepts_iff.mpr ⟨_, ha⟩
  have hpart : acceptsAfresh source ⟨1, 3⟩ = false := by
    rw [acceptsAfresh_eq_accepts _ (hfits (by decide) (by decide)), hsource]
    exact accepts_eq ['+', 'b']
  have hsum : acceptsAfresh source ⟨0, 3⟩ = true := by
    rw [acceptsAfresh_eq_accepts _ (hfits (by decide) (by decide)), hsource]
    exact accepts_iff.mpr (ha.append (by decide) hb)
  obtain ⟨known, hknown⟩ : ∃ known : Verdicts,
    known = (Std.HashMap.emptyWithCapacity.insert ⟨0, 1⟩ true).insert ⟨1, 3⟩ false := ⟨_, rfl⟩
  have hright : known.IsRight source := by
    intro span verdict hs
    rw [hknown, Std.HashMap.getElem?_insert, Std.HashMap.getElem?_insert] at hs
    split at hs
    · next heq =>
      rw [← eq_of_beq heq, hpart]
      exact ⟨hfits (by decide) (by decide), (Option.some_inj.mp hs).symm⟩
    · split at hs
      · next heq =>
        rw [← eq_of_beq heq, hoperand]
        exact ⟨hfits (by decide) (by decide), (Option.some_inj.mp hs).symm⟩
      · simp at hs
  obtain ⟨hask, hparse⟩ := run_acceptsSpan_afresh hright
  obtain ⟨known', hrun, hgrows, hright'⟩ := (hask ⟨0, 3⟩ (hfits (by decide) (by decide))).2
  rw [hsum] at hrun
  refine ⟨source, known, hsource, ?_, ?_, hright, ⟨known', hrun, hgrows, hright'⟩,
    hparse "a + b" [⟨2, 3⟩, ⟨0, 2⟩] ?_ ?_⟩
  · rw [hknown, Std.HashMap.getElem?_insert, if_neg (by decide), Std.HashMap.getElem?_insert_self]
  · rw [hknown, Std.HashMap.getElem?_insert_self]
  · rw [hsource]
    decide
  · simp only [List.mem_cons, List.not_mem_nil, or_false, forall_eq_or_imp, forall_eq]
    exact ⟨hfits (by decide) (by decide), hfits (by decide) (by decide)⟩

end Text

end FormulaEditor
