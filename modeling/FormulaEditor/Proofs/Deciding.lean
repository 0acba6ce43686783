/-
Acceptance and reading agree.

The acceptance rule tries every operator of a text as the place of a cut, also those inside
parentheses, and takes off parentheses that need not match.  The reader looks for one cut and
makes that one.  Neither of them gets further than the other:

* `Text.accepts_iff_cut` — a text is accepted exactly if it is a literal, or a group around an
  accepted text, or if its split point lies between accepted texts;
* `Text.exists_run_readSpan_iff` — the reader succeeds exactly on the parts that are accepted,
  whatever tree they are read into;
* `Text.verdict_iff_cut` — so the answers about the parts of a text are those of the one cut, and
  they tell which parts can be read.
-/
import FormulaEditor.Proofs.Reading

namespace FormulaEditor

namespace Text

open Grammar Reading

/-! ### One cut -/

/-- Where the parenthesis that closes a group is found at the end, nothing else is found outside
of the group before. -/
theorem firstUnnestedFrom_eq_none (target : Char) {s : List Char} {depth : Nat}
    (h : firstUnnestedFrom ')' depth s = some (s.length - 1)) :
    firstUnnestedFrom target (depth + 1) s = none := by
  induction s generalizing depth with
  | nil => rfl
  | cons c s ih =>
    rw [firstUnnestedFrom] at h
    rw [firstUnnestedFrom, if_neg fun hand => Nat.succ_ne_zero _ hand.2]
    split at h
    · -- the parenthesis is the last character
      have hlen := Option.some_inj.mp h
      rw [List.length_cons, Nat.add_sub_cancel] at hlen
      rw [List.eq_nil_of_length_eq_zero hlen.symm]
      rfl
    · next hc =>
      obtain ⟨j, hj, hlen⟩ := Option.map_eq_some_iff.mp h
      rw [List.length_cons, Nat.add_sub_cancel] at hlen
      have hdepth : depthAfter (depth + 1) c = depthAfter depth c + 1 := by
        rw [depthAfter, depthAfter]
        split
        · rfl
        · split
          · -- a closing parenthesis that was not looked for closes another one
            next hclose =>
            have : depth ≠ 0 := fun hzero => hc ⟨hclose, hzero⟩
            omega
          · rfl
      rw [hdepth, ih (by rw [hj, ← hlen, Nat.add_sub_cancel]), Option.map_none]

/-- A group is not cut: up to its end its first parenthesis is open. -/
theorem splitPoint_eq_none {s : List Char} (h : isGroup s = true) : splitPoint s = none := by
  rw [isGroup.eq_def] at h
  split at h
  · next rest =>
    have hnone {target : Char} (hopen : '(' ≠ target) :
        firstUnnested target ('(' :: rest) = none := by
      rw [firstUnnested, firstUnnestedFrom, if_neg fun hand => hopen hand.1]
      exact congrArg _ (firstUnnestedFrom_eq_none target (of_decide_eq_true h))
    rw [splitPoint, hnone (by decide), hnone (by decide), Option.map_none]
  · cases h

/-- Trying every cut comes to the same as trying the one that the reader makes. -/
theorem accepts_iff_cut {s : List Char} : accepts s = true ↔ isLiteral s = true ∨
    (isGroup s = true ∧ accepts s.tail.dropLast = true) ∨
    (isLiteral s = false ∧ isGroup s = false ∧ ∃ i operator,
      splitPoint s = some (i, operator) ∧ accepts (s.take i) = true ∧
      accepts (s.drop (i + 1)) = true) := by
  constructor
  · intro h
    obtain ⟨shape, hshape⟩ := accepts_iff.mp h
    obtain ⟨cut, hcut, _⟩ := hshape.readsAs.exists_cutsTo
    cases hcut with
    | literal hl => exact .inl hl
    | group _ hg hinner => exact .inr (.inl ⟨hg, hinner.accepts⟩)
    | split hl hg hs hleft hright =>
      exact .inr (.inr ⟨hl, hg, _, _, hs, hleft.accepts, hright.accepts⟩)
  · rintro (hl | ⟨hg, hinner⟩ | ⟨_, _, i, operator, hs, hleft, hright⟩)
    · exact accepts_iff_splits.mpr (.inl hl)
    · obtain ⟨inner, hinner⟩ := accepts_iff.mp hinner
      rw [eq_of_isWrapped (isWrapped_of_isGroup hg)]
      exact accepts_iff.mpr ⟨_, hinner.group⟩
    · obtain ⟨c, hc, heq⟩ := exists_of_splitPoint hs
      obtain ⟨a, ha⟩ := accepts_iff.mp hleft
      obtain ⟨b, hb⟩ := accepts_iff.mp hright
      rw [heq]
      exact accepts_iff.mpr (ha.append hc hb)

/-! ### Answers about spans -/

variable {source : Array Char} {span : Span}

/-- The answer about a span, with what is known. -/
def verdict (source : Array Char) (known : Verdicts) (span : Span) : Bool :=
  ((acceptsSpan source span).run known).1

theorem verdict_eq {known : Verdicts} (h : span.Fits source) (hknown : known.IsSound source) :
    verdict source known span = accepts (span.chars source) := by
  obtain ⟨known', hrun, _⟩ := gives_acceptsSpan span h known hknown
  rw [verdict, hrun]

/-- What is refused is not read. -/
theorem exists_run_readSpan_iff {progress : Progress} (h : span.Fits source)
    (hsound : progress.verdicts.IsSound source)
    (hroot : progress.tree.root.index ≤ progress.tree.slots.size) :
    (∃ top progress', (readSpan source span).run progress = .ok top progress') ↔
      accepts (span.chars source) = true := by
  constructor
  · rintro ⟨top, progress', hrun⟩
    by_contra hno
    obtain ⟨progress'', herror⟩ :=
      run_readSpanWith_of_not_accepts Edit.flatten progress h hsound (Bool.eq_false_iff.mpr hno)
    rw [readSpan, herror] at hrun
    cases hrun
  · intro hyes
    obtain ⟨shape, hshape⟩ := accepts_iff.mp hyes
    obtain ⟨cut, hcut, _⟩ := hshape.readsAs.exists_cutsTo
    obtain ⟨t, known, hrun, _⟩ :=
      buildsCut_of_cutsTo finishes_flatten hcut rfl h progress _ _ hsound hroot ⟨rfl, rfl⟩
    exact ⟨_, _, hrun⟩

/-- The answer about a span is yes exactly if the one cut that the reader makes says so: the span
holds a literal, or a group around a span with the answer yes, or neither of these, and then its
split point lies between two such spans.  A group has no split point.  The reader succeeds exactly
on the spans with the answer yes, whatever is known of the text so far and whatever tree there
is, as long as the root of the tree is none of the nodes to come. -/
theorem verdict_iff_cut {known : Verdicts} (h : span.Fits source)
    (hknown : known.IsSound source) :
    (verdict source known span = true ↔ isLiteral (span.chars source) = true ∨
      (isGroup (span.chars source) = true ∧ verdict source known span.inside = true) ∨
      (isLiteral (span.chars source) = false ∧
        ¬(isGroup (span.chars source) = true ∧ verdict source known span.inside = true) ∧
        ∃ i operator, splitPoint (span.chars source) = some (i, operator) ∧
          verdict source known (span.before i) = true ∧
          verdict source known (span.after i) = true)) ∧
    (isGroup (span.chars source) = true → splitPoint (span.chars source) = none) ∧
    ∀ progress : Progress, progress.verdicts.IsSound source →
      progress.tree.root.index ≤ progress.tree.slots.size →
      (verdict source known span = true ↔
        ∃ top progress', (readSpan source span).run progress = .ok top progress') := by
  refine ⟨?_, splitPoint_eq_none, fun progress hsound hroot => ?_⟩
  · have hinside (hg : isGroup (span.chars source) = true) :
        verdict source known span.inside = accepts (span.chars source).tail.dropLast := by
      rw [verdict_eq (h.inside (two_le_of_isGroup hg)) hknown, h.chars_inside]
    have hsides {i : Nat} {operator : Operator}
        (hs : splitPoint (span.chars source) = some (i, operator)) :
        verdict source known (span.before i) = accepts ((span.chars source).take i) ∧
          verdict source known (span.after i) = accepts ((span.chars source).drop (i + 1)) := by
      have hlt := splitPoint_lt hs
      have hle := Nat.le_of_lt hlt
      rw [verdict_eq (h.before hle) hknown, verdict_eq (h.after hlt) hknown, h.chars_before hle,
        Span.chars_after]
      exact ⟨rfl, rfl⟩
    rw [verdict_eq h hknown, accepts_iff_cut]
    constructor
    · rintro (hl | ⟨hg, hin⟩ | ⟨hl, hg, i, operator, hs, hleft, hright⟩)
      · exact .inl hl
      · exact .inr (.inl ⟨hg, (hinside hg).trans hin⟩)
      · refine .inr (.inr ⟨hl, fun hand => ?_, i, operator, hs, (hsides hs).1.trans hleft,
          (hsides hs).2.trans hright⟩)
        rw [hg] at hand
        cases hand.1
    · rintro (hl | ⟨hg, hin⟩ | ⟨hl, _, i, operator, hs, hleft, hright⟩)
      · exact .inl hl
      · exact .inr (.inl ⟨hg, (hinside hg).symm.trans hin⟩)
      · -- what has a split point is no group
        refine .inr (.inr ⟨hl, Bool.eq_false_iff.mpr fun hg => ?_, i, operator, hs,
          (hsides hs).1.symm.trans hleft, (hsides hs).2.symm.trans hright⟩)
        rw [splitPoint_eq_none hg] at hs
        cases hs
  · rw [verdict_eq h hknown, exists_run_readSpan_iff h hsound hroot]

/-- Parentheses at both ends that do not belong together: the text is cut between them.  It can be
read into a tree with a vacant slot and more tags than slots. -/
theorem verdict_iff_cut_sum : ∃ source : Array Char, source = "(a)+(b)".toList.toArray ∧
    isGroup source.toList = false ∧ splitPoint source.toList = some (3, .add) ∧
    verdict source ∅ ⟨0, 7⟩ = true ∧ verdict source ∅ ⟨0, 3⟩ = true ∧
    verdict source ∅ ⟨4, 7⟩ = true ∧
    ∃ top progress', (readSpan source ⟨0, 7⟩).run ⟨⟨#[none], ⟨0⟩, 5⟩, ∅⟩ = .ok top progress' := by
  obtain ⟨source, hsource⟩ : ∃ source : Array Char,
    source = #['(', 'a', ')', '+', '(', 'b', ')'] := ⟨_, rfl⟩
  have hfits : Span.Fits source ⟨0, 7⟩ := by
    subst hsource
    exact ⟨by decide, by decide⟩
  have hchars : Span.chars source ⟨0, 7⟩ = source.toList := by
    subst hsource
    rfl
  have hliteral : isLiteral source.toList = false := by
    subst hsource
    decide
  have hgroup : isGroup source.toList = false := by
    subst hsource
    decide
  have hsplit : splitPoint source.toList = some (3, .add) := by
    subst hsource
    decide
  have hknown := Verdicts.isSound_empty source
  obtain ⟨hcut, _, hread⟩ := verdict_iff_cut hfits hknown
  have hrun := hread ⟨⟨#[none], ⟨0⟩, 5⟩, ∅⟩ hknown (by decide)
  have ha : IsFormula ['a'] (.literal "a") := .literal (.letter (by decide) (by decide))
  have hb : IsFormula ['b'] (.literal "b") := .literal (.letter (by decide) (by decide))
  have hleft : verdict source ∅ ⟨0, 3⟩ = true := by
    subst hsource
    exact (verdict_eq ⟨by decide, by decide⟩ hknown).trans (accepts_iff.mpr ⟨_, ha.group⟩)
  have hright : verdict source ∅ ⟨4, 7⟩ = true := by
    subst hsource
    exact (verdict_eq ⟨by decide, by decide⟩ hknown).trans (accepts_iff.mpr ⟨_, hb.group⟩)
  rw [hchars] at hcut
  have hyes : verdict source ∅ ⟨0, 7⟩ = true := by
    refine hcut.mpr (.inr (.inr ⟨hliteral, ?_, 3, .add, hsplit, hleft, hright⟩))
    rw [hgroup]
    exact fun hand => absurd hand.1 (by simp)
  exact ⟨source, hsource, hgroup, hsplit, hyes, hleft, hright, hrun.mp hyes⟩

end Text

end FormulaEditor
