/-
Reading bytes goes well.

The reader that works on bytes and checks every step comes to the same as the one that works on
characters and checks nothing, so none of its checks ever fails.  The parts of a text that it looks
at are cut out at parentheses and operators, which take up one byte each, so they are parts of the
text again; and what is asked of a part is asked of bytes that it has.

* `Text.Answers` — a computation that gives an answer about a text and leaves the tree alone;
* `Text.Checked.answers_verifyWithin` — the answer about a part of the text is that of the
  acceptance rule for its bytes;
* `Text.Checked.agree_readWithin` — reading a part of the text is reading its bytes as characters;
* `parseChecked_eq` — so a text is parsed as before.

Design notes: a text with a longer character is no formula, and all others are their own bytes.
-/
import FormulaEditor.Proofs.Agreeing
import FormulaEditor.Proofs.Discarding
import FormulaEditor.Proofs.Encoding
import FormulaEditor.Proofs.Parsing

namespace FormulaEditor

namespace Span.Fits

variable {source : Array Char} {span : Span} {i : Nat}

theorem length_inside_lt (h : span.Fits source) (htwo : 2 ≤ (span.chars source).length) :
    span.inside.length < span.length := by
  rw [h.length_chars] at htwo
  simp only [Span.inside, Span.length] at htwo ⊢
  omega

theorem length_before_lt (h : span.Fits source) (hi : i < (span.chars source).length) :
    (span.before i).length < span.length := by
  rw [h.length_chars] at hi
  simp only [Span.before, Span.length] at hi ⊢
  omega

theorem length_after_lt (h : span.Fits source) (hi : i < (span.chars source).length) :
    (span.after i).length < span.length := by
  rw [h.length_chars] at hi
  simp only [Span.after, Span.length] at hi ⊢
  omega

end Span.Fits

namespace Text

open Grammar

/-! ### Rules on bytes -/

/-- A cut is an operator with a neighbour on both sides that is none. -/
theorem add_mem_cutsAfter_iff {before : Char} {offset i : Nat} {s : List Char} :
    offset + i ∈ cutsAfter before offset s ↔ ∃ p c n, (before :: s)[i]? = some p ∧
      (before :: s)[i + 1]? = some c ∧ (before :: s)[i + 2]? = some n ∧
      isOperator c = true ∧ isOperator p = false ∧ isOperator n = false := by
  induction s generalizing before offset i with
  | nil => simp [cutsAfter]
  | cons c s ih =>
    cases s with
    | nil => simp [cutsAfter]
    | cons next rest =>
      have hbounds := cutsAfter_bounds c (offset + 1) (next :: rest)
      have hlater {j : Nat} : offset + (j + 1) ∈ cutsAfter before offset (c :: next :: rest) ↔
          offset + 1 + j ∈ cutsAfter c (offset + 1) (next :: rest) := by
        rw [cutsAfter, show offset + (j + 1) = offset + 1 + j by omega]
        split
        · exact List.mem_cons.trans ⟨fun h => h.resolve_left (by omega), .inr⟩
        · rfl
      have hfirst : offset ∈ cutsAfter before offset (c :: next :: rest) ↔
          isOperator c = true ∧ isOperator before = false ∧ isOperator next = false := by
        have hnot : offset ∉ cutsAfter c (offset + 1) (next :: rest) := fun hmem => by
          have := hbounds offset hmem
          omega
        rw [cutsAfter]
        split
        · next hc => simpa [and_assoc] using hc
        · next hc => simpa [hnot, and_assoc] using hc
      cases i with
      | zero => simpa using hfirst
      | succ i =>
        rw [hlater, ih]
        rfl

theorem succ_mem_cuts_iff {i : Nat} {s : List Char} :
    i + 1 ∈ cuts s ↔ ∃ p c n, s[i]? = some p ∧ s[i + 1]? = some c ∧ s[i + 2]? = some n ∧
      isOperator c = true ∧ isOperator p = false ∧ isOperator n = false := by
  cases s with
  | nil => simp [cuts]
  | cons c rest =>
    rw [cuts, Nat.add_comm i 1, add_mem_cutsAfter_iff, Nat.add_comm 1 i]

/-- A numeral is told by its first point. -/
theorem isNumeral_append {whole fraction : List Char} (h : '.' ∉ whole) :
    isNumeral (whole ++ '.' :: fraction) = (isDigits whole && isDigits fraction) := by
  have point_notMem {s : List Char} (hs : IsDigits s) : '.' ∉ s := fun hmem =>
    absurd (hs.2 '.' hmem) (by decide)
  rw [Bool.eq_iff_iff, isNumeral_iff, Bool.and_eq_true, isDigits_iff, isDigits_iff]
  constructor
  · rintro (hall | ⟨whole', fraction', heq, hw, hf⟩)
    · exact absurd (by simp) (point_notMem hall)
    · -- the first point is in the same place
      have hlen := congrArg (List.idxOf '.') heq
      rw [List.idxOf_append_of_notMem h, List.idxOf_append_of_notMem (point_notMem hw),
        List.idxOf_cons_self, List.idxOf_cons_self] at hlen
      obtain ⟨rfl, hrest⟩ := List.append_inj heq hlen
      cases hrest
      exact ⟨hw, hf⟩
  · exact fun hand => .inr ⟨whole, fraction, rfl, hand⟩

theorem eq_of_idxOf? {c : Char} {s : List Char} {i : Nat} (h : s.idxOf? c = some i) :
    i < s.length ∧ s = s.take i ++ c :: s.drop (i + 1) ∧ c ∉ s.take i := by
  obtain ⟨hlt, hget, hbefore⟩ := List.idxOf?_eq_some_iff.mp h
  refine ⟨hlt, ?_, fun hmem => ?_⟩
  · rw [← hget, ← List.drop_eq_getElem_cons hlt, List.take_append_drop]
  · obtain ⟨j, hj, hc⟩ := List.getElem_of_mem hmem
    rw [List.length_take, Nat.lt_min] at hj
    rw [List.getElem_take] at hc
    exact hbefore j hj.1 hc

theorem isNumeral_of_notMem {s : List Char} (h : '.' ∉ s) : isNumeral s = isDigits s := by
  rw [Bool.eq_iff_iff, isNumeral_iff, isDigits_iff]
  refine ⟨?_, .inl⟩
  rintro (hall | ⟨whole, fraction, rfl, _⟩)
  · exact hall
  · exact absurd (by simp) h

/-! ### Answers -/

/-- The computation gives this answer, learns nothing wrong about the text on the way, and leaves
the tree alone. -/
def Answers {ε α : Type} (source : Array Char) (x : EStateM ε Progress α) (a : α) : Prop :=
  ∀ progress : Progress, progress.verdicts.IsSound source →
    ∃ known : Verdicts, known.IsSound source ∧ x.run progress = .ok a ⟨progress.tree, known⟩

namespace Answers

variable {ε ε' α β : Type} {source : Array Char} {x : EStateM ε Progress α}
  {f : α → EStateM ε Progress β} {a : α} {b : β}

protected theorem pure (a : α) : Answers source (pure a : EStateM ε Progress α) a :=
  fun progress h => ⟨progress.verdicts, h, rfl⟩

protected theorem bind (hx : Answers source x a) (hf : Answers source (f a) b) :
    Answers source (x >>= f) b := by
  intro progress h
  obtain ⟨known, hknown, hrun⟩ := hx progress h
  obtain ⟨known', hknown', hrun'⟩ := hf ⟨progress.tree, known⟩ hknown
  exact ⟨known', hknown', by rw [run_bind_ok hrun, hrun']⟩

/-- The second question is asked only if the first answer is yes. -/
protected theorem and {x y : EStateM ε Progress Bool} {a b : Bool} (hx : Answers source x a)
    (hy : a = true → Answers source y b) : Answers source (x <&&> y) (a && b) := by
  refine hx.bind ?_
  cases a with
  | true => exact hy rfl
  | false => exact .pure false

/-- The second question is asked only if the first answer is no. -/
protected theorem or {x y : EStateM ε Progress Bool} {a b : Bool} (hx : Answers source x a)
    (hy : Answers source y b) : Answers source (x <||> y) (a || b) := by
  refine hx.bind ?_
  cases a with
  | true => exact .pure true
  | false => exact hy

protected theorem anyM {γ : Type} {l : List γ} {f : γ → EStateM ε Progress Bool} {g : γ → Bool}
    (h : ∀ c ∈ l, Answers source (f c) (g c)) : Answers source (l.anyM f) (l.any g) := by
  induction l with
  | nil => exact .pure false
  | cons c l ih =>
    refine (h c (List.mem_cons_self ..)).bind ?_
    rw [List.any_cons]
    cases g c with
    | true => exact .pure true
    | false => exact ih fun d hd => h d (List.mem_cons_of_mem _ hd)

section

variable {E : ε → ε' → Prop} {y : EStateM ε' Progress α} {g : α → EStateM ε' Progress β}

/-- A question that the second computation does not ask. -/
theorem agree_left {z : EStateM ε' Progress β} (hx : Answers source x a)
    (h : Agree (SameTree source) E (f a) z) : Agree (SameTree source) E (x >>= f) z := by
  intro progress progress' hsame
  obtain ⟨known, hknown, hrun⟩ := hx progress hsame.sound
  rw [run_bind_ok hrun]
  exact h _ _ ⟨hsame.tree, hknown, hsame.sound'⟩

/-- The same answer, as a step of both computations. -/
protected theorem agree (hx : Answers source x a) (hy : Answers source y a)
    (h : Agree (SameTree source) E (f a) (g a)) :
    Agree (SameTree source) E (x >>= f) (y >>= g) := by
  refine hx.agree_left ?_
  intro progress progress' hsame
  obtain ⟨known, hknown, hrun⟩ := hy progress' hsame.sound'
  rw [run_bind_ok hrun]
  exact h _ _ ⟨hsame.tree, hsame.sound, hknown⟩

end

end Answers

theorem answers_check {source : Array Char} {span : Span} (h : span.Fits source) :
    Answers source (Reading.check source span) (accepts (span.chars source)) :=
  fun _ hsound => run_check h hsound

namespace Checked

variable {source : Array Char} {s : List Char}

/-! ### Questions about bytes -/

theorem answers_byteAt {i : Nat} {c : Char} (h : s[i]? = some c) :
    Answers source (byteAt s i) c := by
  rw [byteAt, h]
  exact .pure c

theorem answers_byteBefore {i : Nat} {c : Char} (h : s[i]? = some c) :
    Answers source (byteBefore s (i + 1)) c :=
  answers_byteAt h

theorem answers_isNumeral (source : Array Char) (s : List Char) :
    Answers source (isNumeral s) (Text.isNumeral s) := by
  rw [isNumeral]
  split
  · next point hpoint =>
    obtain ⟨hlt, hsplit, hnot⟩ := eq_of_idxOf? hpoint
    rw [upTo, if_pos (Nat.le_of_lt hlt), onFrom, if_pos (Nat.succ_le_of_lt hlt),
      show Text.isNumeral s = _ from (congrArg _ hsplit).trans (isNumeral_append hnot)]
    exact .bind (.pure _) (.bind (.pure _) (.pure _))
  · next hnone =>
    rw [isNumeral_of_notMem (List.idxOf?_eq_none_iff.mp hnone)]
    exact .pure _

theorem answers_isLiteral (source : Array Char) (s : List Char) :
    Answers source (isLiteral s) (Text.isLiteral s) := by
  have hvariable : isVariable s = (decide (s.length = 1) && s.head?.any Char.isLower) := by
    match s with
    | [] => rfl
    | [c] => simp [isVariable]
    | c :: d :: rest => simp [isVariable]
  rw [Text.isLiteral, hvariable]
  refine .or (.and (.pure _) fun hone => ?_) (answers_isNumeral source s)
  obtain ⟨c, rfl⟩ := List.length_eq_one_iff.mp (of_decide_eq_true hone)
  exact .bind (answers_byteAt rfl) (.pure _)

theorem answers_isWrapped (source : Array Char) (s : List Char) :
    Answers source (isWrapped s) (Text.isWrapped s) := by
  rw [Text.isWrapped, Bool.and_assoc]
  refine .and (.pure _) fun htwo => ?_
  have htwo := of_decide_eq_true htwo
  obtain ⟨n, hn⟩ : ∃ n, s.length = n + 1 := ⟨s.length - 1, by omega⟩
  obtain ⟨first, hfirst⟩ : ∃ first, s[0]? = some first :=
    ⟨_, List.getElem?_eq_getElem (by omega)⟩
  obtain ⟨last, hlast⟩ : ∃ last, s[n]? = some last := ⟨_, List.getElem?_eq_getElem (by omega)⟩
  have hhead : s.head? = some first := List.head?_eq_getElem?.trans hfirst
  have hgetLast : s.getLast? = some last := by
    rw [List.getLast?_eq_getElem?, hn, Nat.add_sub_cancel, hlast]
  simp only [hhead, hgetLast, Option.some.injEq]
  refine .and (.bind (answers_byteAt hfirst) (.pure _)) fun _ => ?_
  rw [hn]
  exact .bind (answers_byteBefore hlast) (.pure _)

theorem answers_isGroup {c : Char} (h : s[0]? = some c) :
    Answers source (isGroup s) (Text.isGroup s) := by
  match s, h with
  | first :: rest, rfl =>
    have hvalue : Text.isGroup (first :: rest) = (decide (first = '(') &&
        decide ((firstUnnested ')' rest).map (· + 1) = some rest.length)) := by
      rw [Text.isGroup.eq_def]
      split
      · next rest heq =>
        cases heq
        cases hfound : firstUnnested ')' rest with
        | none => rfl
        | some j =>
          have := firstUnnestedFrom_lt hfound
          simp only [decide_true, Bool.true_and, Option.map_some, Option.some.injEq,
            decide_eq_decide]
          omega
      · next hopen =>
        have hne : first ≠ '(' := fun heq => hopen rest (by rw [heq])
        rw [decide_eq_false hne, Bool.false_and]
    rw [hvalue]
    exact .and (.bind (answers_byteAt rfl) (.pure _)) fun _ => .pure _

theorem answers_isCut {i : Nat} (h : i + 2 < s.length) :
    Answers source (isCut s (i + 1)) (decide (i + 1 ∈ cuts s)) := by
  have hp : s[i]? = some s[i] := List.getElem?_eq_getElem (by omega)
  have hc : s[i + 1]? = some s[i + 1] := List.getElem?_eq_getElem (by omega)
  have hn : s[i + 2]? = some s[i + 2] := List.getElem?_eq_getElem h
  have hvalue : decide (i + 1 ∈ cuts s)
      = (isOperator s[i + 1] && (!isOperator s[i] && !isOperator s[i + 2])) := by
    rw [Bool.eq_iff_iff, decide_eq_true_eq, succ_mem_cuts_iff, hp, hc, hn]
    simp
  rw [hvalue]
  exact .and (.bind (answers_byteAt hc) (.pure _)) fun _ =>
    .and (.bind (answers_byteBefore hp) (.pure _)) fun _ => .bind (answers_byteAt hn) (.pure _)

/-! ### Parts of the text -/

variable {text : String} {span : Span} {bound : Nat}

theorem run_cutOut (h : span.IsAligned text) (progress : Progress) :
    (cutOut text span).run progress = .ok (slice h) progress := by
  rw [cutOut, dif_pos h]
  rfl

theorem utf8Size_of_isOperator {c : Char} (h : isOperator c = true) : c.utf8Size = 1 := by
  rcases isOperator_eq_true_iff.mp h with rfl | rfl <;> rfl

/-- The acceptance rule as a search. -/
theorem accepts_eq_search (s : List Char) : accepts s = (Text.isLiteral s ||
    (Text.isWrapped s && accepts s.tail.dropLast ||
      (cuts s).any fun i => accepts (s.take i) && accepts (s.drop (i + 1)))) := by
  rw [accepts_eq, splits, List.any_append, List.any_map]
  congr 2
  · cases Text.isWrapped s <;> simp
  · simp [Function.comp_def]

/-- The search for a cut among all bytes but the first and the last one finds the cuts. -/
theorem any_range'_cuts (s : List Char) (p : Nat → Bool) :
    ((List.range' 1 (s.length - 1 - 1)).any fun i => decide (i ∈ cuts s) && p i)
      = (cuts s).any p := by
  rw [Bool.eq_iff_iff, List.any_eq_true, List.any_eq_true]
  constructor
  · rintro ⟨i, _, hi⟩
    rw [Bool.and_eq_true, decide_eq_true_eq] at hi
    exact ⟨i, hi⟩
  · rintro ⟨i, hi, hp⟩
    have := cuts_bounds hi
    refine ⟨i, List.mem_range'_1.mpr (by omega), ?_⟩
    rw [hp, decide_eq_true hi, Bool.and_true]

/-- Asking about a part of the text gives the answer of the rule for its bytes. -/
theorem answers_verifyWithin (h : span.IsAligned text) (hbound : span.length < bound) :
    Answers (bytes text) (verifyWithin text bound span) (accepts (span.chars (bytes text))) := by
  induction bound generalizing span with
  | zero => omega
  | succ bound ih =>
    have hbound := Nat.le_of_lt_succ hbound
    have hsearch : Answers (bytes text) (isLiteral (span.chars (bytes text))
        <||> (isWrapped (span.chars (bytes text)) <&&> verifyWithin text bound span.inside)
        <||> (List.range' 1 ((span.chars (bytes text)).length - 1 - 1)).anyM fun i =>
          isCut (span.chars (bytes text)) i <&&> verifyWithin text bound (span.before i) <&&>
            verifyWithin text bound (span.after i)) (accepts (span.chars (bytes text))) := by
      rw [accepts_eq_search, ← any_range'_cuts]
      refine .or (answers_isLiteral _ _) (.or (.and (answers_isWrapped _ _) fun hw => ?_)
        (.anyM fun i hi => ?_))
      · rw [← h.fits.chars_inside]
        exact ih (h.inside hw) (Nat.lt_of_lt_of_le
          (h.fits.length_inside_lt (two_le_of_isWrapped hw)) hbound)
      · obtain ⟨hpos, hlt⟩ := List.mem_range'_1.mp hi
        obtain ⟨i, rfl⟩ : ∃ j, i = j + 1 := ⟨i - 1, by omega⟩
        refine .and (answers_isCut (by omega)) fun hcut => ?_
        -- on either side of an operator there is a part of the text
        obtain ⟨_, c, _, _, hc, _, hop, _⟩ := succ_mem_cuts_iff.mp (of_decide_eq_true hcut)
        have hsize := utf8Size_of_isOperator hop
        have hlt : i + 1 < (span.chars (bytes text)).length := by omega
        rw [← h.fits.chars_before (Nat.le_of_lt hlt), ← Span.chars_after]
        exact .and
          (ih (h.before hc hsize) (Nat.lt_of_lt_of_le (h.fits.length_before_lt hlt) hbound))
          fun _ => ih (h.after hc hsize) (Nat.lt_of_lt_of_le (h.fits.length_after_lt hlt) hbound)
    intro progress hsound
    rw [verifyWithin, run_bind_ok (run_cutOut h progress), h.bytes_slice, run_bind_ok run_get]
    split
    · next verdict hverdict =>
      rw [hsound span verdict hverdict]
      exact ⟨_, hsound, rfl⟩
    · obtain ⟨known, hknown, hrun⟩ := hsearch progress hsound
      exact ⟨_, hknown.insert span, by rw [run_bind_ok hrun]; rfl⟩

theorem answers_verify (h : span.IsAligned text) :
    Answers (bytes text) (verify text span) (accepts (span.chars (bytes text))) := by
  refine answers_verifyWithin h ?_
  have := h.fits.stop_le
  rw [size_bytes] at this
  rw [Span.length]
  omega

theorem answers_cutOut (source : Array Char) (h : span.IsAligned text) :
    Answers source (cutOut text span) (slice h) :=
  fun progress hsound => ⟨progress.verdicts, hsound, run_cutOut h progress⟩

/-! ### Reading -/

/-- The same outcome of both readers, apart from the text that is refused. -/
inductive SameCause : Halt → ParseError → Prop
  | refused (text : String) : SameCause .refused (.notFormula text)
  | broken (cause : EditError) : SameCause (.fault (.broken cause)) (.broken cause)

theorem agree_edit {α : Type} (change : Edit α) :
    Agree (SameTree source) SameCause (edit change) (Reading.edit change) :=
  agree_editWith .broken change

/-- The operator at which a part of the text is split takes up one byte, so there is a part of the
text on either side of it. -/
theorem isAligned_of_splitPoint {offset : Nat} {operator : Operator} (h : span.IsAligned text)
    (hs : splitPoint (span.chars (bytes text)) = some (offset, operator)) :
    (span.before offset).IsAligned text ∧ (span.after offset).IsAligned text := by
  obtain ⟨c, hop, heq⟩ := exists_of_splitPoint hs
  have hsize := utf8Size_of_isOperator hop
  have hc := congrArg List.head?
    (List.append_cancel_left ((List.take_append_drop offset _).trans heq))
  rw [List.head?_drop, List.head?_cons] at hc
  exact ⟨h.before hc hsize, h.after hc hsize⟩

/-- Reading a part of the text is reading its bytes as characters. -/
theorem agree_readWithin (h : span.IsAligned text) (hbound : span.length < bound) :
    Agree (SameTree (bytes text)) SameCause (readWithin text bound span)
      (readSpanWith Edit.flattenChecked (bytes text) span) := by
  induction bound generalizing span with
  | zero => omega
  | succ bound ih =>
    have hbound := Nat.le_of_lt_succ hbound
    rw [readWithin, readSpanWith]
    refine (answers_cutOut _ h).agree_left ?_
    refine (answers_verify h).agree (answers_check h.fits) ?_
    cases hyes : accepts (span.chars (bytes text)) with
    | false => exact .throw (.refused _)
    | true =>
      rw [if_neg (by simp), if_neg (by simp), h.bytes_slice]
      refine (answers_isLiteral _ _).agree_left ?_
      cases hl : Text.isLiteral (span.chars (bytes text)) with
      | true =>
        rw [if_pos rfl, if_pos rfl, h.slice_eq hyes]
        exact agree_edit _
      | false =>
        rw [if_neg (by simp), if_neg (by simp)]
        obtain ⟨_, terms, hterms, _⟩ := accepts_iff.mp hyes
        obtain ⟨first, hfirst, _⟩ := hterms.hasEnds.head
        refine (answers_isGroup (List.head?_eq_getElem?.symm.trans hfirst)).agree_left ?_
        cases hg : Text.isGroup (span.chars (bytes text)) with
        | true =>
          have hinside := ih (h.inside (isWrapped_of_isGroup hg)) (Nat.lt_of_lt_of_le
            (h.fits.length_inside_lt (two_le_of_isGroup hg)) hbound)
          rw [if_pos rfl, dif_pos rfl]
          exact .bind (agree_edit _) fun top => .bind hinside fun inner =>
            .bind (agree_edit _) fun _ => .pure top
        | false =>
          rw [if_neg (by simp), dif_neg (by simp)]
          cases hs : splitPoint (span.chars (bytes text)) with
          | none => exact .throw (.refused _)
          | some cut =>
            obtain ⟨offset, operator⟩ := cut
            have hlt := splitPoint_lt hs
            obtain ⟨hleft, hright⟩ := isAligned_of_splitPoint h hs
            have hbefore := ih hleft (Nat.lt_of_lt_of_le (h.fits.length_before_lt hlt) hbound)
            have hafter := ih hright (Nat.lt_of_lt_of_le (h.fits.length_after_lt hlt) hbound)
            exact .bind (agree_edit _) fun top => .bind hbefore fun left =>
              .bind hafter fun right => .bind (agree_edit _) fun _ =>
              .bind (agree_edit _) fun _ => .bind (agree_edit _) fun _ => .pure top

end Checked

/-! ### Whole texts -/

/-- With a look at every handle, a text is parsed into the same. -/
theorem parseFrom_flattenChecked (text : String) :
    parseFrom Edit.flattenChecked ∅ text = parse text := by
  cases hyes : accepts (withoutSpaces text) with
  | true =>
    obtain ⟨shape, hshape⟩ := accepts_iff.mp hyes
    obtain ⟨cut, hcut, _⟩ := hshape.readsAs.exists_cutsTo
    obtain ⟨u, hparse, hu, huslots⟩ := run_parse_of_cutsTo hcut
    obtain ⟨t, t', known, hrun, hroot, hwhole, hslots⟩ :=
      exists_run_readSpanWith finishes_flattenChecked hcut
    obtain ⟨t'', hflatten, hflat⟩ := Edit.run_flatten_whole hwhole
    have hslots' := (Edit.keeps_flatten_hasSlots _ _ _).of_ok hslots hflatten
    rw [← Edit.run_flattenChecked hwhole.bears, Branch.top_flat, Cut.top_branch] at hflatten
    rw [Branch.flat_flat] at hflat
    rw [hparse, ← hflat.eq hu hslots' huslots]
    exact parseFrom_eq_ok hrun hroot hflatten
  | false =>
    exact (treeOf_readText_of_not_accepts Edit.flattenChecked hyes).trans
      (treeOf_readText_of_not_accepts Edit.flatten hyes).symm

/-- The checked reader and the one without checks, on the bytes of a text. -/
theorem agree_readText_bytes (text : String) : Agree (SameTree (bytes text)) Checked.SameCause
    (Checked.readText text) (readText Edit.flattenChecked (bytes text)) := by
  have hlen : (Span.whole (bytes text)).length < text.utf8ByteSize + 1 := by
    rw [Span.whole, size_bytes]
    exact Nat.lt_succ_self _
  have hread := Checked.agree_readWithin (Span.IsAligned.whole text) hlen
  rw [Span.whole, size_bytes] at hread
  rw [Checked.readText, readText, Span.whole, size_bytes]
  exact .bind hread fun top => Checked.agree_edit _

/-- What comes of the two readers. -/
theorem parseChecked_cases (text : String) : (∃ t, parseChecked text = .ok t ∧
    treeOf ∅ (readText Edit.flattenChecked (bytes (String.ofList (withoutSpaces text)))) = .ok t) ∨
    ∃ e e', parseChecked text = .error e ∧
      treeOf ∅ (readText Edit.flattenChecked (bytes (String.ofList (withoutSpaces text))))
        = .error e' ∧ Checked.SameCause e e' :=
  treeOf_cases (agree_readText_bytes _) (Verdicts.isSound_empty _) (Verdicts.isSound_empty _)

/-- The characters of a formula are its bytes, so the two readers read the same. -/
theorem parseChecked_of_accepts {text : String} (h : accepts (withoutSpaces text) = true) :
    ∃ t, parse text = .ok t ∧ parseChecked text = .ok t := by
  obtain ⟨shape, hshape⟩ := accepts_iff.mp h
  obtain ⟨t, _, hparse, _⟩ := parse_of_isFormula hshape
  refine ⟨t, hparse, ?_⟩
  have hlist := String.toList_ofList (l := withoutSpaces text)
  have hbytes : bytes (String.ofList (withoutSpaces text)) = (withoutSpaces text).toArray :=
    Array.toList_inj.mp ((bytes_eq (hlist.symm ▸ utf8Size_eq_one_of_accepts h)).trans hlist)
  have hread : treeOf ∅ (readText Edit.flattenChecked
      (bytes (String.ofList (withoutSpaces text)))) = .ok t := by
    rw [hbytes]
    exact (parseFrom_flattenChecked text).trans hparse
  rcases parseChecked_cases text with ⟨u, hchecked, hu⟩ | ⟨_, e, _, he, _⟩
  · obtain rfl := Except.ok.inj (hu.symm.trans hread)
    exact hchecked
  · rw [hread] at he
    cases he

/-- The bytes of a text that is no formula are no formula either. -/
theorem parseChecked_of_not_accepts {text : String} (h : accepts (withoutSpaces text) = false) :
    parseChecked text = .error .refused := by
  have hno := accepts_bytes (String.ofList (withoutSpaces text))
  rw [String.toList_ofList, h] at hno
  have hread := treeOf_readText_of_not_accepts Edit.flattenChecked hno
  rcases parseChecked_cases text with ⟨u, _, hu⟩ | ⟨_, e, hchecked, he, hcause⟩
  · rw [hread] at hu
    cases hu
  · rw [hread] at he
    cases he
    cases hcause
    exact hchecked

end Text

open Grammar Text

/-- Whatever characters a text has, and however many bytes they take up: when it is read byte by
byte, every span of bytes that is asked about or read is a part of the text, every byte that is
looked at is there, every handle that is used has a live node, every node that is attached has no
place before, and the reader comes to an end.  Otherwise there would be a fault, but the outcome is
always that of parsing: the same tree, or a refusal. -/
theorem parseChecked_eq (text : String) :
    parseChecked text = (parse text).mapError (fun _ => .refused) ∧
      ∀ cause, parseChecked text ≠ .error (.fault cause) := by
  have heq : parseChecked text = (parse text).mapError fun _ => .refused := by
    cases hyes : accepts (withoutSpaces text) with
    | true =>
      obtain ⟨t, hparse, hchecked⟩ := parseChecked_of_accepts hyes
      rw [hparse, hchecked]
      rfl
    | false =>
      have hformula : ¬∃ shape, IsFormula (withoutSpaces text) shape := by
        rw [← accepts_iff, hyes]
        simp
      rw [parse_of_not_isFormula hformula, parseChecked_of_not_accepts hyes]
      rfl
  refine ⟨heq, fun cause hfault => ?_⟩
  rw [heq] at hfault
  cases hparse : parse text with
  | ok t =>
    rw [hparse] at hfault
    cases hfault
  | error e =>
    rw [hparse] at hfault
    cases hfault

end FormulaEditor
