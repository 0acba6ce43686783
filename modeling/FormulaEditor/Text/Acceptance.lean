/-
Which texts are formulas.

A text without spaces is accepted if it is a literal, or a pair of parentheses
around an accepted text, or if it can be cut at some operator into two accepted
texts.  A literal is a variable, which is one small letter, or a numeral:
digits, or digits on both sides of a point.  Letters and digits are those of
ASCII.

Every operator may be the cut, also one inside parentheses, so the same part of
a text is asked about many times over.  The parts are named by where they start
and stop, without copying them, and the answers are remembered:

* `Text.isLiteral` — whether a text is a single operand;
* `Text.accepts` — the rule itself;
* `Span` — a part of a text, its characters numbered from zero;
* `Text.acceptsSpan` — the rule on a span, with the answers given so far at
  hand.
-/
import FormulaEditor.Shape
import Std.Data.HashMap

namespace FormulaEditor

namespace Text

/-! ### Literals -/

/-- Whether these are digits, and at least one. -/
def isDigits (s : List Char) : Bool := !s.isEmpty && s.all Char.isDigit

/-- Whether this is a numeral: digits, and possibly a point and more digits. -/
def isNumeral (s : List Char) : Bool :=
  isDigits (s.takeWhile Char.isDigit) &&
    match s.dropWhile Char.isDigit with
    | [] => true
    | c :: fraction => c = '.' && isDigits fraction

/-- Whether this is a variable: one small letter. -/
def isVariable : List Char → Bool
  | [c] => c.isLower
  | _ => false

/-- Whether this is a single operand without further structure. -/
def isLiteral (s : List Char) : Bool := isVariable s || isNumeral s

/-! ### The rule -/

/-- Whether a character is a binary operator. -/
def isOperator (c : Char) : Bool := (Operator.ofChar? c).isSome

/-- The offsets of operators that have a neighbour on both sides which is not
one itself, where `before` stands left of the first character and `offset`
counts from there. -/
def cutsAfter (before : Char) (offset : Nat) : List Char → List Nat
  | c :: next :: rest =>
    let others := cutsAfter c (offset + 1) (next :: rest)
    if isOperator c && !isOperator before && !isOperator next then
      offset :: others
    else
      others
  | _ => []

/-- The offsets at which a text may be cut in two: its operators, other than at
either end or next to another operator. -/
def cuts : List Char → List Nat
  | [] => []
  | c :: rest => cutsAfter c 1 rest

/-- Whether the text starts and ends with a parenthesis, matched or not. -/
def isWrapped (s : List Char) : Bool :=
  2 ≤ s.length && s.head? = some '(' && s.getLast? = some ')'

theorem cutsAfter_bounds (before : Char) (offset : Nat) (s : List Char) :
    ∀ i ∈ cutsAfter before offset s, offset ≤ i ∧ i + 1 < offset + s.length := by
  fun_induction cutsAfter before offset s with
  | case1 before offset c next rest others _ ih =>
    intro i h
    rcases List.mem_cons.mp h with rfl | h
    · simp
    · have := ih i h
      simp only [List.length_cons] at this ⊢
      omega
  | case2 before offset c next rest others _ ih =>
    intro i h
    have := ih i h
    simp only [List.length_cons] at this ⊢
    omega
  | case3 => simp

/-- A cut leaves something on both sides. -/
theorem cuts_bounds {s : List Char} {i : Nat} (h : i ∈ cuts s) :
    0 < i ∧ i + 1 < s.length := by
  match s, h with
  | c :: rest, h =>
    have := cutsAfter_bounds c 1 rest i h
    simp only [List.length_cons]
    omega

theorem two_le_of_isWrapped {s : List Char} (h : isWrapped s = true) : 2 ≤ s.length := by
  simp only [isWrapped, Bool.and_eq_true, decide_eq_true_eq] at h
  exact h.1.1

/-- The ways to take a text apart into formulas: what is between its outer
parentheses, or what is on either side of a cut. -/
def splits (s : List Char) : List (List (List Char)) :=
  (if isWrapped s then [[s.tail.dropLast]] else [])
    ++ (cuts s).map fun i => [s.take i, s.drop (i + 1)]

theorem length_lt_of_mem_splits {s part : List Char} {parts : List (List Char)}
    (hs : parts ∈ splits s) (hp : part ∈ parts) : part.length < s.length := by
  rcases List.mem_append.mp hs with h | h
  · split at h
    · next hw =>
      have := two_le_of_isWrapped hw
      simp only [List.mem_singleton] at h
      subst h
      simp only [List.mem_singleton] at hp
      subst hp
      simp only [List.length_dropLast, List.length_tail]
      omega
    · simp at h
  · obtain ⟨i, hi, rfl⟩ := List.mem_map.mp h
    have := cuts_bounds hi
    simp only [List.mem_cons, List.not_mem_nil, or_false] at hp
    rcases hp with rfl | rfl
    · simp only [List.length_take]
      omega
    · simp only [List.length_drop]
      omega

/-- Whether a text is a literal, or can be taken apart into formulas. -/
def accepts (s : List Char) : Bool :=
  isLiteral s || (splits s).attach.any fun ⟨parts, hs⟩ =>
    parts.attach.all fun ⟨part, hp⟩ =>
      have := length_lt_of_mem_splits hs hp
      accepts part
termination_by s.length

theorem accepts_eq (s : List Char) :
    accepts s = (isLiteral s || (splits s).any fun parts => parts.all accepts) := by
  rw [accepts]
  simp

end Text

/-! ### Spans -/

/-- The characters from `start` up to `stop`. -/
structure Span where
  start : Nat
  stop : Nat
  deriving DecidableEq, Hashable

namespace Span

/-- The number of characters. -/
def length (span : Span) : Nat := span.stop - span.start

/-- The whole of a text. -/
def whole (source : Array Char) : Span := ⟨0, source.size⟩

/-- The characters of a span. -/
def chars (source : Array Char) (span : Span) : List Char :=
  (source.extract span.start span.stop).toList

/-- The span without its first and its last character. -/
def inside (span : Span) : Span := ⟨span.start + 1, span.stop - 1⟩

/-- What stands before the character at an offset. -/
def before (span : Span) (offset : Nat) : Span := ⟨span.start, span.start + offset⟩

/-- What stands after the character at an offset. -/
def after (span : Span) (offset : Nat) : Span := ⟨span.start + offset + 1, span.stop⟩

theorem length_chars_le (source : Array Char) (span : Span) :
    (span.chars source).length ≤ span.length := by
  simp only [chars, length, Array.length_toList, Array.size_extract]
  omega

end Span

/-! ### Remembered answers -/

namespace Text

/-- The ways to take the text of a span apart, each as the spans of its
parts. -/
def spanSplits (source : Array Char) (span : Span) : List (List Span) :=
  let s := span.chars source
  (if isWrapped s then [[span.inside]] else [])
    ++ (cuts s).map fun i => [span.before i, span.after i]

theorem length_lt_of_mem_spanSplits {source : Array Char} {span part : Span}
    {parts : List Span} (hs : parts ∈ spanSplits source span) (hp : part ∈ parts) :
    part.length < span.length := by
  have hlen := span.length_chars_le source
  rcases List.mem_append.mp hs with h | h
  · split at h
    · next hw =>
      have := two_le_of_isWrapped hw
      simp only [List.mem_singleton] at h
      subst h
      simp only [List.mem_singleton] at hp
      subst hp
      simp only [Span.inside, Span.length] at hlen ⊢
      omega
    · simp at h
  · obtain ⟨i, hi, rfl⟩ := List.mem_map.mp h
    have := cuts_bounds hi
    simp only [List.mem_cons, List.not_mem_nil, or_false] at hp
    rcases hp with rfl | rfl
    · simp only [Span.before, Span.length] at hlen ⊢
      omega
    · simp only [Span.after, Span.length] at hlen ⊢
      omega

/-- The answers known for spans of one text. -/
abbrev Verdicts := Std.HashMap Span Bool

/-- The answer about a span: the known one, or else a new one, which is known
from then on. -/
def memoised (span : Span) (answer : StateM Verdicts Bool) : StateM Verdicts Bool := do
  match (← get)[span]? with
  | some known => return known
  | none =>
    let verdict ← answer
    modify (·.insert span verdict)
    return verdict

/-- Whether the text of a span is a formula, given what is known so far. -/
def acceptsSpan (source : Array Char) (span : Span) : StateM Verdicts Bool :=
  memoised span <|
    if isLiteral (span.chars source) then
      pure true
    else
      (spanSplits source span).attach.anyM fun ⟨parts, hs⟩ =>
        parts.attach.allM fun ⟨part, hp⟩ =>
          have := length_lt_of_mem_spanSplits hs hp
          acceptsSpan source part
termination_by span.length

private theorem anyM_attach {m : Type → Type} [Monad m] {α : Type} (l : List α) (f : α → m Bool) :
    (l.attach.anyM fun x => f x.1) = l.anyM f := by
  have general : ∀ k : List { x // x ∈ l },
      (k.anyM fun x => f x.1) = (k.map (·.1)).anyM f := by
    intro k
    induction k with
    | nil => rfl
    | cons x k ih => simp only [List.anyM, ih, List.map_cons]
  rw [general, List.attach_map_subtype_val]

private theorem allM_attach {m : Type → Type} [Monad m] {α : Type} (l : List α) (f : α → m Bool) :
    (l.attach.allM fun x => f x.1) = l.allM f := by
  have general : ∀ k : List { x // x ∈ l },
      (k.allM fun x => f x.1) = (k.map (·.1)).allM f := by
    intro k
    induction k with
    | nil => rfl
    | cons x k ih => simp only [List.allM, ih, List.map_cons]
  rw [general, List.attach_map_subtype_val]

/-- The rule of `accepts`, with answers that are remembered. -/
theorem acceptsSpan_eq (source : Array Char) (span : Span) :
    acceptsSpan source span = memoised span
      (if isLiteral (span.chars source) then
        pure true
      else
        (spanSplits source span).anyM fun parts => parts.allM (acceptsSpan source)) := by
  rw [acceptsSpan]
  congr 1
  split
  · rfl
  · refine Eq.trans ?_ (anyM_attach (spanSplits source span) _)
    congr 1
    funext ⟨parts, hs⟩
    exact allM_attach parts (acceptsSpan source)

end Text

end FormulaEditor
