/-
Where a text is cut, by the nesting of its parentheses.

A character is unnested if every parenthesis opened before it has been closed
again.  A closing parenthesis that closes nothing changes nothing, so the rule
also gives an answer on texts whose parentheses do not match.

* `firstUnnested` — the first unnested place of a character;
* `isGroup` — whether the first parenthesis encloses the whole text;
* `splitPoint` — the operator that is applied last, and where it stands.
-/
import FormulaEditor.Shape

namespace FormulaEditor

namespace Text

/-- The number of open parentheses after one more character. -/
def depthAfter (depth : Nat) (c : Char) : Nat :=
  if c = '(' then depth + 1 else if c = ')' then depth - 1 else depth

/-- The first place of `target` with no parenthesis open, when `depth` are open
at the start. -/
def firstUnnestedFrom (target : Char) (depth : Nat) : List Char → Option Nat
  | [] => none
  | c :: rest =>
    if c = target ∧ depth = 0 then some 0
    else (firstUnnestedFrom target (depthAfter depth c) rest).map (· + 1)

/-- The first place of `target` outside of all parentheses. -/
def firstUnnested (target : Char) (s : List Char) : Option Nat :=
  firstUnnestedFrom target 0 s

/-- Whether the text starts with a parenthesis that its last character
closes. -/
def isGroup : List Char → Bool
  | '(' :: rest => firstUnnested ')' rest = some (rest.length - 1)
  | _ => false

/-- Where a text that is neither a literal nor a group is cut in two: at its
first unnested plus sign, and if there is none at its first unnested times
sign.  What binds weaker is cut first. -/
def splitPoint (s : List Char) : Option (Nat × Operator) :=
  match firstUnnested '+' s with
  | some i => some (i, .add)
  | none => (firstUnnested '*' s).map (·, .mul)

theorem firstUnnestedFrom_lt {target : Char} {s : List Char} :
    ∀ {depth i : Nat}, firstUnnestedFrom target depth s = some i → i < s.length := by
  induction s with
  | nil =>
    intro depth i h
    simp [firstUnnestedFrom] at h
  | cons c rest ih =>
    intro depth i h
    rw [firstUnnestedFrom] at h
    split at h
    · cases h
      simp
    · obtain ⟨j, hj, rfl⟩ := Option.map_eq_some_iff.mp h
      have := ih hj
      simp only [List.length_cons]
      omega

/-- A group has both its parentheses. -/
theorem two_le_of_isGroup {s : List Char} (h : isGroup s = true) : 2 ≤ s.length := by
  rw [isGroup.eq_def] at h
  split at h
  · next rest =>
    have := firstUnnestedFrom_lt (of_decide_eq_true h)
    simp only [List.length_cons]
    omega
  · simp at h

/-- The text is cut at one of its characters. -/
theorem splitPoint_lt {s : List Char} {i : Nat} {operator : Operator}
    (h : splitPoint s = some (i, operator)) : i < s.length := by
  rw [splitPoint] at h
  split at h
  · next j hj =>
    cases h
    exact firstUnnestedFrom_lt hj
  · obtain ⟨j, hj, hp⟩ := Option.map_eq_some_iff.mp h
    cases hp
    exact firstUnnestedFrom_lt hj

end Text

end FormulaEditor
