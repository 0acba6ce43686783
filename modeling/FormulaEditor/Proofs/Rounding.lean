/-
What the digits of a numeral come to.

A numeral stands for a rational number, and the decimal that is read from it is the number
itself if there is room for it, and else a number close by.  How a numeral is read is not said
by a definition: the reader is any function that follows the rule for digits
(`Decimal.ReadsNumerals`).  Where the room ends one digit decides, and what follows it adds less
than one unit of that digit:

* `Text.numeralValue` — the number that a numeral stands for;
* `Decimal.Rounds` — a decimal, or none, that is what a number comes to;
* `Decimal.rounds_round`, `Decimal.rounds_carry`, `Decimal.rounds_overflow` — the steps at the
  end of the room;
* `Decimal.ReadsNumerals` — the rule, and `Decimal.ReadsNumerals.rounds` — a reader that follows
  it rounds;
* `Decimal.readsNumerals_ofText?` — there is such a reader;
* `Tree.number?_of_parse` — the numbers in a tree that was parsed.

Design notes: carrying the mantissa to its bound costs one more place, and rounds a second
time.  This stays within half a unit of the last place left, since the bound ends in 6 and
the number is less than one unit below it.
-/
import FormulaEditor.Decimal
import FormulaEditor.Proofs.Obtained
import FormulaEditor.Proofs.Parsing
import Mathlib

namespace FormulaEditor

open Grammar

/-! ### Numbers -/

namespace Text

/-- The digits before the point of a numeral. -/
def wholeDigits (s : List Char) : List Char := s.takeWhile (· ≠ '.')

/-- The digits behind the point of a numeral, if it has one. -/
def fractionDigits (s : List Char) : List Char := (s.dropWhile (· ≠ '.')).tail

/-- The number that digits behind a point stand for. -/
def fractionValue (s : List Char) : ℚ := Nat.ofDigitChars 10 s 0 / 10 ^ s.length

/-- The number that a numeral stands for. -/
def numeralValue (s : List Char) : ℚ :=
  Nat.ofDigitChars 10 (wholeDigits s) 0 + fractionValue (fractionDigits s)

@[simp] theorem fractionValue_nil : fractionValue [] = 0 := by simp [fractionValue]

/-- The first digit counts tenths, and the others a tenth of what they count by themselves. -/
theorem fractionValue_cons (c : Char) (s : List Char) :
    fractionValue (c :: s) = (Decimal.digitValue c + fractionValue s) / 10 := by
  rw [fractionValue, fractionValue, Nat.ofDigitChars_cons, Nat.ofDigitChars_eq_ofDigitChars_zero,
    List.length_cons, Decimal.digitValue]
  push_cast
  field_simp
  ring

theorem isDigit_iff {c : Char} : c.isDigit = true ↔ '0' ≤ c ∧ c ≤ '9' := by
  simp only [Char.isDigit, Bool.and_eq_true, decide_eq_true_eq]
  rfl

theorem digitValue_le {c : Char} (h : '0' ≤ c ∧ c ≤ '9') : Decimal.digitValue c ≤ 9 := by
  have hle : c.toNat ≤ '9'.toNat := h.2
  rw [Decimal.digitValue]
  exact Nat.sub_le_of_le_add hle

theorem fractionValue_nonneg (s : List Char) : 0 ≤ fractionValue s := by
  rw [fractionValue]
  positivity

theorem fractionValue_lt_one {s : List Char} (h : ∀ c ∈ s, '0' ≤ c ∧ c ≤ '9') :
    fractionValue s < 1 := by
  induction s with
  | nil => simp
  | cons c s ih =>
    have hs := ih fun other hother => h other (List.mem_cons_of_mem _ hother)
    have hc : (Decimal.digitValue c : ℚ) ≤ 9 := by
      exact_mod_cast digitValue_le (h c (List.mem_cons_self ..))
    rw [fractionValue_cons]
    linarith

/-- Digits before and after the point, counted in units of the last one that is kept. -/
theorem mul_pow_fractionValue_append (whole kept rest : List Char) :
    (Nat.ofDigitChars 10 whole 0 + fractionValue (kept ++ rest)) * 10 ^ kept.length
      = Nat.ofDigitChars 10 (whole ++ kept) 0 + fractionValue rest := by
  have hkept : Nat.ofDigitChars 10 kept (Nat.ofDigitChars 10 whole 0)
      = 10 ^ kept.length * Nat.ofDigitChars 10 whole 0 + Nat.ofDigitChars 10 kept 0 :=
    Nat.ofDigitChars_eq_ofDigitChars_zero
  have hrest : Nat.ofDigitChars 10 rest (Nat.ofDigitChars 10 kept 0)
      = 10 ^ rest.length * Nat.ofDigitChars 10 kept 0 + Nat.ofDigitChars 10 rest 0 :=
    Nat.ofDigitChars_eq_ofDigitChars_zero
  rw [fractionValue, fractionValue, Nat.ofDigitChars_append, Nat.ofDigitChars_append, hkept, hrest,
    List.length_append]
  push_cast
  field_simp
  ring

theorem point_notMem {s : List Char} (h : ∀ c ∈ s, '0' ≤ c ∧ c ≤ '9') :
    ∀ c ∈ s, decide (c ≠ '.') = true := by
  intro c hc
  have hbounds := h c hc
  rw [decide_eq_true_eq]
  rintro rfl
  exact absurd hbounds.1 (by decide)

theorem parts_digits {whole : List Char} (h : IsDigits whole) :
    wholeDigits whole = whole ∧ fractionDigits whole = [] := by
  refine ⟨List.takeWhile_eq_self_iff.mpr (point_notMem h.2), ?_⟩
  rw [fractionDigits, List.dropWhile_eq_nil_iff.mpr (point_notMem h.2), List.tail_nil]

theorem parts_point {whole : List Char} (h : IsDigits whole) (fraction : List Char) :
    wholeDigits (whole ++ '.' :: fraction) = whole ∧
      fractionDigits (whole ++ '.' :: fraction) = fraction := by
  constructor
  · rw [wholeDigits, List.takeWhile_append_of_pos (point_notMem h.2),
      List.takeWhile_cons_of_neg (by simp), List.append_nil]
  · rw [fractionDigits, List.dropWhile_append_of_pos (point_notMem h.2),
      List.dropWhile_cons_of_neg (by simp), List.tail_cons]

/-- A numeral is made of its digits before the point, and of the point and its digits behind it if
it has any. -/
theorem parts_of_isNumeral {s : List Char} (h : isNumeral s = true) :
    IsDigits (wholeDigits s) ∧ (∀ c ∈ fractionDigits s, '0' ≤ c ∧ c ≤ '9') ∧
      (fractionDigits s = [] ∧ s = wholeDigits s ∨
        s = wholeDigits s ++ '.' :: fractionDigits s) := by
  rcases isNumeral_iff.mp h with hwhole | ⟨whole, fraction, rfl, hwhole, hfraction⟩
  · obtain ⟨hleft, hright⟩ := parts_digits hwhole
    rw [hleft, hright]
    exact ⟨hwhole, by simp, .inl ⟨rfl, rfl⟩⟩
  · obtain ⟨hleft, hright⟩ := parts_point hwhole fraction
    rw [hleft, hright]
    exact ⟨hwhole, hfraction.2, .inr rfl⟩

theorem startsWithDigit_of_isNumeral {text : String} (h : isNumeral text.toList = true) :
    startsWithDigit text = true := by
  obtain ⟨hwhole, _, hparts⟩ := parts_of_isNumeral h
  obtain ⟨c, digits, hcons⟩ := List.exists_cons_of_ne_nil hwhole.1
  have hhead : text.toList.head? = some c := by
    rcases hparts with ⟨_, heq⟩ | heq <;> rw [heq, hcons] <;> rfl
  rw [startsWithDigit, hhead, Option.any_some, isDigit_iff]
  exact hwhole.2 c (hcons ▸ List.mem_cons_self ..)

theorem startsWithDigit_of_isVariable {text : String} (h : isVariable text.toList = true) :
    startsWithDigit text = false := by
  obtain ⟨c, htext, hbounds⟩ := isVariable_iff.mp h
  rw [startsWithDigit, htext, List.head?_cons, Option.any_some, ← Bool.not_eq_true, isDigit_iff]
  rintro ⟨_, hle⟩
  exact absurd (le_trans hbounds.1 hle : 'a' ≤ '9') (by decide)

end Text

/-! ### Rounding -/

namespace Decimal

open Text

/-- The number that a decimal stands for. -/
def value (d : Decimal) : ℚ := d.mantissa / 10 ^ d.scale

theorem mantissaBound_eq : mantissaBound = 2 ^ 96 := by norm_num [mantissaBound]

theorem fits_eq_true_iff {mantissa scale : ℕ} :
    fits mantissa scale = true ↔ mantissa < 2 ^ 96 ∧ scale ≤ 28 := by
  rw [fits, decide_eq_true_eq, mantissaBound_eq, maxScale]

/-- What a number comes to as a decimal, when so many places after the point were written.
There is none if the number is too large even for a decimal without places.  If there is one
it is within its bounds, at most half a unit of its last place off, and exact whenever some
decimal is. -/
structure Rounds (x : ℚ) (places : ℕ) (outcome : Option Decimal) : Prop where
  eq_none_iff : outcome = none ↔ 2 ^ 96 - 1 / 2 ≤ x
  mantissa_lt : ∀ d, outcome = some d → d.mantissa < 2 ^ 96
  scale_le : ∀ d, outcome = some d → d.scale ≤ 28 ∧ d.scale ≤ places
  abs_sub_le : ∀ d, outcome = some d → |d.value - x| ≤ 1 / 2 / 10 ^ d.scale
  value_eq : ∀ d, outcome = some d → ∀ mantissa scale : ℕ, mantissa < 2 ^ 96 → scale ≤ 28 →
    x = mantissa / 10 ^ scale → d.value = x

namespace Rounds

variable {x : ℚ} {places : ℕ} {d : Decimal}

theorem none (h : 2 ^ 96 - 1 / 2 ≤ x) : Rounds x places none where
  eq_none_iff := ⟨fun _ => h, fun _ => rfl⟩
  mantissa_lt _ hd := nomatch hd
  scale_le _ hd := nomatch hd
  abs_sub_le _ hd := nomatch hd
  value_eq _ hd := nomatch hd

theorem some (hx : x < 2 ^ 96 - 1 / 2) (hmantissa : d.mantissa < 2 ^ 96) (hscale : d.scale ≤ 28)
    (hplaces : d.scale ≤ places) (hclose : |d.value - x| ≤ 1 / 2 / 10 ^ d.scale)
    (hexact : ∀ mantissa scale : ℕ, mantissa < 2 ^ 96 → scale ≤ 28 →
      x = mantissa / 10 ^ scale → d.value = x) : Rounds x places (some d) where
  eq_none_iff := ⟨fun hd => (nomatch hd), fun hle => absurd hle (not_le.mpr hx)⟩
  mantissa_lt _ hd := Option.some_inj.mp hd ▸ hmantissa
  scale_le _ hd := Option.some_inj.mp hd ▸ ⟨hscale, hplaces⟩
  abs_sub_le _ hd := Option.some_inj.mp hd ▸ hclose
  value_eq _ hd := Option.some_inj.mp hd ▸ hexact

end Rounds

theorem abs_value_sub_le {mantissa scale : ℕ} {x bound : ℚ}
    (h : |mantissa - x * 10 ^ scale| ≤ bound) :
    |value ⟨mantissa, scale⟩ - x| ≤ bound / 10 ^ scale := by
  have hpos : (0 : ℚ) < 10 ^ scale := by positivity
  have heq : value ⟨mantissa, scale⟩ - x = (mantissa - x * 10 ^ scale) / 10 ^ scale := by
    rw [value]
    field_simp
  rw [heq, abs_div, abs_of_pos hpos]
  gcongr

theorem cast_le_of_lt {mantissa : ℕ} (h : mantissa < 2 ^ 96) : (mantissa : ℚ) ≤ 2 ^ 96 - 1 := by
  have hcast : ((mantissa + 1 : ℕ) : ℚ) ≤ (2 ^ 96 : ℕ) := Nat.cast_le.mpr h
  push_cast at hcast
  linarith

theorem cast_eq_of_succ_eq {mantissa : ℕ} (h : mantissa + 1 = 2 ^ 96) :
    (mantissa : ℚ) = 2 ^ 96 - 1 := by
  have hcast : ((mantissa + 1 : ℕ) : ℚ) = (2 ^ 96 : ℕ) := congrArg Nat.cast h
  push_cast at hcast
  linarith

/-- A number is small enough if even its units of some place are few enough. -/
theorem lt_of_mul_pow_lt {x bound : ℚ} {scale : ℕ} (hbound : 0 ≤ bound)
    (h : x * 10 ^ scale < bound) : x < bound := by
  by_contra hge
  have hge : bound ≤ x := not_lt.mp hge
  have hle : x ≤ x * 10 ^ scale :=
    le_mul_of_one_le_right (hbound.trans hge) (one_le_pow₀ (by norm_num))
  linarith

/-- A mantissa below the bound is a number that has a decimal. -/
theorem value_lt {d : Decimal} (h : d.mantissa < 2 ^ 96) : d.value < 2 ^ 96 - 1 / 2 := by
  have hle := cast_le_of_lt h
  have hdiv : d.value ≤ d.mantissa := by
    rw [value]
    exact div_le_self (Nat.cast_nonneg _) (one_le_pow₀ (by norm_num))
  linarith

theorem rounds_self {d : Decimal} (hmantissa : d.mantissa < 2 ^ 96) (hscale : d.scale ≤ 28)
    {places : ℕ} (hplaces : d.scale ≤ places) : Rounds d.value places (some d) := by
  refine .some (value_lt hmantissa) hmantissa hscale hplaces ?_ fun _ _ _ _ _ => rfl
  rw [sub_self, abs_zero]
  positivity

section

variable {d : Decimal} {digit places : ℕ} {rest x : ℚ}

/-- A number that some decimal stands for has no digits left where the room ends. -/
theorem eq_zero_of_full (hdigit : digit ≤ 9) (hnonneg : 0 ≤ rest) (hlt : rest < 1)
    (hfull : 28 ≤ d.scale ∨ 2 ^ 96 ≤ 10 * d.mantissa + digit)
    (hx : x * 10 ^ d.scale = d.mantissa + (digit + rest) / 10) {mantissa scale : ℕ}
    (hmantissa : mantissa < 2 ^ 96) (hscale : scale ≤ 28) (heq : x = mantissa / 10 ^ scale) :
    digit = 0 ∧ rest = 0 := by
  have hdigit' : (digit : ℚ) ≤ 9 := by exact_mod_cast hdigit
  have hdigit₀ : (0 : ℚ) ≤ digit := Nat.cast_nonneg digit
  rcases Nat.lt_or_ge d.scale scale with hmore | hless
  · -- more places than there is room for would take a larger mantissa
    exfalso
    have hroom : 2 ^ 96 ≤ 10 * d.mantissa + digit := hfull.resolve_left (by omega)
    obtain ⟨k, rfl⟩ := Nat.exists_eq_add_of_lt hmore
    have hvalue : (mantissa : ℚ) = (10 * d.mantissa + digit + rest) * 10 ^ k := by
      have hpos : (0 : ℚ) < 10 ^ (d.scale + k + 1) := by positivity
      have hmul : (mantissa : ℚ) = x * 10 ^ d.scale * (10 * 10 ^ k) := by
        rw [heq]
        field_simp
        ring
      rw [hmul, hx]
      ring
    have hroom' : (2 ^ 96 : ℚ) ≤ 10 * d.mantissa + digit := by exact_mod_cast hroom
    have hone : (1 : ℚ) ≤ 10 ^ k := one_le_pow₀ (by norm_num)
    have hle : (2 ^ 96 : ℚ) ≤ mantissa := by
      rw [hvalue]
      nlinarith
    have : 2 ^ 96 ≤ mantissa := by exact_mod_cast hle
    omega
  · -- else the number is a whole number of units of the last place
    obtain ⟨k, hk⟩ := Nat.exists_eq_add_of_le hless
    have hunits : ((mantissa * 10 ^ k : ℕ) : ℚ) = d.mantissa + (digit + rest) / 10 := by
      rw [← hx, heq, hk]
      push_cast
      field_simp
      ring
    have hle : d.mantissa ≤ mantissa * 10 ^ k := by
      have : (d.mantissa : ℚ) ≤ (mantissa * 10 ^ k : ℕ) := by rw [hunits]; linarith
      exact_mod_cast this
    have hge : mantissa * 10 ^ k < d.mantissa + 1 := by
      have : ((mantissa * 10 ^ k : ℕ) : ℚ) < (d.mantissa + 1 : ℕ) := by
        rw [hunits]
        push_cast
        linarith
      exact_mod_cast this
    rw [Nat.le_antisymm (Nat.lt_succ_iff.mp hge) hle] at hunits
    have hzero : (digit : ℚ) = 0 := by linarith
    exact ⟨by exact_mod_cast hzero, by linarith⟩

/-- The step at the end of the room, if the mantissa is not carried to its bound. -/
theorem rounds_round (hscale : d.scale ≤ 28) (hplaces : d.scale ≤ places) (hdigit : digit ≤ 9)
    (hnonneg : 0 ≤ rest) (hlt : rest < 1)
    (hfull : 28 ≤ d.scale ∨ 2 ^ 96 ≤ 10 * d.mantissa + digit)
    (hx : x * 10 ^ d.scale = d.mantissa + (digit + rest) / 10) {rounded : ℕ}
    (hrounded : rounded = if digit ≥ 5 then d.mantissa + 1 else d.mantissa)
    (hbound : rounded < 2 ^ 96) : Rounds x places (some ⟨rounded, d.scale⟩) := by
  have hdigit' : (digit : ℚ) ≤ 9 := by exact_mod_cast hdigit
  have hdigit₀ : (0 : ℚ) ≤ digit := Nat.cast_nonneg digit
  have hbound' := cast_le_of_lt hbound
  -- rounding half up is at most half a unit off, and strictly less when it rounds down
  have hclose : |(rounded : ℚ) - x * 10 ^ d.scale| ≤ 1 / 2 ∧
      x * 10 ^ d.scale < rounded + 1 / 2 := by
    rw [abs_le, hx, hrounded]
    split
    · next hfive =>
      have hfive' : (5 : ℚ) ≤ digit := by exact_mod_cast hfive
      push_cast
      refine ⟨⟨?_, ?_⟩, ?_⟩ <;> linarith
    · next hfive =>
      have hfour : (digit : ℚ) ≤ 4 := by exact_mod_cast Nat.le_of_lt_succ (not_le.mp hfive)
      refine ⟨⟨?_, ?_⟩, ?_⟩ <;> linarith
  have hunits : x * 10 ^ d.scale < 2 ^ 96 - 1 / 2 := by linarith [hclose.2]
  refine .some (lt_of_mul_pow_lt (by norm_num) hunits) hbound hscale hplaces
    (abs_value_sub_le hclose.1) ?_
  intro mantissa scale hmantissa' hscale' heq
  obtain ⟨hzero, hrest⟩ := eq_zero_of_full hdigit hnonneg hlt hfull hx hmantissa' hscale' heq
  rw [hzero, hrest] at hx
  rw [hrounded, hzero, if_neg (by decide), value, div_eq_iff (by positivity), hx]
  norm_num

/-- The step at the end of the room, if the mantissa is carried to its bound and one more place
is lost. -/
theorem rounds_carry {mantissa scale : ℕ} (hmantissa : mantissa + 1 = 2 ^ 96)
    (hscale : scale + 1 ≤ 28) (hplaces : scale + 1 ≤ places) (hdigit : digit ≤ 9)
    (hfive : 5 ≤ digit) (hnonneg : 0 ≤ rest) (hlt : rest < 1)
    (hfull : 28 ≤ scale + 1 ∨ 2 ^ 96 ≤ 10 * mantissa + digit)
    (hx : x * 10 ^ (scale + 1) = mantissa + (digit + rest) / 10) :
    Rounds x places (some ⟨(2 ^ 96 + 4) / 10, scale⟩) := by
  have hdigit' : (digit : ℚ) ≤ 9 := by exact_mod_cast hdigit
  have hfive' : (5 : ℚ) ≤ digit := by exact_mod_cast hfive
  have hmantissa' := cast_eq_of_succ_eq hmantissa
  have htenth : x * 10 ^ scale * 10 = 2 ^ 96 - 1 + (digit + rest) / 10 := by
    rw [← hmantissa', ← hx, pow_succ, mul_assoc]
  have hcast : (((2 ^ 96 + 4) / 10 : ℕ) : ℚ) = (2 ^ 96 + 4) / 10 := by norm_num
  have hunits : x * 10 ^ scale < 2 ^ 96 - 1 / 2 := by linarith
  have hclose : |(((2 ^ 96 + 4) / 10 : ℕ) : ℚ) - x * 10 ^ scale| ≤ 1 / 2 := by
    rw [hcast, abs_le]
    constructor <;> linarith
  refine .some (lt_of_mul_pow_lt (by norm_num) hunits) (by norm_num) (Nat.le_of_succ_le hscale)
    (Nat.le_of_succ_le hplaces) (abs_value_sub_le hclose) ?_
  intro mantissa' scale' hlt' hscale' heq
  have hzero := (eq_zero_of_full (d := ⟨mantissa, scale + 1⟩) hdigit hnonneg hlt hfull hx hlt'
    hscale' heq).1
  omega

/-- The step at the end of the room, if the mantissa is carried to its bound and there is no place
to lose. -/
theorem rounds_overflow {mantissa : ℕ} (hmantissa : mantissa + 1 = 2 ^ 96) (hfive : 5 ≤ digit)
    (hnonneg : 0 ≤ rest) (hx : x = mantissa + (digit + rest) / 10) : Rounds x places none := by
  have hfive' : (5 : ℚ) ≤ digit := by exact_mod_cast hfive
  have hmantissa' := cast_eq_of_succ_eq hmantissa
  exact .none (by linarith)

end

/-! ### Readers -/

/-- The decimal that digits before and after the point come to, whether there is room for it or
not. -/
def ofDigits (whole fraction : List Char) : Decimal :=
  ⟨Nat.ofDigitChars 10 (whole ++ fraction) 0, fraction.length⟩

/-- There is room for these digits before and after the point. -/
structure HasRoom (whole fraction : List Char) : Prop where
  mantissa_lt : (ofDigits whole fraction).mantissa < 2 ^ 96
  scale_le : (ofDigits whole fraction).scale ≤ 28

/-- The room ends behind the digits of a numeral that are kept after the point: there is none for
the next digit. -/
structure RoomEnds (s kept : List Char) (digit : Char) (rest : List Char) : Prop where
  fraction_eq : fractionDigits s = kept ++ digit :: rest
  room : HasRoom (wholeDigits s) kept
  full : ¬HasRoom (wholeDigits s) (kept ++ [digit])

/-- The rule for the digits of a numeral.  They are appended to the mantissa one by one as long as
there is room.  If there is too little room for those before the point, the numeral has no decimal.
Where the room ends after the point, the next digit decides and the others do not count: it rounds
the mantissa up from five on, and if that carries the mantissa to its bound, one more place is
given up.  Without a place to give up there is no decimal either. -/
structure ReadsNumerals (read : String → Option Decimal) : Prop where
  all : ∀ {text : String}, isNumeral text.toList = true →
    HasRoom (wholeDigits text.toList) (fractionDigits text.toList) →
      read text = some (ofDigits (wholeDigits text.toList) (fractionDigits text.toList))
  tooLarge : ∀ {text : String}, isNumeral text.toList = true →
    ¬HasRoom (wholeDigits text.toList) [] → read text = none
  down : ∀ {text : String} {kept rest : List Char} {digit : Char},
    isNumeral text.toList = true → RoomEnds text.toList kept digit rest → digitValue digit < 5 →
      read text = some (ofDigits (wholeDigits text.toList) kept)
  up : ∀ {text : String} {kept rest : List Char} {digit : Char},
    isNumeral text.toList = true → RoomEnds text.toList kept digit rest → 5 ≤ digitValue digit →
    (ofDigits (wholeDigits text.toList) kept).mantissa + 1 < 2 ^ 96 →
      read text = some ⟨(ofDigits (wholeDigits text.toList) kept).mantissa + 1, kept.length⟩
  carry : ∀ {text : String} {kept rest : List Char} {digit : Char},
    isNumeral text.toList = true → RoomEnds text.toList kept digit rest → 5 ≤ digitValue digit →
    (ofDigits (wholeDigits text.toList) kept).mantissa + 1 = 2 ^ 96 →
    ∀ scale, kept.length = scale + 1 → read text = some ⟨(2 ^ 96 + 4) / 10, scale⟩
  overflow : ∀ {text : String} {rest : List Char} {digit : Char},
    isNumeral text.toList = true → RoomEnds text.toList [] digit rest → 5 ≤ digitValue digit →
    (ofDigits (wholeDigits text.toList) []).mantissa + 1 = 2 ^ 96 → read text = none

/-- Digits after the point leave no less in the mantissa than there was. -/
theorem le_ofDigitChars (digits : List Char) (mantissa : ℕ) :
    mantissa ≤ Nat.ofDigitChars 10 digits mantissa := by
  rw [Nat.ofDigitChars_eq_ofDigitChars_zero]
  exact (Nat.le_mul_of_pos_left _ (by positivity)).trans (Nat.le_add_right ..)

theorem scale_ofDigits (whole fraction : List Char) :
    (ofDigits whole fraction).scale = fraction.length := rfl

theorem mantissa_ofDigits_concat (whole kept : List Char) (digit : Char) :
    (ofDigits whole (kept ++ [digit])).mantissa
      = 10 * (ofDigits whole kept).mantissa + digitValue digit := by
  rw [ofDigits, ← List.append_assoc, Nat.ofDigitChars_append, Nat.ofDigitChars_cons,
    Nat.ofDigitChars_nil]
  rfl

theorem hasRoom_nil_iff {whole : List Char} :
    HasRoom whole [] ↔ Nat.ofDigitChars 10 whole 0 < 2 ^ 96 := by
  refine ⟨fun h => ?_, fun h => ⟨?_, Nat.zero_le _⟩⟩
  · simpa [ofDigits] using h.mantissa_lt
  · simpa [ofDigits] using h

/-- A numeral whose digits all have room stands for the decimal that they come to. -/
theorem numeralValue_eq (s : List Char) :
    numeralValue s = (ofDigits (wholeDigits s) (fractionDigits s)).value := by
  have hunits := mul_pow_fractionValue_append (wholeDigits s) (fractionDigits s) []
  rw [List.append_nil, fractionValue_nil, add_zero] at hunits
  rw [value, numeralValue, eq_div_iff (by positivity)]
  exact hunits

namespace RoomEnds

variable {s kept rest : List Char} {digit : Char}

/-- There is a place too many, or the mantissa would get too large. -/
theorem full_or (h : RoomEnds s kept digit rest) : 28 ≤ (ofDigits (wholeDigits s) kept).scale ∨
    2 ^ 96 ≤ 10 * (ofDigits (wholeDigits s) kept).mantissa + digitValue digit := by
  rw [scale_ofDigits]
  by_contra hnot
  refine h.full ⟨?_, ?_⟩
  · rw [mantissa_ofDigits_concat]
    omega
  · rw [scale_ofDigits, List.length_append, List.length_singleton]
    omega

/-- The number in units of the last place that is kept. -/
theorem numeralValue_mul (h : RoomEnds s kept digit rest) :
    numeralValue s * 10 ^ (ofDigits (wholeDigits s) kept).scale
      = (ofDigits (wholeDigits s) kept).mantissa
        + (digitValue digit + fractionValue rest) / 10 := by
  rw [numeralValue, h.fraction_eq, ← fractionValue_cons]
  exact mul_pow_fractionValue_append (wholeDigits s) kept (digit :: rest)

theorem scale_le_length (h : RoomEnds s kept digit rest) :
    (ofDigits (wholeDigits s) kept).scale ≤ (fractionDigits s).length := by
  rw [scale_ofDigits, h.fraction_eq, List.length_append]
  exact Nat.le_add_right ..

end RoomEnds

namespace ReadsNumerals

variable {read : String → Option Decimal} {text : String}

/-- Where the room ends after the point the next digit rounds. -/
theorem rounds_of_roomEnds (hread : ReadsNumerals read) (h : isNumeral text.toList = true)
    {kept rest : List Char} {digit : Char} (hends : RoomEnds text.toList kept digit rest) :
    Rounds (numeralValue text.toList) (fractionDigits text.toList).length (read text) := by
  obtain ⟨_, hdigits, _⟩ := parts_of_isNumeral h
  rw [hends.fraction_eq] at hdigits
  have hdigit := digitValue_le (hdigits digit (by simp))
  have hrest : ∀ c ∈ rest, '0' ≤ c ∧ c ≤ '9' := fun c hc => hdigits c (by simp [hc])
  have hnonneg := fractionValue_nonneg rest
  have hlt := fractionValue_lt_one hrest
  have hunits := hends.numeralValue_mul
  rcases Nat.lt_or_ge (digitValue digit) 5 with hfour | hfive
  · rw [hread.down h hends hfour]
    exact rounds_round hends.room.scale_le hends.scale_le_length hdigit hnonneg hlt hends.full_or
      hunits (if_neg (Nat.not_le.mpr hfour)).symm hends.room.mantissa_lt
  · have hle : (ofDigits (wholeDigits text.toList) kept).mantissa + 1 ≤ 2 ^ 96 :=
      hends.room.mantissa_lt
    rcases Nat.lt_or_eq_of_le hle with hlt' | hcarry
    · rw [hread.up h hends hfive hlt']
      exact rounds_round hends.room.scale_le hends.scale_le_length hdigit hnonneg hlt
        hends.full_or hunits (if_pos hfive).symm hlt'
    · -- the mantissa is carried to its bound
      cases hlength : kept.length with
      | zero =>
        obtain rfl := List.eq_nil_of_length_eq_zero hlength
        rw [hread.overflow h hends hfive hcarry]
        refine rounds_overflow hcarry hfive hnonneg (hunits.symm.trans ?_).symm
        exact (congrArg _ (pow_zero _)).trans (mul_one _)
      | succ scale =>
        rw [hread.carry h hends hfive hcarry scale hlength]
        have hroom := hends.room.scale_le
        have hplaces := hends.scale_le_length
        have hfull := hends.full_or
        rw [scale_ofDigits, hlength] at hunits hroom hplaces hfull
        exact rounds_carry hcarry hroom hplaces hdigit hfive hnonneg hlt hfull hunits

/-- A reader that follows the rule rounds. -/
theorem rounds (hread : ReadsNumerals read) (h : isNumeral text.toList = true) :
    Rounds (numeralValue text.toList) (fractionDigits text.toList).length (read text) := by
  by_cases hwhole : HasRoom (wholeDigits text.toList) []
  · rcases or_exists_first_not hwhole (fractionDigits text.toList) with
      hall | ⟨kept, digit, rest, hfraction, hroom, hfull⟩
    · rw [hread.all h hall, numeralValue_eq]
      exact rounds_self hall.mantissa_lt hall.scale_le (Nat.le_refl _)
    · exact hread.rounds_of_roomEnds h ⟨hfraction, hroom, hfull⟩
  · -- the digits behind the point make the number larger still
    rw [hread.tooLarge h hwhole]
    rw [hasRoom_nil_iff, Nat.not_lt] at hwhole
    have hlarge : ((2 ^ 96 : ℕ) : ℚ) ≤ Nat.ofDigitChars 10 (wholeDigits text.toList) 0 :=
      Nat.cast_le.mpr hwhole
    have hnonneg := fractionValue_nonneg (fractionDigits text.toList)
    push_cast at hlarge
    refine .none ?_
    rw [numeralValue]
    linarith

end ReadsNumerals

/-! ### A reader that follows the rule -/

theorem readFraction_cons {c : Char} (h : c.isDigit = true) (d : Decimal) (digits : List Char) :
    readFraction d (c :: digits)
      = if fits (10 * d.mantissa + digitValue c) (d.scale + 1) then
          readFraction ⟨10 * d.mantissa + digitValue c, d.scale + 1⟩ digits
        else if digits.all isFractionChar then roundOn (digitValue c) d else none := by
  have hunderscore : c ≠ '_' := by
    rintro rfl
    exact absurd h (by decide)
  rw [readFraction, if_neg hunderscore, if_pos h]

theorem readWhole_cons {c : Char} (h : c.isDigit = true) (mantissa : ℕ) (rest : List Char) :
    readWhole mantissa (c :: rest)
      = if fits (10 * mantissa + digitValue c) 0 then readWhole (10 * mantissa + digitValue c) rest
        else none := by
  have hpoint : c ≠ '.' := by
    rintro rfl
    exact absurd h (by decide)
  have hunderscore : c ≠ '_' := by
    rintro rfl
    exact absurd h (by decide)
  rw [readWhole, if_neg hpoint, if_neg hunderscore, if_pos h]

theorem roundOn_eq {digit rounded : ℕ} {d : Decimal}
    (h : rounded = if digit ≥ 5 then d.mantissa + 1 else d.mantissa) :
    roundOn digit d = if rounded < mantissaBound then some ⟨rounded, d.scale⟩
      else if d.scale = 0 then none else some ⟨(rounded + 4) / 10, d.scale - 1⟩ := by
  rw [h]
  rfl

/-- Digits that have room are appended, and reading goes on behind them. -/
theorem readFraction_append {kept : List Char} (h : ∀ c ∈ kept, '0' ≤ c ∧ c ≤ '9') {d : Decimal}
    (hmantissa : Nat.ofDigitChars 10 kept d.mantissa < 2 ^ 96)
    (hscale : d.scale + kept.length ≤ 28) (rest : List Char) :
    readFraction d (kept ++ rest)
      = readFraction ⟨Nat.ofDigitChars 10 kept d.mantissa, d.scale + kept.length⟩ rest := by
  induction kept generalizing d with
  | nil => rfl
  | cons c kept ih =>
    rw [Nat.ofDigitChars_cons] at hmantissa ⊢
    rw [List.length_cons, Nat.add_comm kept.length, ← Nat.add_assoc] at hscale ⊢
    have hfits : fits (10 * d.mantissa + digitValue c) (d.scale + 1) = true :=
      fits_eq_true_iff.mpr
        ⟨(le_ofDigitChars kept _).trans_lt hmantissa, le_of_add_le_left hscale⟩
    rw [List.cons_append, readFraction_cons (isDigit_iff.mpr (h c (List.mem_cons_self ..))),
      if_pos hfits]
    exact ih (fun other ho => h other (List.mem_cons_of_mem _ ho)) hmantissa hscale

/-- The digits before the point are too many, or reading goes on behind them. -/
theorem readWhole_append {whole : List Char} (h : ∀ c ∈ whole, '0' ≤ c ∧ c ≤ '9') {mantissa : ℕ}
    (hmantissa : mantissa < 2 ^ 96) (rest : List Char) : readWhole mantissa (whole ++ rest)
      = if Nat.ofDigitChars 10 whole mantissa < 2 ^ 96 then
          readWhole (Nat.ofDigitChars 10 whole mantissa) rest
        else none := by
  induction whole generalizing mantissa with
  | nil => exact (if_pos hmantissa).symm
  | cons c whole ih =>
    rw [List.cons_append, readWhole_cons (isDigit_iff.mpr (h c (List.mem_cons_self ..))),
      Nat.ofDigitChars_cons]
    split
    · next hfits =>
      exact ih (fun other ho => h other (List.mem_cons_of_mem _ ho)) (fits_eq_true_iff.mp hfits).1
    · next hfits =>
      refine (if_neg fun hlt => hfits (fits_eq_true_iff.mpr ⟨?_, Nat.zero_le _⟩)).symm
      exact (le_ofDigitChars whole _).trans_lt hlt

/-- Where there is no room for a digit it rounds what has been read. -/
theorem readFraction_of_full {d : Decimal} {c : Char} {rest : List Char}
    (h : ∀ other ∈ c :: rest, '0' ≤ other ∧ other ≤ '9')
    (hfull : 28 ≤ d.scale ∨ 2 ^ 96 ≤ 10 * d.mantissa + digitValue c) :
    readFraction d (c :: rest) = roundOn (digitValue c) d := by
  have hfits : ¬fits (10 * d.mantissa + digitValue c) (d.scale + 1) = true := by
    rw [fits_eq_true_iff]
    omega
  have hall : rest.all isFractionChar = true := by
    refine List.all_eq_true.mpr fun other hother => ?_
    rw [isFractionChar, isDigit_iff.mpr (h other (List.mem_cons_of_mem _ hother)), Bool.true_or]
  rw [readFraction_cons (isDigit_iff.mpr (h c (List.mem_cons_self ..))), if_neg hfits, if_pos hall]

section

variable {text : String} {kept rest : List Char} {digit : Char}

/-- A numeral is read up to the point and then behind it, unless that is too much already. -/
theorem ofText?_eq (h : isNumeral text.toList = true) : ofText? text
    = if Nat.ofDigitChars 10 (wholeDigits text.toList) 0 < 2 ^ 96 then
        readFraction ⟨Nat.ofDigitChars 10 (wholeDigits text.toList) 0, 0⟩
          (fractionDigits text.toList)
      else none := by
  obtain ⟨hwhole, _, hparts⟩ := parts_of_isNumeral h
  have hread := readWhole_append hwhole.2 (by norm_num : 0 < 2 ^ 96)
  rcases hparts with ⟨hnone, heq⟩ | heq
  · rw [hnone, ofText?]
    refine (congrArg _ (heq.trans (List.append_nil _).symm)).trans ((hread []).trans ?_)
    rw [readWhole, readFraction]
  · rw [ofText?]
    refine (congrArg _ heq).trans ((hread _).trans ?_)
    rw [readWhole, if_pos rfl]

/-- The digits that have room are read. -/
theorem ofText?_of_hasRoom (h : isNumeral text.toList = true)
    (hfraction : fractionDigits text.toList = kept ++ rest)
    (hroom : HasRoom (wholeDigits text.toList) kept) :
    ofText? text = readFraction (ofDigits (wholeDigits text.toList) kept) rest := by
  obtain ⟨_, hdigits, _⟩ := parts_of_isNumeral h
  have hmantissa := hroom.mantissa_lt
  rw [ofDigits, Nat.ofDigitChars_append] at hmantissa
  rw [ofText?_eq h, if_pos ((le_ofDigitChars kept _).trans_lt hmantissa), hfraction,
    readFraction_append (fun c hc => hdigits c (hfraction ▸ List.mem_append_left rest hc)) hmantissa
      ((Nat.zero_add _).symm ▸ hroom.scale_le), ofDigits, Nat.ofDigitChars_append, Nat.zero_add]

theorem RoomEnds.ofText?_eq (h : isNumeral text.toList = true)
    (hends : RoomEnds text.toList kept digit rest) :
    ofText? text = roundOn (digitValue digit) (ofDigits (wholeDigits text.toList) kept) := by
  obtain ⟨_, hdigits, _⟩ := parts_of_isNumeral h
  rw [hends.fraction_eq] at hdigits
  rw [ofText?_of_hasRoom h hends.fraction_eq hends.room,
    readFraction_of_full (fun c hc => hdigits c (List.mem_append_right kept hc)) hends.full_or]

end

/-- The reader follows the rule. -/
theorem readsNumerals_ofText? : ReadsNumerals ofText? where
  all h hroom := by
    rw [ofText?_of_hasRoom h (List.append_nil _).symm hroom, readFraction]
  tooLarge h hwhole := by
    rw [ofText?_eq h, if_neg (hasRoom_nil_iff.not.mp hwhole)]
  down h hends hfour := by
    rw [hends.ofText?_eq h, roundOn_eq (if_neg (Nat.not_le.mpr hfour)).symm, mantissaBound_eq,
      if_pos hends.room.mantissa_lt]
  up h hends hfive hlt := by
    rw [hends.ofText?_eq h, roundOn_eq (if_pos hfive).symm, mantissaBound_eq, if_pos hlt]
    rfl
  carry h hends hfive hcarry scale hlength := by
    rw [hends.ofText?_eq h, roundOn_eq (if_pos hfive).symm, mantissaBound_eq, hcarry,
      if_neg (Nat.lt_irrefl _), scale_ofDigits, hlength, if_neg (Nat.succ_ne_zero scale),
      Nat.add_sub_cancel]
  overflow h hends hfive hcarry := by
    rw [hends.ofText?_eq h, roundOn_eq (if_pos hfive).symm, mantissaBound_eq, hcarry,
      if_neg (Nat.lt_irrefl _)]
    exact if_pos rfl

end Decimal

/-! ### Trees -/

namespace Tree

open Text

/-- The numbers in a tree that was parsed, by a reader that follows the rule for digits.  A
compound has none.  Each literal is a variable, which has none either, or a numeral, and then the
number in the tree is the decimal that the number of the numeral comes to. -/
theorem number?_of_parse {read : String → Option Decimal} (hread : Decimal.ReadsNumerals read)
    {text : String} {t : Tree} (hparse : parse text = .ok t) {id : Handle} {node : Node}
    (hget : t.get? id = some node) :
    ∃ number, t.number? read id = .ok number ∧
      (∀ operator children, node.content = .compound operator children → number = none) ∧
      ∀ literal, node.content = .literal literal →
        (isVariable literal.toList = true ∧ number = none) ∨
        (isNumeral literal.toList = true ∧ Decimal.Rounds (numeralValue literal.toList)
          (fractionDigits literal.toList).length number) := by
  refine ⟨node.content.number? read, ?_, ?_, ?_⟩
  · rw [number?, node_eq_ok_iff.mpr hget]
    rfl
  · intro operator children hcontent
    rw [hcontent, Content.number?]
  · intro literal hcontent
    have hproper := (Obtained.parse hparse).isProper
    have hspells := hproper.isLegible id node (hproper.reaches id node hget) hget
    rw [hcontent, Spells, ← isLiteral_iff, isLiteral, Bool.or_eq_true] at hspells
    rw [hcontent, Content.number?]
    rcases hspells with hvariable | hnumeral
    · rw [startsWithDigit_of_isVariable hvariable]
      exact .inl ⟨hvariable, rfl⟩
    · rw [startsWithDigit_of_isNumeral hnumeral]
      exact .inr ⟨hnumeral, hread.rounds hnumeral⟩

/-- The last digit has no place, and rounding it up carries the mantissa to its bound. -/
theorem number?_of_parse_carry : Decimal.ReadsNumerals Decimal.ofText? ∧
    ∃ t, parse "7.92281625142643375935439503355" = .ok t ∧
    t.get? ⟨0⟩ = some ⟨.literal "7.92281625142643375935439503355", none, ⟨0⟩⟩ ∧
    t.number? Decimal.ofText? ⟨0⟩ = .ok (some ⟨7922816251426433759354395034, 27⟩) ∧
    |Decimal.value ⟨7922816251426433759354395034, 27⟩
      - numeralValue "7.92281625142643375935439503355".toList| ≤ 1 / 2 / 10 ^ 27 := by
  obtain ⟨t, ht⟩ : ∃ t : Tree, t = ⟨#[some ⟨.literal "7.92281625142643375935439503355", none, ⟨0⟩⟩],
    ⟨0⟩, 1⟩ := ⟨_, rfl⟩
  have hparse : parse "7.92281625142643375935439503355" = .ok t := by
    rw [ht]
    cbv
  have hget : t.get? ⟨0⟩ = some ⟨.literal "7.92281625142643375935439503355", none, ⟨0⟩⟩ := by
    rw [ht]
    rfl
  have hnumber : t.number? Decimal.ofText? ⟨0⟩
      = .ok (some ⟨7922816251426433759354395034, 27⟩) := by
    rw [ht]
    cbv
  obtain ⟨number, hnumber', _, hliteral⟩ :=
    number?_of_parse Decimal.readsNumerals_ofText? hparse hget
  obtain rfl := Except.ok.inj (hnumber.symm.trans hnumber')
  rcases hliteral _ rfl with ⟨_, hnone⟩ | ⟨_, hrounds⟩
  · cases hnone
  · exact ⟨Decimal.readsNumerals_ofText?, t, hparse, hget, hnumber, hrounds.abs_sub_le _ rfl⟩

end Tree

end FormulaEditor
