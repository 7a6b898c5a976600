import CellDisplay.Checked.Digits
import CellDisplay.Proofs.Binary64.Rounding
import CellDisplay.Proofs.Checked.DateCode

/-! # Digits stay within bounds

Digits take one byte each, so that they are counted and cut as characters. The powers of ten of
finite numbers lie close to zero, which keeps the exponents of mantissas in range.
-/

namespace CellDisplay.Checked

open NumberPattern

section Ascii

/-- Every character takes one byte. -/
abbrev IsAscii (t : Text) : Prop := ∀ c ∈ t, c.utf8Size = 1

variable {s t : Text} {c : Char} {n : Nat}

theorem utf8Length_of_isAscii (h : IsAscii t) : t.utf8Length = t.length := by
  induction t with
  | nil => rfl
  | cons c t ih =>
    rw [Text.utf8Length_cons, h c List.mem_cons_self,
      ih fun d hd => h d (List.mem_cons_of_mem _ hd), List.length_cons, Nat.add_comm]

theorem cutAt_of_isAscii (h : IsAscii t) (hn : n ≤ t.length) :
    cutAt n t = some (t.take n, t.drop n) := by
  have hcut := cutAt_append (t.take n) (t.drop n)
  rwa [List.take_append_drop, utf8Length_of_isAscii fun c hc => h c (List.mem_of_mem_take hc),
    List.length_take_of_le hn] at hcut

theorem isAscii_append (hs : IsAscii s) (ht : IsAscii t) : IsAscii (s ++ t) := fun c hc =>
  (List.mem_append.mp hc).elim (hs c) (ht c)

theorem isAscii_zeros (n : Nat) : IsAscii (List.replicate n '0') := fun c hc => by
  rw [List.eq_of_mem_replicate hc]
  rfl

theorem isAscii_of_all (h : t.all (·.utf8Size = 1)) : IsAscii t := by
  simpa only [List.all_eq_true, decide_eq_true_eq] using h

theorem utf8Size_of_isDigit (h : c.isDigit) : c.utf8Size = 1 := by
  rw [Char.isDigit, Bool.and_eq_true, decide_eq_true_eq, decide_eq_true_eq] at h
  refine if_pos (UInt32.le_trans h.2 (by decide))

theorem isAscii_decimal (n : Nat) : IsAscii (Text.decimal n) := fun _ hc =>
  utf8Size_of_isDigit (Nat.isDigit_of_mem_toDigits (by decide) (by decide) hc)

theorem length_decimal_le {k : Nat} (hk : 0 < k) (h : n < 10 ^ k) :
    (Text.decimal n).length ≤ k :=
  (Nat.length_toDigits_le_iff (by decide) hk).mpr h

theorem length_decimal_le_of_lt_two_pow {k : Nat} (hk : 0 < k) (h : n < 2 ^ k) :
    (Text.decimal n).length ≤ k :=
  length_decimal_le hk (Nat.lt_of_lt_of_le h (Nat.pow_le_pow_left (by decide) k))

end Ascii

section Fixed

variable {value : Binary64} {digits whole fraction : Text} {separator : Char} {size n : Nat}

/-- Digits that are counted in few bytes. -/
structure Short (digits : Text) : Prop where
  isAscii : IsAscii digits
  length_lt : digits.length < 2 ^ 32

theorem short_nanText : Short Decimal.nanText := ⟨isAscii_of_all (by decide), by decide⟩

theorem short_infinityText : Short Decimal.infinityText := ⟨isAscii_of_all (by decide), by decide⟩

theorem short_decimal {k : Nat} (hk : 0 < k ∧ k < 2 ^ 32) (h : n < 2 ^ k) :
    Short (Text.decimal n) :=
  ⟨isAscii_decimal n, Nat.lt_of_le_of_lt (length_decimal_le_of_lt_two_pow hk.1 h) hk.2⟩

/-- Finite numbers lie below two to this power. -/
def wholeBits : Nat := 1024

/-- A unit is one part in two to this power of one. -/
def unitBits : Nat := 1074

theorem unitsPerOne_eq : Binary64.unitsPerOne = 2 ^ unitBits := by
  rw [Binary64.unitsPerOne, unitBits]

theorem div_unitsPerOne_lt (h : Binary64.Representable n) :
    n / Binary64.unitsPerOne < 2 ^ wholeBits := by
  obtain ⟨k, e, hk, he, rfl⟩ := h
  rw [unitsPerOne_eq, Nat.div_lt_iff_lt_mul (Nat.two_pow_pos _), ← Nat.pow_add]
  calc k * 2 ^ e < 2 ^ 53 * 2 ^ e := Nat.mul_lt_mul_of_pos_right hk (Nat.two_pow_pos e)
    _ = 2 ^ (53 + e) := (Nat.pow_add ..).symm
    _ ≤ 2 ^ (wholeBits + unitBits) :=
      Nat.pow_le_pow_right (by decide) (by rw [wholeBits, unitBits]; omega)

theorem scaled_div_le (places units : Nat) :
    Decimal.scaled places units / 10 ^ places ≤ units / Binary64.unitsPerOne + 1 := by
  have hten : 0 < 10 ^ places := Nat.pow_pos (by decide)
  have hround := Decimal.roundHalfEven_le (units * 10 ^ places) Binary64.unitsPerOne
  have hdiv : units * 10 ^ places / Binary64.unitsPerOne <
      (units / Binary64.unitsPerOne + 1) * 10 ^ places := by
    rw [Nat.div_lt_iff_lt_mul Binary64.unitsPerOne_pos, Nat.mul_right_comm]
    refine Nat.mul_lt_mul_of_pos_right ?_ hten
    rw [Nat.succ_mul]
    exact Nat.lt_div_mul_add Binary64.unitsPerOne_pos
  exact Nat.div_le_of_le_mul (by rw [Nat.mul_comm]; exact Nat.le_trans hround hdiv)

theorem short_fixed (places : Nat) (value : Binary64) :
    Short (Decimal.fixed places value).whole := by
  cases value with
  | nan => exact short_nanText
  | infinite negative => exact short_infinityText
  | finite negative units h =>
    refine short_decimal (k := wholeBits + 1) (by decide) ?_
    calc Decimal.scaled places units / 10 ^ places
        ≤ units / Binary64.unitsPerOne + 1 := scaled_div_le places units
      _ ≤ 2 ^ wholeBits := div_unitsPerOne_lt h
      _ < 2 ^ (wholeBits + 1) := Nat.pow_lt_pow_succ (by decide)

theorem zeroPadded_eq (h : IsAscii digits) (hs : size < 2 ^ 32) :
    zeroPadded size digits = some (Text.zeroPadded size digits) := by
  rw [zeroPadded, Text.zeroPadded, utf8Length_of_isAscii h]
  split
  · rw [Unsigned.value?_ofNat_sub (by omega) (by omega)]
    rfl
  · rw [Nat.sub_eq_zero_of_le (by omega)]
    rfl

theorem wholeDigits_eq (h : IsAscii whole) (hs : size < 2 ^ 32) :
    wholeDigits size whole fraction = some (NumberPattern.wholeDigits size whole fraction) := by
  have hd : IsAscii (whole.dropWhile (· = '0')) := fun c hc =>
    h c ((List.dropWhile_sublist _).subset hc)
  rw [wholeDigits, zeroPadded_eq hd hs]
  rfl

theorem short_wholeDigits (h : Short whole) (hs : size < 2 ^ 32) :
    Short (NumberPattern.wholeDigits size whole fraction) := by
  have hsub : (whole.dropWhile (· = '0')).Sublist whole := List.dropWhile_sublist _
  rw [NumberPattern.wholeDigits]
  split
  · exact ⟨isAscii_zeros 1, by decide⟩
  · refine ⟨isAscii_append (isAscii_zeros _) fun c hc => h.isAscii c (hsub.subset hc), ?_⟩
    have := hsub.length_le
    have := h.length_lt
    rw [Text.length_zeroPadded]
    omega

theorem startsGroup_eq {length place : Nat} (hs : size ≠ 0) (hsize : size < 2 ^ 64)
    (hl : length < 2 ^ 64) (hp : place ≤ length) :
    startsGroup size length place = some (decide (0 < place ∧ (length - place) % size = 0)) := by
  rw [startsGroup]
  split
  · rw [Unsigned.ofNat_sub_ofNat hl hp, Unsigned.value?_ofNat_mod (by omega) hsize hs]
    simp_all
  · simp_all

theorem groupedFrom_eq {length place : Nat} (hs : size ≠ 0) (hsize : size < 2 ^ 64)
    (hl : length < 2 ^ 64) (hp : place + digits.length = length) :
    groupedFrom size length separator place digits =
      some ((if 0 < place ∧ digits ≠ [] ∧ digits.length % size = 0 then [separator] else []) ++
        NumberPattern.grouped size separator digits) := by
  induction digits generalizing place with
  | nil => simp [groupedFrom, NumberPattern.grouped]
  | cons c rest ih =>
    rw [List.length_cons] at hp
    have hbehind : length - place = (c :: rest).length := by rw [List.length_cons]; omega
    rw [groupedFrom, startsGroup_eq hs hsize hl (by omega), ih (by omega), hbehind]
    simp only [Option.bind_eq_bind, Option.bind_some, Option.pure_def, decide_eq_true_eq,
      Option.some.injEq, ne_eq, reduceCtorEq, not_false_eq_true, true_and, Nat.succ_pos]
    cases rest with
    | nil => split <;> rfl
    | cons d rest =>
      rw [NumberPattern.grouped]
      by_cases hfirst : 0 < place ∧ (c :: d :: rest).length % size = 0 <;>
        by_cases hsecond : (d :: rest).length % size = 0 <;>
          simp only [hfirst, hsecond, if_true, if_false] <;> rfl

theorem grouped_eq (hs : size ≠ 0) (hsize : size < 2 ^ 64) (h : Short digits) :
    grouped size separator digits = some (NumberPattern.grouped size separator digits) := by
  have hlength := h.length_lt
  have hdiv := Nat.div_le_self digits.length size
  rw [grouped, utf8Length_of_isAscii h.isAscii,
    Unsigned.ofNat_div_ofNat (by omega) hsize hs, Unsigned.value?_ofNat_add (by omega),
    Option.bind_eq_bind, Option.bind_some, groupedFrom_eq hs hsize (by omega) (Nat.zero_add _)]
  simp

/-- The layout has places within a precision, and groups of some of its integer places. -/
structure LayoutFits (layout : Layout) : Prop where
  places_le : layout.integer.length + layout.fraction.length +
    (layout.exponent.elim 0 Exponent.minDigits) ≤ 65535
  groupSize : ∀ size, layout.groupSize = some size →
    size ≠ 0 ∧ size ≤ layout.integer.length

variable {layout : Layout} {locale : Locale}

theorem LayoutFits.minInteger_lt (h : LayoutFits layout) : layout.minInteger < 2 ^ 32 := by
  have hcount : layout.minInteger ≤ layout.integer.length := List.count_le_length
  have hplaces := h.places_le
  omega

theorem groupedBy_eq {digits : Text} (h : LayoutFits layout) (hd : Short digits) :
    groupedBy layout.groupSize separator digits =
      some (match layout.groupSize with
        | some size => NumberPattern.grouped size separator digits
        | none => digits) := by
  cases hs : layout.groupSize with
  | none => rfl
  | some size =>
    have hplaces := h.places_le
    obtain ⟨hne, hle⟩ := h.groupSize size hs
    exact grouped_eq hne (by omega) hd

theorem fixedField_eq (h : LayoutFits layout) :
    fixedField layout locale value = some (NumberPattern.fixedField layout locale value) := by
  have hplaces := h.places_le
  have hshort := short_fixed layout.maxFraction value
  have hfixed : fixed layout.maxFraction value =
      some (Decimal.fixed layout.maxFraction value) := by
    rw [fixed, Unsigned.value?_ofNat (by rw [Layout.maxFraction]; omega)]
    rfl
  rw [fixedField, hfixed]
  simp only [Option.bind_eq_bind, Option.bind_some, wholeDigits_eq hshort.isAscii h.minInteger_lt,
    groupedBy_eq h (short_wholeDigits hshort h.minInteger_lt), Option.pure_def]
  rfl

end Fixed

section Scientific

variable {value : Binary64} {rule : MantissaRule} {places units : Nat} {first exponent : Int}

/-- The number can be the power of ten of the first digit of a finite number. -/
abbrev IsDecade (n : Int) : Prop := -2000 ≤ n ∧ n ≤ 2000

theorem isDecade_decade (h : Binary64.Representable units) :
    -1999 ≤ Decimal.decade units Binary64.unitsPerOne ∧
      Decimal.decade units Binary64.unitsPerOne ≤ 1999 := by
  rw [Decimal.decade]
  split
  · have hlength := length_decimal_le_of_lt_two_pow (by decide) (div_unitsPerOne_lt h)
    rw [wholeBits] at hlength
    omega
  · have hlt : (Binary64.unitsPerOne - 1) / units < 2 ^ unitBits := by
      rw [← unitsPerOne_eq]
      have := Nat.div_le_self (Binary64.unitsPerOne - 1) units
      have := Binary64.unitsPerOne_pos
      omega
    have hlength := length_decimal_le_of_lt_two_pow (by decide) hlt
    rw [unitBits] at hlength
    omega

theorem isDecade_ofMultiples {count n : Nat} (h : -1999 ≤ first ∧ first ≤ 1999) :
    IsDecade (Decimal.Scientific.ofMultiples count first n).exponent := by
  rw [Decimal.Scientific.ofMultiples]
  split
  · exact ⟨by dsimp only; omega, by dsimp only; omega⟩
  · exact ⟨by dsimp only; omega, by dsimp only; omega⟩

theorem isDecade_zero : IsDecade 0 := ⟨by decide, by decide⟩

theorem isDecade_significantOf {count : Nat} (h : Binary64.Representable units) :
    IsDecade (Decimal.significantOf count units Binary64.unitsPerOne).exponent :=
  isDecade_ofMultiples (isDecade_decade h)

theorem isDecade_significant (count : Nat) (value : Binary64) :
    IsDecade (Decimal.significant count value).exponent := by
  cases value with
  | nan => exact isDecade_zero
  | infinite negative => exact isDecade_zero
  | finite negative units h => exact isDecade_significantOf h

theorem isDecade_readable? {count : Nat} {digits : Decimal.Scientific}
    (h : Binary64.Representable units) (hr : Decimal.readable? units count = some digits) :
    IsDecade digits.exponent := by
  have hdecade := isDecade_decade h
  simp only [Decimal.readable?] at hr
  split at hr
  · cases hr
  all_goals
    obtain rfl := Option.some.inj hr
    exact isDecade_ofMultiples hdecade

theorem isDecade_shortest (value : Binary64) : IsDecade (Decimal.shortest value).exponent := by
  cases value with
  | nan => exact isDecade_zero
  | infinite negative => exact isDecade_zero
  | finite negative units h =>
    rw [Decimal.shortest]
    split
    · exact isDecade_zero
    · rw [Decimal.shortestOf]
      cases hf : (List.range' 1 17).findSome? (Decimal.readable? units) with
      | none =>
        rw [Option.getD_none]
        exact isDecade_significantOf h
      | some digits =>
        obtain ⟨count, -, hr⟩ := List.exists_of_findSome?_eq_some hf
        exact isDecade_readable? h hr

theorem isAscii_significant (count : Nat) (value : Binary64) :
    IsAscii (Decimal.significant count value).digits := by
  cases value with
  | nan => exact short_nanText.isAscii
  | infinite negative => exact short_infinityText.isAscii
  | finite negative units hu =>
    simp only [Decimal.significant, Decimal.significantOf, Decimal.Scientific.ofMultiples]
    split <;> exact isAscii_decimal _

/-- A mantissa has an integer digit, and all its digits but one are a precision. -/
structure RuleFits (rule : MantissaRule) (places : Nat) : Prop where
  digits_pos : 1 ≤ rule.digits
  digits_le : rule.digits + places ≤ 65536

theorem div_mul_mem (first : Int) {d : Int} (h : 1 ≤ d) :
    first - (d - 1) ≤ first / d * d ∧ first / d * d ≤ first := by
  have hmod := Int.emod_nonneg first (show d ≠ 0 by omega)
  have hlt := Int.emod_lt_of_pos first (show 0 < d by omega)
  have hsum := Int.ediv_mul_add_emod first d
  omega

/-- Under its exponent, the first digit of a number is an integer digit. -/
theorem exponentFor_mem (first : Int) (h : 1 ≤ rule.digits) :
    first - (rule.digits - 1) ≤ rule.exponentFor first ∧ rule.exponentFor first ≤ first := by
  rw [MantissaRule.exponentFor]
  split
  · exact div_mul_mem first (by omega)
  · omega

theorem exponentFor_eq (h : RuleFits rule places) (hf : IsDecade first) :
    exponentFor rule first = some (rule.exponentFor first) := by
  obtain ⟨hpos, hle⟩ := h
  obtain ⟨hlow, hhigh⟩ := hf
  have hd : (1 : Int) ≤ rule.digits ∧ (rule.digits : Int) ≤ 65536 := by omega
  rw [exponentFor, MantissaRule.exponentFor]
  generalize (rule.digits : Int) = d at hd ⊢
  split
  · have hdiv : -2000 ≤ first / d ∧ first / d < 2001 :=
      ⟨(Int.le_ediv_iff_mul_le (by omega)).mpr (by omega),
        (Int.ediv_lt_iff_lt_mul (by omega)).mpr (by omega)⟩
    have hmul := div_mul_mem first hd.1
    rw [Signed.ediv_ofInt ⟨by omega, by omega⟩ ⟨by omega, by omega⟩ (by omega),
      Signed.ofInt_mul_ofInt ⟨by omega, by omega⟩ ⟨by omega, by omega⟩,
      Signed.value?_ofInt ⟨by omega, by omega⟩]
  · rw [Signed.literal_eq, Signed.ofInt_sub_ofInt ⟨by omega, by omega⟩ ⟨by decide, by decide⟩,
      Signed.ofInt_sub_ofInt ⟨by omega, by omega⟩ ⟨by omega, by omega⟩,
      Signed.value?_ofInt ⟨by omega, by omega⟩]

/-- The number can be the exponent of a mantissa. -/
abbrev IsExponent (n : Int) : Prop := -2 ^ 17 ≤ n ∧ n ≤ 2 ^ 17

theorem isExponent_exponentFor (h : RuleFits rule places) (hf : IsDecade first) :
    IsExponent (rule.exponentFor first) := by
  have hmem := exponentFor_mem first h.digits_pos
  have hle := h.digits_le
  constructor <;> omega

theorem digitsAbove_eq (hf : IsDecade first) (he : IsExponent exponent) :
    digitsAbove first exponent = some (first - exponent + 1) := by
  obtain ⟨hlow, hhigh⟩ := hf
  obtain ⟨helow, hehigh⟩ := he
  rw [digitsAbove, Signed.literal_eq, Signed.ofInt_sub_ofInt ⟨by omega, by omega⟩
    ⟨by omega, by omega⟩, Signed.ofInt_add_ofInt ⟨by omega, by omega⟩ ⟨by decide, by decide⟩,
    Signed.value?_ofInt ⟨by omega, by omega⟩]

theorem integerCount_eq (hf : IsDecade first) (he : IsExponent exponent) :
    integerCount first exponent = some (NumberPattern.integerCount first exponent) := by
  rw [integerCount, digitsAbove_eq hf he, NumberPattern.integerCount, Option.bind_eq_bind,
    Option.bind_some, Option.pure_def]
  congr 1
  omega

theorem integerCount_lt (hf : IsDecade first) (he : IsExponent exponent) :
    NumberPattern.integerCount first exponent < 2 ^ 18 := by
  obtain ⟨hlow, hhigh⟩ := hf
  obtain ⟨helow, hehigh⟩ := he
  rw [NumberPattern.integerCount]
  omega

theorem integerCount_exponentFor_le (first : Int) (h : 1 ≤ rule.digits) :
    NumberPattern.integerCount first (rule.exponentFor first) ≤ rule.digits := by
  have hmem := exponentFor_mem first h
  rw [NumberPattern.integerCount]
  omega

/-- The digits of a number, rounded for the exponent of a first digit. -/
def roundedFor (rule : MantissaRule) (places : Nat) (value : Binary64) (first : Int) :
    Decimal.Scientific :=
  Decimal.significant (NumberPattern.integerCount first (rule.exponentFor first) + places) value

theorem rounded_eq (h : RuleFits rule places) (hf : IsDecade first) :
    rounded rule places value first =
      some (rule.exponentFor first, roundedFor rule places value first) := by
  have hle := h.digits_le
  have hcount := integerCount_exponentFor_le first h.digits_pos
  rw [rounded, exponentFor_eq h hf, Option.bind_eq_bind, Option.bind_some,
    integerCount_eq hf (isExponent_exponentFor h hf), roundedFor]
  generalize NumberPattern.integerCount first (rule.exponentFor first) = count at hcount ⊢
  rw [Option.bind_eq_bind, Option.bind_some, Unsigned.value?_ofNat_add (by omega),
    Option.bind_eq_bind, Option.bind_some, significant, Unsigned.value?_ofNat (by omega)]
  rfl

/-- The exponent after a carry into one more integer digit. -/
def carried (rule : MantissaRule) (first exponent : Int) : Int :=
  if rule.digits < first - exponent + 1 then exponent + rule.step else exponent

theorem step_mem (h : 1 ≤ rule.digits) : 1 ≤ rule.step ∧ rule.step ≤ rule.digits := by
  rw [MantissaRule.step]
  split <;> omega

theorem isExponent_carried (h : 1 ≤ rule.digits) (hf : IsDecade first)
    (he : IsExponent exponent) : IsExponent (carried rule first exponent) := by
  obtain ⟨hlow, hhigh⟩ := hf
  obtain ⟨helow, hehigh⟩ := he
  have hstep := step_mem h
  rw [carried]
  split
  · constructor <;> omega
  · exact ⟨helow, hehigh⟩

theorem carriedExponent_eq (h : RuleFits rule places) (hf : IsDecade first)
    (he : IsExponent exponent) :
    carriedExponent rule first exponent = some (carried rule first exponent) := by
  obtain ⟨hpos, hle⟩ := h
  have hstep := step_mem hpos
  rw [carriedExponent, digitsAbove_eq hf he, Option.bind_eq_bind, Option.bind_some,
    Signed.value?_ofInt ⟨by omega, by omega⟩, Option.bind_some, carried]
  obtain ⟨helow, hehigh⟩ := he
  split
  · rw [Signed.ofInt_add_ofInt ⟨by omega, by omega⟩ ⟨by omega, by omega⟩,
      Signed.value?_ofInt ⟨by omega, by omega⟩]
  · rfl

theorem fitted_eq {digits : Text} (h : IsAscii digits) (size : Nat) :
    fitted size digits = some (Text.fitted size digits) := by
  rw [fitted, Text.fitted, utf8Length_of_isAscii h]
  split
  · rename_i hle
    rw [sliceTo, cutAt_of_isAscii h hle, Nat.sub_eq_zero_of_le hle]
    simp
  · rename_i hle
    rw [List.take_of_length_le (by omega)]

theorem isAscii_fitted {digits : Text} (h : IsAscii digits) (size : Nat) :
    IsAscii (Text.fitted size digits) :=
  isAscii_append (fun c hc => h c (List.mem_of_mem_take hc)) (isAscii_zeros _)

theorem length_fitted (size : Nat) (t : Text) : (Text.fitted size t).length = size := by
  rw [Text.fitted, List.length_append, List.length_take, List.length_replicate]
  omega

/-- The mantissa that shows digits under an exponent. -/
def shownMantissa (places : Nat) (digits : Decimal.Scientific) (exponent : Int) : Mantissa :=
  let count := NumberPattern.integerCount digits.exponent exponent
  let shown := Text.fitted (count + places) digits.digits
  ⟨shown.take count, shown.drop count, exponent⟩

theorem mantissaOf_eq {digits : Decimal.Scientific} (hp : places < 2 ^ 32)
    (hd : IsAscii digits.digits) (hf : IsDecade digits.exponent) (he : IsExponent exponent) :
    mantissaOf places digits exponent = some (shownMantissa places digits exponent) := by
  have hcount := integerCount_lt hf he
  rw [mantissaOf, integerCount_eq hf he, shownMantissa]
  generalize NumberPattern.integerCount digits.exponent exponent = count at hcount ⊢
  rw [Option.bind_eq_bind, Option.bind_some, Unsigned.value?_ofNat_add (by omega),
    Option.bind_eq_bind, Option.bind_some, fitted_eq hd, Option.bind_eq_bind, Option.bind_some,
    cutAt_of_isAscii (isAscii_fitted hd _) (by rw [length_fitted]; omega)]
  rfl

/-- The first digit for which the mantissa of a number is rounded. -/
def settledFirst (rule : MantissaRule) (places : Nat) (value : Binary64) : Int :=
  let first := (Decimal.shortest value).exponent
  let again := (roundedFor rule places value first).exponent
  if again < first then again else first

theorem isDecade_settledFirst (rule : MantissaRule) (places : Nat) (value : Binary64) :
    IsDecade (settledFirst rule places value) := by
  rw [settledFirst]
  split
  · exact isDecade_significant _ value
  · exact isDecade_shortest value

theorem mantissa_of_not_isZero (hz : ¬ value.isZero) :
    NumberPattern.mantissa rule places value =
      shownMantissa places (roundedFor rule places value (settledFirst rule places value))
        (carried rule (roundedFor rule places value (settledFirst rule places value)).exponent
          (rule.exponentFor (settledFirst rule places value))) := by
  rw [NumberPattern.mantissa, if_neg hz]
  by_cases hback : (roundedFor rule places value (Decimal.shortest value).exponent).exponent <
      (Decimal.shortest value).exponent
  · rw [show settledFirst rule places value = _ from if_pos hback]
    simp only [roundedFor] at hback ⊢
    simp only [if_pos hback]
    rfl
  · rw [show settledFirst rule places value = _ from if_neg hback]
    simp only [roundedFor] at hback ⊢
    simp only [if_neg hback]
    rfl

theorem isAscii_mantissa (rule : MantissaRule) (places : Nat) (value : Binary64) :
    IsAscii (NumberPattern.mantissa rule places value).whole := by
  by_cases hz : value.isZero
  · rw [NumberPattern.mantissa, if_pos hz]
    exact isAscii_zeros 1
  · rw [mantissa_of_not_isZero hz]
    exact fun c hc => isAscii_fitted (isAscii_significant _ value) _ c (List.mem_of_mem_take hc)

theorem mantissa_eq (h : RuleFits rule places) (value : Binary64) :
    mantissa rule places value = some (NumberPattern.mantissa rule places value) := by
  have hle := h.digits_le
  have hfirst := isDecade_shortest value
  have hsettled := isDecade_settledFirst rule places value
  have hguess : (if (roundedFor rule places value (Decimal.shortest value).exponent).exponent <
        (Decimal.shortest value).exponent then
        rounded rule places value
          (roundedFor rule places value (Decimal.shortest value).exponent).exponent
      else some (rule.exponentFor (Decimal.shortest value).exponent,
        roundedFor rule places value (Decimal.shortest value).exponent)) =
        some (rule.exponentFor (settledFirst rule places value),
          roundedFor rule places value (settledFirst rule places value)) := by
    rw [settledFirst]
    split
    · exact rounded_eq h (isDecade_significant _ value)
    · rfl
  by_cases hz : value.isZero
  · rw [mantissa, NumberPattern.mantissa, if_pos hz, if_pos hz]
  · rw [mantissa, if_neg hz, mantissa_of_not_isZero hz]
    simp only [rounded_eq h hfirst, Option.bind_eq_bind, Option.bind_some, hguess]
    generalize settledFirst rule places value = first at hsettled ⊢
    have hdecade : IsDecade (roundedFor rule places value first).exponent :=
      isDecade_significant _ value
    have hexponent := isExponent_exponentFor h hsettled
    rw [carriedExponent_eq h hdecade hexponent, Option.bind_some]
    exact mantissaOf_eq (by omega) (isAscii_significant _ value) hdecade
      (isExponent_carried h.digits_pos hdecade hexponent)

theorem exponentText_eq {spec : Exponent} (h : spec.minDigits < 2 ^ 16) (exponent : Int) :
    exponentText spec exponent = some (NumberPattern.exponentText spec exponent) := by
  rw [exponentText, padded_eq h]
  rfl

theorem fits_ofLayout {layout : Layout} (h : LayoutFits layout) :
    RuleFits (.ofLayout layout) layout.maxFraction := by
  have hplaces := h.places_le
  have hcount : layout.minInteger ≤ layout.integer.length := List.count_le_length
  rw [MantissaRule.ofLayout, Layout.maxFraction]
  split
  · exact ⟨by dsimp only; omega, by dsimp only; omega⟩
  · exact ⟨by dsimp only; omega, by dsimp only; omega⟩

theorem scientificField_eq {layout : Layout} {spec : Exponent} {locale : Locale}
    (h : LayoutFits layout) (hs : layout.exponent = some spec) :
    scientificField layout spec locale value =
      some (NumberPattern.scientificField layout spec locale value) := by
  have hplaces := h.places_le
  rw [hs, Option.elim_some] at hplaces
  have hexponent : spec.minDigits < 2 ^ 16 := by omega
  have hrule := fits_ofLayout h
  rw [scientificField, mantissa_eq hrule]
  simp only [Option.bind_eq_bind, Option.bind_some,
    wholeDigits_eq (isAscii_mantissa _ _ value) h.minInteger_lt,
    exponentText_eq hexponent, Option.pure_def]
  rfl

end Scientific

variable {layout : Layout} {value : Binary64} {locale : Locale}

theorem digitField_eq (h : LayoutFits layout) :
    digitField layout locale value = some (NumberPattern.digitField layout locale value) := by
  rw [digitField, NumberPattern.digitField]
  cases hs : layout.exponent with
  | none => exact fixedField_eq h
  | some spec => exact scientificField_eq h hs

theorem apply_eq {pattern : NumberPattern} (h : LayoutFits pattern.layout) :
    apply pattern locale value = some (pattern.apply locale value) := by
  have hfield (negative : Bool) (scaled : Binary64) : (do
      let field ← digitField pattern.layout locale scaled
      return pattern.withAffixes negative field) =
        some (pattern.withAffixes negative
          (NumberPattern.digitField pattern.layout locale scaled)) := by
    rw [digitField_eq h]
    rfl
  cases value with
  | nan => rfl
  | infinite negative | finite negative units hu =>
    simp only [apply, NumberPattern.apply]
    generalize pattern.scaledMagnitude _ = scaled
    cases scaled with
    | infinite negative => rfl
    | nan | finite negative units hu => exact hfield _ _

end CellDisplay.Checked
