import CellDisplay.Proofs.Checked.Digits
import CellDisplay.Proofs.Decimal.Significant
import CellDisplay.Proofs.NumberPattern.Fixed

/-! # Numbers with an exponent

The mantissa of a positive number is rounded to significant digits, on the exact scaled magnitude.
Its exponent is taken from the shortest digits, which can be the power of ten above the magnitude;
the exponent is settled once the rounded digits are known.
-/

namespace CellDisplay

open Text Decimal

namespace NumberPattern

open Checked (roundedFor settledFirst carried shownMantissa mantissa_of_not_isZero
  exponentFor_mem div_mul_mem)

variable {value : Binary64} {places count d k n : ℕ} {x m : ℚ} {e first : ℤ} {rule : MantissaRule}
  {s : Scientific} {layout : Layout} {locale : Locale} {spec : Exponent} {pattern : NumberPattern}

/-- The digits of a mantissa denote `m`. -/
structure Mantissa.Denotes (mantissa : Mantissa) (places : ℕ) (m : ℚ) : Prop where
  isDigits_whole : IsDigits mantissa.whole
  isDigits_fraction : IsDigits mantissa.fraction
  length_fraction : mantissa.fraction.length = places
  eq_value : m = Text.value mantissa.whole + Text.value mantissa.fraction / 10 ^ places

theorem Mantissa.Denotes.nonneg {mantissa : Mantissa} (h : mantissa.Denotes places m) : 0 ≤ m := by
  rw [h.eq_value]
  positivity

section Field

theorem writes_exponentText (spec : Exponent) (e : ℤ) : spec.Writes e (exponentText spec e) :=
  ⟨_, pads_padded _ _, rfl⟩

/-- A field with an exponent shows the number that its mantissa denotes. -/
theorem renders_scientificField (locale : Locale) (hspec : layout.exponent = some spec)
    (h : (mantissa (.ofLayout layout) layout.maxFraction value).Denotes layout.maxFraction m) :
    layout.Renders locale m (some (mantissa (.ofLayout layout) layout.maxFraction value).exponent)
        (scientificField layout spec locale value).text ∧
      ((scientificField layout spec locale value).isZero ↔ m = 0) := by
  have hshows := shows_of_isDigits h.isDigits_whole h.isDigits_fraction h.length_fraction h.eq_value
  exact ⟨⟨_, _, hshows, .scientific hspec (writes_exponentText spec _)⟩,
    isZero_iff_of_shows h.isDigits_whole hshows h.nonneg⟩

end Field

section Rounding

theorem integerCount_of_le (h : e ≤ first) : (integerCount first e : ℤ) = first - e + 1 := by
  rw [integerCount]
  omega

/-- Rounded digits keep their number when they are fitted to a size, if they have that size or are
a power of ten. -/
theorem exists_fitted_digits {size : ℕ} (hs : s.Rounds count x n) (hsize : 0 < size)
    (h : count = size ∨ n = 10 ^ (count - 1)) :
    ∃ shown, fitted size s.digits = decimal shown ∧
      10 ^ (size - 1) ≤ shown ∧ shown < 10 ^ size ∧
      (shown : ℚ) * 10 ^ (-size : ℤ) = n * 10 ^ (-count : ℤ) := by
  have hcount := hs.count_pos
  rcases h with rfl | rfl
  · refine ⟨n, ?_, hs.low, hs.high, rfl⟩
    rw [hs.digits, fitted_of_length_eq (length_decimal hcount hs.low hs.high)]
  · refine ⟨10 ^ (size - 1), ?_, le_rfl, Nat.pow_lt_pow_of_lt (by decide) (by omega), ?_⟩
    · rw [hs.digits, fitted_decimal_pow hsize]
    · rw [natCast_pow_mul_zpow, natCast_pow_mul_zpow]
      congr 1
      omega

/-- Cut before its last `places` digits, a number is denoted in units of the last place. -/
theorem denotes_decimal {a : ℕ} (h : (decimal n).length = a + places) (e : ℤ) :
    Mantissa.Denotes ⟨(decimal n).take a, (decimal n).drop a, e⟩ places (n / 10 ^ places) := by
  have hdrop : ((decimal n).drop a).length = places := by
    rw [List.length_drop, h, Nat.add_sub_cancel_left]
  have hsplit := value_append ((decimal n).take a) ((decimal n).drop a)
  rw [List.take_append_drop, value_decimal, hdrop] at hsplit
  refine ⟨fun c hc => isDigits_decimal _ c (List.mem_of_mem_take hc),
    fun c hc => isDigits_decimal _ c (List.mem_of_mem_drop hc), hdrop, ?_⟩
  rw [div_eq_iff (by positivity), add_mul, div_mul_cancel₀ _ (by positivity)]
  exact_mod_cast hsplit

/-- Fitted to its places, a mantissa shows the rounded digits: either they are as many, or they are
a power of ten. -/
theorem exists_denotes_shownMantissa (places : ℕ) (hs : s.Rounds count x n) (he : e ≤ s.exponent)
    (h : count = integerCount s.exponent e + places ∨ n = 10 ^ (count - 1)) :
    ∃ m : ℚ, (shownMantissa places s e).Denotes places m ∧
      m * 10 ^ e = n * 10 ^ (s.exponent + 1 - count) ∧
      10 ^ (integerCount s.exponent e - 1) ≤ m ∧ m < 10 ^ integerCount s.exponent e := by
  have hinteger := integerCount_of_le he
  have hsize : 0 < integerCount s.exponent e + places := by omega
  obtain ⟨shown, hshown, hlow, hhigh, hvalue⟩ := exists_fitted_digits hs hsize h
  refine ⟨shown / 10 ^ places, ?_, ?_, ?_, ?_⟩
  · simp only [shownMantissa, hshown]
    exact denotes_decimal (length_decimal hsize hlow hhigh) e
  · calc (shown / 10 ^ places * 10 ^ e : ℚ)
        = shown * 10 ^ (-(integerCount s.exponent e + places : ℕ) : ℤ) * 10 ^ (s.exponent + 1) := by
          rw [mul_assoc, ← zpow_add₀ (by norm_num), div_mul_eq_mul_div, mul_div_assoc,
            ← zpow_natCast, ← zpow_sub₀ (by norm_num)]
          congr 2
          omega
      _ = n * 10 ^ (-count : ℤ) * 10 ^ (s.exponent + 1) := by rw [hvalue]
      _ = n * 10 ^ (s.exponent + 1 - count) := by
          rw [mul_assoc, ← zpow_add₀ (by norm_num)]
          congr 2
          omega
  · rw [le_div_iff₀ (by positivity), ← pow_add]
    rw [Nat.sub_add_comm (by omega)] at hlow
    exact_mod_cast hlow
  · rw [div_lt_iff₀ (by positivity), ← pow_add]
    exact_mod_cast hhigh

theorem exists_rounds_roundedFor (rule : MantissaRule) (places : ℕ) (first : ℤ)
    (h : 0 < value.magnitude) : ∃ n, (roundedFor rule places value first).Rounds
      (integerCount first (rule.exponentFor first) + places) value.magnitude n := by
  refine exists_rounds_significant ?_ h
  rw [integerCount]
  omega

/-- The settled first digit is in the decade of the number, or in the one above it, if that is the
decade of the shortest digits and of the rounded ones. -/
theorem settledFirst_cases (rule : MantissaRule) (places : ℕ) (h : 0 < value.magnitude) :
    settledFirst rule places value = Int.log 10 value.magnitude ∧
        ¬ ((shortest value).exponent = Int.log 10 value.magnitude + 1 ∧
          (roundedFor rule places value (Int.log 10 value.magnitude + 1)).exponent =
            Int.log 10 value.magnitude + 1) ∨
      settledFirst rule places value = Int.log 10 value.magnitude + 1 ∧
        (shortest value).exponent = Int.log 10 value.magnitude + 1 ∧
        (roundedFor rule places value (Int.log 10 value.magnitude + 1)).exponent =
          Int.log 10 value.magnitude + 1 := by
  rw [settledFirst]
  rcases exponent_shortest h with hshort | hshort
  · obtain ⟨n, hn⟩ := exists_rounds_roundedFor rule places (Int.log 10 value.magnitude) h
    have hexponent := hn.exponent
    rw [hshort, if_neg (by omega)]
    exact .inl ⟨rfl, fun hnext => by omega⟩
  · obtain ⟨n, hn⟩ := exists_rounds_roundedFor rule places (Int.log 10 value.magnitude + 1) h
    rw [hshort]
    rcases hn.exponent with hexponent | ⟨hexponent, -⟩
    · rw [if_pos (by omega)]
      exact .inl ⟨hexponent, fun hnext => by omega⟩
    · rw [if_neg (by omega)]
      exact .inr ⟨rfl, rfl, hexponent⟩

end Rounding

section Plain

/-- With a fixed number of digits before the point, the exponent follows the rounded digits. -/
theorem exists_denotes_plain (places : ℕ) (hd : 1 ≤ d) (h : 0 < value.magnitude) :
    ∃ m : ℚ, (mantissa ⟨false, d⟩ places value).Denotes places m ∧
      IsRounding (10 ^ (Int.log 10 value.magnitude + 1 - (d + places : ℕ))) value.magnitude
        (m * 10 ^ (mantissa ⟨false, d⟩ places value).exponent) ∧
      10 ^ (d - 1) ≤ m ∧ m < 10 ^ d := by
  have hfor (first : ℤ) : (⟨false, d⟩ : MantissaRule).exponentFor first = first - (d - 1) := rfl
  rw [mantissa_of_not_isZero (Binary64.not_isZero_of_magnitude_pos h)]
  have hsettled := settledFirst_cases ⟨false, d⟩ places h
  generalize settledFirst ⟨false, d⟩ places value = first at hsettled ⊢
  have hcount (first : ℤ) : integerCount first (first - (d - 1)) = d := by
    rw [integerCount]
    omega
  have hsame (first first' : ℤ) : roundedFor ⟨false, d⟩ places value first =
      roundedFor ⟨false, d⟩ places value first' := by
    simp only [roundedFor, hfor, hcount]
  obtain ⟨n, hn⟩ := exists_rounds_roundedFor ⟨false, d⟩ places first h
  rw [hsame (Int.log 10 value.magnitude + 1) first] at hsettled
  rw [hfor, hcount] at hn
  generalize roundedFor ⟨false, d⟩ places value first = s at hsettled hn ⊢
  have hcarried : carried ⟨false, d⟩ s.exponent (first - (d - 1)) = s.exponent - (d - 1) := by
    have hexponent := hn.exponent
    simp only [carried, MantissaRule.step, Bool.false_eq_true, if_false]
    split <;> omega
  rw [hfor, hcarried]
  obtain ⟨m, hdenotes, hvalue, hlow, hhigh⟩ := exists_denotes_shownMantissa
    places (e := s.exponent - (d - 1)) hn (by omega) (.inl (by rw [hcount]))
  refine ⟨m, hdenotes, ?_, ?_, ?_⟩
  · exact hvalue ▸ hn.isRounding
  · rwa [hcount] at hlow
  · rwa [hcount] at hhigh

theorem ofLayout_eq_plain
    (h : layout.integer.length ≤ 1 ∨ layout.integer.length = layout.minInteger) :
    MantissaRule.ofLayout layout = ⟨false, max layout.minInteger 1⟩ := by
  rw [MantissaRule.ofLayout, if_neg (by omega)]

/-- A magnitude with a digit for every required place before the point is not padded. -/
theorem Layout.Shows.length_whole {whole fraction : Text} (h : layout.Shows m whole fraction)
    (hlow : 10 ^ (max layout.minInteger 1 - 1) ≤ m) (hhigh : m < 10 ^ max layout.minInteger 1) :
    whole.length = max layout.minInteger 1 ∧ whole.head? ≠ some '0' := by
  refine h.pads.length_eq ?_ ?_ ?_
  · split <;> omega
  · exact Nat.le_floor (by exact_mod_cast hlow)
  · exact (Nat.floor_lt (le_trans (by positivity) hlow)).mpr (by exact_mod_cast hhigh)

/-- A positive number with an exponent is shown by the field of its mantissa. -/
theorem exists_field_of_denotes (locale : Locale) (hspec : pattern.layout.exponent = some spec)
    (hpos : 0 < (pattern.scaledMagnitude value).magnitude)
    (h : (mantissa (.ofLayout pattern.layout) pattern.layout.maxFraction
      (pattern.scaledMagnitude value)).Denotes pattern.layout.maxFraction m) (hm : 0 < m) :
    ∃ whole fraction digits, pattern.layout.Shows m whole fraction ∧
      pattern.layout.Writes locale whole fraction (some (mantissa (.ofLayout pattern.layout)
        pattern.layout.maxFraction (pattern.scaledMagnitude value)).exponent) digits ∧
      pattern.apply locale value =
        if value.isNegative then pattern.negated digits else pattern.positive.around digits := by
  obtain ⟨⟨whole, fraction, hshows, hwrites⟩, hzero⟩ := renders_scientificField locale hspec h
  refine ⟨whole, fraction, _, hshows, hwrites, ?_⟩
  rw [apply_of_isFinite (Binary64.isFinite_of_magnitude_pos hpos), digitField, hspec,
    withAffixes_eq]
  exact if_congr (and_iff_left (mt hzero.mp hm.ne')) rfl rfl

/-- With a fixed number of digits before the point, a positive number is rounded to as many
significant digits as there are places: half-way on the exact scaled magnitude to the even digit. -/
theorem apply_shows_significant_rounding (locale : Locale)
    (hspec : pattern.layout.exponent = some spec)
    (hplaces : pattern.layout.integer.length ≤ 1 ∨
      pattern.layout.integer.length = pattern.layout.minInteger)
    (hpos : 0 < (pattern.scaledMagnitude value).magnitude) :
    ∃ (m : ℚ) (e : ℤ) (whole fraction digits : Text),
      IsRounding (10 ^ (Int.log 10 (pattern.scaledMagnitude value).magnitude + 1 -
          (max pattern.layout.minInteger 1 + pattern.layout.maxFraction : ℕ)))
        (pattern.scaledMagnitude value).magnitude (m * 10 ^ e) ∧
      pattern.layout.Shows m whole fraction ∧
      whole.length = max pattern.layout.minInteger 1 ∧ whole.head? ≠ some '0' ∧
      pattern.layout.Writes locale whole fraction (some e) digits ∧
      pattern.apply locale value =
        if value.isNegative then pattern.negated digits else pattern.positive.around digits := by
  obtain ⟨m, hdenotes, hround, hlow, hhigh⟩ := exists_denotes_plain
    pattern.layout.maxFraction (Nat.le_max_right pattern.layout.minInteger 1) hpos
  rw [← ofLayout_eq_plain hplaces] at hdenotes hround
  obtain ⟨whole, fraction, digits, hshows, hwrites, happly⟩ :=
    exists_field_of_denotes locale hspec hpos hdenotes (lt_of_lt_of_le (by positivity) hlow)
  obtain ⟨hlength, hhead⟩ := hshows.length_whole hlow hhigh
  exact ⟨m, _, whole, fraction, digits, hround, hshows, hlength, hhead, hwrites, happly⟩

/-- The pattern `0.00E0`. -/
def normalizedPattern : NumberPattern :=
  ⟨⟨[.required], [.required, .required], none, some ⟨1, false⟩⟩, ⟨[], []⟩, none⟩

theorem apply_shows_significant_rounding_carry :
    ∃ (m : ℚ) (e : ℤ),
      IsRounding (10 ^ (Int.log 10 (10239 / 1024 : ℚ) + 1 - 3)) (10239 / 1024) (m * 10 ^ e) ∧
      normalizedPattern.layout.Renders .enUS m (some e) "1.00E1".toList := by
  have hscaled : normalizedPattern.scaledMagnitude (.ofRatio 10239 1024) =
      .finite false (10239 * 2 ^ 1064)
        (Binary64.representable_mul (by norm_num) (by norm_num)) := by
    decide +kernel
  have hmagnitude := Binary64.magnitude_eq_div (k := 10239) (e := 1064) (j := 10) hscaled
    (by norm_num)
  have htext : normalizedPattern.apply .enUS (.ofRatio 10239 1024) = "1.00E1".toList := by
    decide +kernel
  have hsign : (Binary64.ofRatio 10239 1024).isNegative = false := by decide +kernel
  obtain ⟨m, e, whole, fraction, digits, hround, hshows, -, -, hwrites, happly⟩ :=
    apply_shows_significant_rounding .enUS rfl (.inl (by decide))
      (show 0 < (normalizedPattern.scaledMagnitude (.ofRatio 10239 1024)).magnitude by
        rw [hmagnitude]; norm_num)
  rw [happly, hsign, if_neg Bool.false_ne_true] at htext
  have hdigits : digits = "1.00E1".toList := by
    simpa [normalizedPattern, Affixes.around] using htext
  rw [hmagnitude] at hround
  refine ⟨m, e, ?_, whole, fraction, hshows, hdigits ▸ hwrites⟩
  norm_num at hround ⊢
  exact hround

end Plain

end NumberPattern

end CellDisplay
