import CellDisplay.Proofs.NumberPattern.Parsing
import CellDisplay.Proofs.NumberPattern.Shown

/-! # Numbers without an exponent

Without an exponent a number is rounded to the fraction places of the layout, on its exact scaled
magnitude, and shown by the digits of the rounded magnitude.
-/

namespace CellDisplay

open Text

namespace Decimal

variable {places n : ℕ}

theorem isDigits_ofScaled (places n : ℕ) :
    IsDigits (Fixed.ofScaled places n).whole ∧ IsDigits (Fixed.ofScaled places n).fraction := by
  refine ⟨isDigits_decimal _, ?_⟩
  rw [Fixed.ofScaled]
  split
  · exact fun c hc => absurd hc List.not_mem_nil
  · exact (pads_padded _ _).isDigits

theorem length_fraction_ofScaled (places n : ℕ) :
    (Fixed.ofScaled places n).fraction.length = places := by
  rw [Fixed.ofScaled]
  split
  · rename_i hz
    exact hz.symm
  · rename_i hne
    have hlt : n % 10 ^ places < 10 ^ places := Nat.mod_lt _ (Nat.pow_pos (by decide))
    have hle := (length_decimal_le_iff (Nat.pos_of_ne_zero hne)).mpr hlt
    rw [padded, length_zeroPadded, Nat.max_eq_left hle]

/-- The digits denote the number of multiples they are taken from. -/
theorem value_ofScaled (places n : ℕ) :
    (value (Fixed.ofScaled places n).whole +
      value (Fixed.ofScaled places n).fraction / 10 ^ places : ℚ) = n / 10 ^ places := by
  have hfraction : value (Fixed.ofScaled places n).fraction = n % 10 ^ places := by
    rw [Fixed.ofScaled]
    split
    · rename_i hz
      rw [hz, Nat.pow_zero, Nat.mod_one, value_nil]
    · exact (pads_padded _ _).value_eq
  have hsplit : (n : ℚ) = (n / 10 ^ places : ℕ) * 10 ^ places + (n % 10 ^ places : ℕ) := by
    exact_mod_cast (Nat.div_add_mod' n (10 ^ places)).symm
  rw [hfraction, Fixed.ofScaled, value_decimal, eq_div_iff (by positivity), add_mul,
    div_mul_cancel₀ _ (by positivity), ← hsplit]

theorem isRounding_scaled (places units : ℕ) :
    IsRounding (10 ^ (-places : ℤ)) (units / Binary64.unitsPerOne)
      (scaled places units / 10 ^ places) := by
  have hstep : (0 : ℚ) < 10 ^ (-places : ℤ) := zpow_pos (by norm_num) _
  have h := isRounding_roundHalfEven (units * 10 ^ places) Binary64.unitsPerOne_pos hstep
  have hexact : ((units * 10 ^ places : ℕ) : ℚ) / Binary64.unitsPerOne * (10 ^ places)⁻¹ =
      units / Binary64.unitsPerOne := by
    rw [Nat.cast_mul, Nat.cast_pow, Nat.cast_ofNat, div_mul_eq_mul_div,
      mul_inv_cancel_right₀ (by positivity)]
  rw [zpow_neg, zpow_natCast] at h ⊢
  rwa [hexact, ← div_eq_mul_inv, ← scaled] at h

end Decimal

namespace NumberPattern

variable {layout : Layout} {locale : Locale} {value : Binary64} {pattern : NumberPattern}

/-- A field without an exponent shows the rounded magnitude. -/
theorem exists_renders_fixedField (locale : Locale) (hexponent : layout.exponent = none)
    (hsize : layout.groupSize ≠ some 0) (h : value.IsFinite) :
    ∃ r, Decimal.IsRounding (10 ^ (-layout.maxFraction : ℤ)) value.magnitude r ∧ 0 ≤ r ∧
      layout.Renders locale r none (fixedField layout locale value).text ∧
      ((fixedField layout locale value).isZero ↔ r = 0) := by
  obtain ⟨negative, units, hu, rfl⟩ := h
  rw [Binary64.magnitude]
  refine ⟨_, Decimal.isRounding_scaled layout.maxFraction units, by positivity, ?_⟩
  simp only [fixedField, Decimal.fixed]
  generalize Decimal.scaled layout.maxFraction units = n
  obtain ⟨hwhole, hfraction⟩ := Decimal.isDigits_ofScaled layout.maxFraction n
  have hlength := Decimal.length_fraction_ofScaled layout.maxFraction n
  have hvalue := Decimal.value_ofScaled layout.maxFraction n
  have hshows := shows_of_isDigits hwhole hfraction hlength hvalue.symm
  refine ⟨⟨_, _, hshows, .fixed hexponent ?_⟩, isZero_iff_of_shows hwhole hshows (by positivity)⟩
  cases hs : layout.groupSize with
  | none => rfl
  | some size =>
    have hsize : size ≠ 0 := fun hz => hsize (hz ▸ hs)
    exact isGrouped_grouped _ (Nat.pos_of_ne_zero hsize) _

/-- The text of a negative number with these digits. -/
def negated (pattern : NumberPattern) (digits : Text) : Text :=
  match pattern.negative with
  | some affixes => affixes.around digits
  | none => '-' :: pattern.positive.around digits

theorem withAffixes_negative (pattern : NumberPattern) (field : DigitField) :
    pattern.withAffixes true field =
      if field.isZero then pattern.positive.around field.text else pattern.negated field.text := by
  rw [withAffixes, negated]
  cases field.isZero <;> rfl

theorem withAffixes_eq (pattern : NumberPattern) (negative : Bool) (field : DigitField) :
    pattern.withAffixes negative field =
      if negative ∧ ¬ field.isZero then pattern.negated field.text
      else pattern.positive.around field.text := by
  cases negative with
  | false => rfl
  | true =>
    rw [withAffixes_negative]
    cases field.isZero <;> rfl

theorem apply_of_ne_infinite (hvalue : value ≠ .nan)
    (h : ∀ negative, pattern.scaledMagnitude value ≠ .infinite negative) :
    pattern.apply locale value = pattern.withAffixes value.isNegative
      (digitField pattern.layout locale (pattern.scaledMagnitude value)) := by
  cases value with
  | nan => exact absurd rfl hvalue
  | infinite negative | finite negative units hu =>
    simp only [apply]

theorem apply_of_isFinite (h : (pattern.scaledMagnitude value).IsFinite) :
    pattern.apply locale value = pattern.withAffixes value.isNegative
      (digitField pattern.layout locale (pattern.scaledMagnitude value)) := by
  refine apply_of_ne_infinite ?_ h.ne_infinite
  rintro rfl
  obtain ⟨negative, units, hu, hscaled⟩ := h
  cases hscaled

theorem groupSize_ne_zero_of_parse {text : Text} (h : parse text = .ok pattern) :
    pattern.layout.groupSize ≠ some 0 := fun hs => (groupSize_of_parse h hs).1 rfl

/-- Without an exponent, a number is shown rounded to the fraction places of its pattern: half-way
on the exact scaled magnitude to the even digit, in the one way that the layout shows the result.
Around its digits stand the affixes for its sign, which is dropped if the result is zero. -/
theorem apply_shows_rounded_fixed {text : Text} (locale : Locale)
    (hparse : parse text = .ok pattern) (hexponent : pattern.layout.exponent = none)
    (hfinite : (pattern.scaledMagnitude value).IsFinite) :
    ∃ r digits, Decimal.IsRounding (10 ^ (-pattern.layout.maxFraction : ℤ))
        (pattern.scaledMagnitude value).magnitude r ∧
      (∀ shown, pattern.layout.Renders locale r none shown ↔ shown = digits) ∧
      pattern.apply locale value =
        if value.isNegative ∧ r ≠ 0 then pattern.negated digits
        else pattern.positive.around digits := by
  have hsize := groupSize_ne_zero_of_parse hparse
  obtain ⟨r, hround, -, hrenders, hzero⟩ :=
    exists_renders_fixedField locale hexponent hsize hfinite
  refine ⟨r, _, hround, fun shown => ⟨fun h => h.unique hsize hrenders, ?_⟩, ?_⟩
  · rintro rfl
    exact hrenders
  · rw [apply_of_isFinite hfinite, digitField, hexponent, withAffixes_eq]
    exact if_congr (and_congr_right' (not_congr hzero)) rfl rfl

/-- The pattern `#,##0.0#`. -/
def groupedPattern : NumberPattern :=
  ⟨⟨[.optional, .optional, .optional, .required], [.required, .optional], some 3, none⟩,
    ⟨[], []⟩, none⟩

theorem apply_shows_rounded_fixed_tie :
    ∃ r, Decimal.IsRounding (10 ^ (-2 : ℤ)) (9876537 / 8) r ∧
      groupedPattern.layout.Renders .enUS r none "1,234,567.12".toList := by
  have hparse : parse "#,##0.0#".toList = .ok groupedPattern := by decide +kernel
  have hscaled : groupedPattern.scaledMagnitude (.ofRatio 9876537 8) =
      .finite false (9876537 * 2 ^ 1071)
        (Binary64.representable_mul (by norm_num) (by norm_num)) := by
    decide +kernel
  have hmagnitude := Binary64.magnitude_eq_div (k := 9876537) (e := 1071) (j := 3) hscaled
    (by norm_num)
  have htext : groupedPattern.apply .enUS (.ofRatio 9876537 8) = "1,234,567.12".toList := by
    decide +kernel
  have hsign : (Binary64.ofRatio 9876537 8).isNegative = false := by decide +kernel
  obtain ⟨r, digits, hround, hrenders, happly⟩ :=
    apply_shows_rounded_fixed .enUS hparse rfl ⟨_, _, _, hscaled⟩
  rw [hmagnitude, show groupedPattern.layout.maxFraction = 2 from rfl] at hround
  rw [happly, hsign, if_neg fun h => Bool.false_ne_true h.1] at htext
  refine ⟨r, ?_, (hrenders _).mpr ?_⟩
  · norm_num at hround ⊢
    exact hround
  · simpa [groupedPattern, Affixes.around] using htext.symm

end NumberPattern

end CellDisplay
