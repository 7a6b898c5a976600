import CellDisplay.Proofs.NumberPattern.Sign
import CellDisplay.Render

/-! # Plain numbers and the general pattern

A number whose format cannot be applied is shown in plain digits, which are those of the general
pattern. Only the sign differs: in plain digits, a negative number keeps it when it rounds to zero.
-/

namespace CellDisplay

open Text

namespace NumberPattern

/-- The number rounds to zero at ten places behind the point, as it is at most half a unit there. -/
def RoundsToZero (value : Binary64) : Prop := 2 * value.magnitude ≤ 10 ^ (-10 : ℤ)

instance (value : Binary64) : Decidable (RoundsToZero value) :=
  inferInstanceAs (Decidable (_ ≤ _))

/-- The pattern `0.##########`. -/
def general : NumberPattern :=
  ⟨⟨[.required], List.replicate 10 .optional, none, none⟩, ⟨[], []⟩, none⟩

theorem parse_generalPattern : parse NumberCode.generalPattern = .ok general := by decide +kernel

variable {negative : Bool} {units : ℕ}

theorem scaledMagnitude_general (hu : Binary64.Representable units) :
    general.scaledMagnitude (.finite negative units hu) = .finite false units hu := by
  have hfactor : general.positive.multiplier = .ofInt (1 : ℕ) := by
    rw [Nat.cast_one]
    exact List.foldl_nil
  rw [scaledMagnitude, Binary64.abs, hfactor, Binary64.finite_mul_ofInt false hu (by decide),
    Nat.mul_one, Binary64.nearest_of_representable]

theorem wholeDigits_decimal (n : ℕ) (fraction : Text) :
    wholeDigits 1 (decimal n) fraction = decimal n := by
  have hne : decimal n ≠ [] := List.ne_nil_of_length_pos (length_decimal_pos n)
  rw [wholeDigits, zeroPadded_one_dropWhile_zero (isDigits_decimal n), value_decimal]
  exact if_neg fun h => hne h.1

/-- Plain digits are those of the field that the general pattern shows. -/
theorem plainNumber_eq (hu : Binary64.Representable units) :
    plainNumber (.finite negative units hu) =
      (if negative then ['-'] else []) ++
        (digitField general.layout .enUS (.finite false units hu)).text := by
  have htrim (fraction : Text) : trimFraction 0 fraction = trimEnd (· = '0') fraction := by
    rw [trimFraction, List.take_zero, List.drop_zero, List.nil_append]
  let n := Decimal.scaled 10 units
  let fraction := trimFraction 0 (padded 10 (n % 10 ^ 10))
  have hfield : (digitField general.layout .enUS (.finite false units hu)).text =
      wholeDigits 1 (decimal (n / 10 ^ 10)) fraction ++ pointed '.' fraction := rfl
  have hplain : plainNumber (.finite negative units hu) =
      (if negative then ['-'] else []) ++ decimal (n / 10 ^ 10) ++
        pointed '.' (trimEnd (· = '0') (padded 10 (n % 10 ^ 10))) := rfl
  rw [hfield, hplain, wholeDigits_decimal, List.append_assoc, ← htrim]

/-- The general pattern shows the same digits, and drops the sign of a number that it rounds to
zero. -/
theorem apply_general (hu : Binary64.Representable units) :
    general.apply .enUS (.finite negative units hu) =
      if negative ∧ ¬ RoundsToZero (.finite negative units hu) then
        '-' :: (digitField general.layout .enUS (.finite false units hu)).text
      else (digitField general.layout .enUS (.finite false units hu)).text := by
  have hscaled : general.scaledMagnitude (.finite negative units hu) = .finite false units hu :=
    scaledMagnitude_general hu
  have hfinite : (general.scaledMagnitude (.finite negative units hu)).IsFinite :=
    ⟨_, _, _, hscaled⟩
  have hexponent : general.layout.exponent = none := rfl
  obtain ⟨r, hround, -, -, hzero⟩ :=
    exists_renders_fixedField .enUS hexponent nofun ⟨false, units, hu, rfl⟩
  have hsmall : r = 0 ↔ RoundsToZero (.finite negative units hu) := by
    rw [RoundsToZero, ← Decimal.isRounding_zero_iff (Binary64.magnitude_nonneg _)]
    constructor
    · rintro rfl
      exact hround
    · exact hround.unique (by positivity)
  have haround (digits : Text) : general.positive.around digits = digits := List.append_nil digits
  have hnegated (digits : Text) : general.negated digits = '-' :: digits :=
    congrArg _ (haround digits)
  rw [apply_of_isFinite hfinite, hscaled, withAffixes_eq, haround, hnegated, Binary64.isNegative]
  exact if_congr (and_congr_right' (not_congr (hzero.trans hsmall))) rfl rfl

/-- The general pattern is read, and plain digits are those that it shows, but a negative number
that rounds to zero keeps its sign in plain digits. -/
theorem plainNumber_eq_apply_general (value : Binary64) (hvalue : value.IsFinite) :
    ∃ pattern, parse NumberCode.generalPattern = .ok pattern ∧
      plainNumber value =
        if value.isNegative ∧ RoundsToZero value then '-' :: pattern.apply .enUS value
        else pattern.apply .enUS value := by
  refine ⟨general, parse_generalPattern, ?_⟩
  obtain ⟨negative, units, hu, rfl⟩ := hvalue
  rw [plainNumber_eq, apply_general, Binary64.isNegative]
  generalize (digitField general.layout .enUS (.finite false units hu)).text = digits
  cases negative with
  | false =>
    have hpositive {p : Prop} : ¬ (false = true ∧ p) := fun h => Bool.false_ne_true h.1
    rw [if_neg Bool.false_ne_true, if_neg hpositive, if_neg hpositive, List.nil_append]
  | true =>
    rw [if_pos rfl, List.singleton_append]
    by_cases hsmall : RoundsToZero (.finite true units hu)
    · rw [if_pos ⟨rfl, hsmall⟩, if_neg fun h => h.2 hsmall]
    · rw [if_neg fun h => hsmall h.2, if_pos ⟨rfl, hsmall⟩]

/-- The number `-2 ^ (e - 1074)`. -/
def negativePower (e : ℕ) (he : e ≤ 2045) : Binary64 :=
  .finite true (1 * 2 ^ e) (Binary64.representable_mul (by norm_num) he)

theorem plainNumber_eq_apply_general_sixteenth :
    (negativePower 1070 (by decide)).IsFinite ∧
      ∃ pattern, parse NumberCode.generalPattern = .ok pattern ∧
        plainNumber (negativePower 1070 (by decide)) =
          pattern.apply .enUS (negativePower 1070 (by decide)) ∧
        plainNumber (negativePower 1070 (by decide)) = "-0.0625".toList := by
  have hfinite : (negativePower 1070 (by decide)).IsFinite := ⟨_, _, _, rfl⟩
  obtain ⟨pattern, hparse, h⟩ := plainNumber_eq_apply_general _ hfinite
  have hmagnitude : (negativePower 1070 (by decide)).magnitude = (1 : ℕ) / 2 ^ 4 :=
    Binary64.magnitude_eq_div rfl rfl
  refine ⟨hfinite, pattern, hparse, ?_, by decide +kernel⟩
  rw [h, if_neg]
  rintro ⟨-, hsmall⟩
  rw [RoundsToZero, hmagnitude] at hsmall
  norm_num at hsmall

/-- The number `-2⁻⁴⁰` rounds to zero, and only plain digits show its sign. -/
theorem plainNumber_ne_apply_general :
    ∃ pattern value, parse NumberCode.generalPattern = .ok pattern ∧ value.IsFinite ∧
      plainNumber value = "-0".toList ∧ pattern.apply .enUS value = "0".toList := by
  refine ⟨general, negativePower 1034 (by decide), parse_generalPattern, ?_, ?_, ?_⟩
  · exact ⟨_, _, _, rfl⟩
  · decide +kernel
  · decide +kernel

end NumberPattern

end CellDisplay
