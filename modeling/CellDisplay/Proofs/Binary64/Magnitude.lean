import CellDisplay.Proofs.Decimal.Nearest
import Mathlib.Algebra.Order.Round

/-! # Magnitudes of products

The product of a finite number and a whole number is off by a tiny part of a unit unless it is very
large, and is at least half of what it should be in any case. The nearest whole number to it is
found by the quotient that rounds a half up.
-/

namespace CellDisplay

namespace Decimal

theorem round_div_eq_roundHalfUp (num : ℕ) {den : ℕ} (h : 0 < den) :
    round ((num : ℚ) / den) = roundHalfUp num den := by
  have hden : (den : ℚ) ≠ 0 := Nat.cast_ne_zero.mpr h.ne'
  have hshift : (num : ℚ) / den + 1 / 2 = ((2 * num + den : ℕ) : ℚ) / ((2 * den : ℕ) : ℚ) := by
    push_cast
    field_simp
  rw [round_eq, hshift, Rat.floor_natCast_div_natCast, roundHalfUp, Int.natCast_div]

end Decimal

namespace Binary64

variable {value : Binary64} {n total : ℕ}

theorem IsFinite.of_mul {other : Binary64} (h : (value * other).IsFinite) : value.IsFinite := by
  obtain ⟨negative, units, hu, hvalue⟩ := h
  cases value with
  | finite negative' units' hu' => exact ⟨negative', units', hu', rfl⟩
  | nan => cases other <;> cases hvalue
  | infinite negative' =>
    change mul _ _ = _ at hvalue
    cases other with
    | finite negative'' units'' hu'' =>
      simp only [mul] at hvalue
      split at hvalue <;> cases hvalue
    | nan => cases hvalue
    | infinite negative'' => cases hvalue

/-- The whole number nearest to a magnitude; a half goes up. -/
theorem roundedMagnitude?_eq_some_iff :
    value.roundedMagnitude? = some total ↔ value.IsFinite ∧ round value.magnitude = total := by
  cases value with
  | nan => exact iff_of_false nofun fun ⟨⟨_, _, _, h⟩, _⟩ => nomatch h
  | infinite negative => exact iff_of_false nofun fun h => h.1.ne_infinite negative rfl
  | finite negative units hu =>
    rw [roundedMagnitude?, magnitude, Decimal.round_div_eq_roundHalfUp units unitsPerOne_pos,
      Option.some.injEq, Nat.cast_inj, and_iff_right ⟨negative, units, hu, rfl⟩]

theorem roundedMagnitude?_eq_none_iff : value.roundedMagnitude? = none ↔ ¬ value.IsFinite := by
  cases value with
  | nan => exact iff_of_true rfl fun ⟨_, _, _, h⟩ => nomatch h
  | infinite negative => exact iff_of_true rfl fun h => h.ne_infinite negative rfl
  | finite negative units hu =>
    exact iff_of_false nofun fun h => h ⟨negative, units, hu, rfl⟩

theorem le_two_mul_nearestUnits_one (q : ℕ) : q ≤ 2 * nearestUnits q 1 := by
  have hround := le_two_mul_nearestUnits q Nat.one_pos
  have hspacing : spacing q ≤ max q 1 := by
    rcases Nat.eq_zero_or_pos q with rfl | hq
    · decide
    · exact (Nat.pow_le_pow_right Nat.two_pos (Nat.sub_le _ _)).trans
        ((Nat.log2_self_le hq.ne').trans (le_max_left q 1))
  rw [Nat.div_one, Nat.one_mul, Nat.mul_one] at hround
  omega

/-- A product with a whole number is at least half of what it should be. -/
theorem magnitude_mul_le_two_mul (hn : n < 2 ^ 53) (h : (value * ofInt n).IsFinite) :
    value.magnitude * n ≤ 2 * (value * ofInt n).magnitude := by
  obtain ⟨negative, units, hu, rfl⟩ := h.of_mul
  obtain ⟨negative', units', hu', hproduct⟩ := h
  rw [hproduct, magnitude, magnitude]
  rw [finite_mul_ofInt negative hu hn, nearest] at hproduct
  split at hproduct
  · cases hproduct
    have hle : ((units * n : ℕ) : ℚ) ≤ (2 * nearestUnits (units * n) 1 : ℕ) :=
      Nat.cast_le.mpr (le_two_mul_nearestUnits_one _)
    push_cast at hle
    rw [div_mul_eq_mul_div, ← mul_div_assoc]
    exact div_le_div_of_nonneg_right hle (Nat.cast_nonneg _)
  · cases hproduct

theorem abs_div_sub_div_le {p q unit : ℕ} (hunit : 0 < unit) (hhigh : 16 * p ≤ 16 * q + unit)
    (hlow : 16 * q ≤ 16 * p + unit) : |(p : ℚ) / unit - q / unit| ≤ 1 / 16 := by
  have hpos : (0 : ℚ) < unit := Nat.cast_pos.mpr hunit
  have hhigh : (16 * p : ℚ) ≤ 16 * q + unit := by exact_mod_cast hhigh
  have hlow : (16 * q : ℚ) ≤ 16 * p + unit := by exact_mod_cast hlow
  rw [← sub_div, abs_div, abs_of_pos hpos, div_le_iff₀ hpos, abs_le]
  constructor <;> linarith

/-- A product below `2 ^ 50` is rounded to a whole number that is off by little more than a half. -/
theorem exists_roundedMagnitude?_mul (hvalue : value.IsFinite) (hn : n < 2 ^ 53)
    (hlt : value.magnitude * n < 2 ^ 50) :
    ∃ total, (value * ofInt n).roundedMagnitude? = some total ∧
      |total - value.magnitude * n| ≤ 9 / 16 := by
  obtain ⟨negative, units, hu, rfl⟩ := hvalue
  obtain ⟨e, he⟩ : ∃ e, e + 3 = 1074 := ⟨1071, rfl⟩
  have hscale : unitsPerOne = 2 ^ e * 8 := by rw [unitsPerOne, ← he, Nat.pow_add]
  have hone : (0 : ℚ) < unitsPerOne := Nat.cast_pos.mpr unitsPerOne_pos
  rw [magnitude, div_mul_eq_mul_div] at hlt ⊢
  have hlt : units * n < 2 ^ (e + 53) * 1 := by
    rw [div_lt_iff₀ hone] at hlt
    have hlt : units * n < 2 ^ 50 * unitsPerOne := by
      rw [← Nat.cast_lt (α := ℚ)]
      simpa only [Nat.cast_mul, Nat.cast_pow, Nat.cast_ofNat] using hlt
    rw [Nat.pow_add]
    omega
  obtain ⟨p, hp, hproduct, hhigh, hlow⟩ :=
    exists_nearest_eq negative (units * n) e Nat.one_pos (by omega) hlt
  rw [Nat.mul_one, Nat.one_mul] at hhigh hlow
  -- Half a step of the product is the sixteenth part of a unit.
  have herror := abs_div_sub_div_le (p := p) (q := units * n) unitsPerOne_pos
    (by omega) (by omega)
  have hround := abs_sub_round ((p : ℚ) / unitsPerOne)
  rw [Decimal.round_div_eq_roundHalfUp p unitsPerOne_pos, Int.cast_natCast] at hround
  refine ⟨Decimal.roundHalfUp p unitsPerOne, ?_, ?_⟩
  · rw [finite_mul_ofInt negative hu hn, hproduct, roundedMagnitude?]
  · rw [Nat.cast_mul] at herror
    rw [abs_le] at herror hround ⊢
    constructor <;> linarith

end Binary64

end CellDisplay
