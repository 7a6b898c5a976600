import CellDisplay.Proofs.Binary64.Rounding
import Mathlib.Data.Rat.Floor
import Mathlib.Tactic.Linarith
import Mathlib.Tactic.Positivity
import Mathlib.Tactic.FieldSimp

/-! # Rounding exact magnitudes

A finite number has an exact magnitude. It is rounded to a multiple of a step, the nearest one, and
from half-way between two of them to the even one. Quotients of natural numbers are rounded so.
-/

namespace CellDisplay

namespace Binary64

/-- The exact magnitude of a finite number; other values have none and count as zero. -/
def magnitude : Binary64 → ℚ
  | finite _ units _ => units / unitsPerOne
  | _ => 0

def IsFinite (value : Binary64) : Prop :=
  ∃ negative units h, value = finite negative units h

theorem IsFinite.ne_infinite {value : Binary64} (h : value.IsFinite) (negative : Bool) :
    value ≠ infinite negative := by
  obtain ⟨negative', units, hu, rfl⟩ := h
  exact Binary64.noConfusion

theorem magnitude_zero (negative : Bool) (h : Representable 0) :
    (finite negative 0 h).magnitude = 0 := by
  rw [magnitude, Nat.cast_zero, zero_div]

theorem exists_finite_of_magnitude_pos {value : Binary64} (h : 0 < value.magnitude) :
    ∃ negative units hu, value = finite negative units hu ∧ 0 < units := by
  cases value with
  | finite negative units hu =>
    refine ⟨negative, units, hu, rfl, Nat.pos_of_ne_zero ?_⟩
    rintro rfl
    exact h.ne' (magnitude_zero negative hu)
  | nan => exact absurd h (lt_irrefl 0)
  | infinite negative => exact absurd h (lt_irrefl 0)

theorem isFinite_of_magnitude_pos {value : Binary64} (h : 0 < value.magnitude) :
    value.IsFinite := by
  obtain ⟨negative, units, hu, hvalue, -⟩ := exists_finite_of_magnitude_pos h
  exact ⟨negative, units, hu, hvalue⟩

theorem IsFinite.isZero_iff {value : Binary64} (h : value.IsFinite) :
    value.isZero ↔ value.magnitude = 0 := by
  obtain ⟨negative, units, hu, rfl⟩ := h
  rw [isZero, beq_iff_eq, magnitude, div_eq_zero_iff, Nat.cast_eq_zero, Nat.cast_eq_zero,
    or_iff_left unitsPerOne_pos.ne']

theorem not_isZero_of_magnitude_pos {value : Binary64} (h : 0 < value.magnitude) :
    ¬ value.isZero := fun hz => h.ne' ((isFinite_of_magnitude_pos h).isZero_iff.mp hz)

theorem magnitude_nonneg (value : Binary64) : 0 ≤ value.magnitude := by
  cases value with
  | finite negative units hu => exact div_nonneg (Nat.cast_nonneg _) (Nat.cast_nonneg _)
  | nan => exact le_rfl
  | infinite negative => exact le_rfl

theorem representable_mul {k e : ℕ} (hk : k < 2 ^ 53) (he : e ≤ 2045) : Representable (k * 2 ^ e) :=
  ⟨k, e, hk, he, rfl⟩

theorem magnitude_eq_div {value : Binary64} {negative : Bool} {k e j : ℕ}
    {hu : Representable (k * 2 ^ e)} (h : value = finite negative (k * 2 ^ e) hu)
    (hj : e + j = 1074) : value.magnitude = k / 2 ^ j := by
  rw [h, magnitude, unitsPerOne, ← hj, pow_add]
  push_cast
  field_simp

end Binary64

namespace Decimal

variable {step x r r' : ℚ} {num den n : ℕ}

/-- `r` is the multiple of `step` nearest to `x`, and the even one if two are as near. -/
def IsRounding (step x r : ℚ) : Prop :=
  ∃ n : ℕ, r = n * step ∧ 2 * |x - r| ≤ step ∧ (2 * |x - r| = step → Even n)

/-- A whole number half-way from a quotient is its rounding only if it is even. -/
theorem even_roundHalfEven (h : 0 < den)
    (htie : 2 * num + den = 2 * (roundHalfEven num den * den) ∨
      2 * num = 2 * (roundHalfEven num den * den) + den) : Even (roundHalfEven num den) := by
  have hsplit := Nat.div_add_mod' num den
  have hrem := Nat.mod_lt num h
  rw [Nat.even_iff]
  revert htie
  unfold roundHalfEven
  split
  · omega
  · split
    · rw [Nat.add_mul]
      omega
    · omega

theorem isRounding_roundHalfEven (num : ℕ) (hden : 0 < den) (hstep : 0 < step) :
    IsRounding step (num / den * step) (roundHalfEven num den * step) := by
  have hd : (0 : ℚ) < den := Nat.cast_pos.mpr hden
  -- The error is counted in half steps of the denominator.
  have herror : 2 * |num / den * step - roundHalfEven num den * step| * den =
      |2 * (num : ℚ) - 2 * (roundHalfEven num den * den)| * step := by
    have hscale : 2 * (num / den * step - roundHalfEven num den * step) * den =
        (2 * (num : ℚ) - 2 * (roundHalfEven num den * den)) * step := by
      field_simp
    rw [← abs_of_pos hstep, ← abs_mul, abs_of_pos hstep, ← hscale, abs_mul, abs_mul,
      abs_of_pos hd, abs_of_pos (two_pos (α := ℚ))]
  have hle : |2 * (num : ℚ) - 2 * (roundHalfEven num den * den)| ≤ den := by
    have hlow := two_mul_roundHalfEven_le num den
    have hhigh := le_two_mul_roundHalfEven num hden
    rw [abs_le]
    constructor
    · have : (2 * (roundHalfEven num den * den) : ℚ) ≤ 2 * num + den := by exact_mod_cast hlow
      linarith
    · have : (2 * num : ℚ) ≤ 2 * (roundHalfEven num den * den) + den := by exact_mod_cast hhigh
      linarith
  refine ⟨_, rfl, ?_, fun htie => even_roundHalfEven hden ?_⟩
  · refine le_of_mul_le_mul_right ?_ hd
    rw [herror, mul_comm step]
    exact mul_le_mul_of_nonneg_right hle hstep.le
  · rw [htie, mul_comm step] at herror
    have heq := mul_right_cancel₀ hstep.ne' herror
    rcases abs_choice (2 * (num : ℚ) - 2 * (roundHalfEven num den * den)) with h | h
    · right
      have : (2 * num : ℚ) = 2 * (roundHalfEven num den * den) + den := by linarith
      exact_mod_cast this
    · left
      have : (2 * num + den : ℚ) = 2 * (roundHalfEven num den * den) := by linarith
      exact_mod_cast this

theorem exists_isRounding (hstep : 0 < step) (hx : 0 ≤ x) : ∃ r, IsRounding step x r := by
  have hq : 0 ≤ x / step := div_nonneg hx hstep.le
  have hround := isRounding_roundHalfEven (x / step).num.toNat (x / step).den_pos hstep
  have hnum : (((x / step).num.toNat : ℕ) : ℚ) = (x / step).num := by
    exact_mod_cast congrArg (Int.cast : ℤ → ℚ) (Int.toNat_of_nonneg (Rat.num_nonneg.mpr hq))
  rw [hnum, Rat.num_div_den, div_mul_cancel₀ x hstep.ne'] at hround
  exact ⟨_, hround⟩

/-- Half-way between two neighbours, one of them is odd. -/
theorem IsRounding.unique (hstep : 0 < step) (h : IsRounding step x r)
    (h' : IsRounding step x r') : r = r' := by
  obtain ⟨n, rfl, hle, heven⟩ := h
  obtain ⟨n', rfl, hle', heven'⟩ := h'
  wlog hlt : n < n' generalizing n n'
  · rcases Nat.lt_or_eq_of_le (Nat.le_of_not_lt hlt) with hgt | rfl
    · exact (this n' hle' heven' n hle heven hgt).symm
    · rfl
  exfalso
  have hgap : (n : ℚ) * step + step ≤ n' * step := by
    have hsucc : ((n + 1 : ℕ) : ℚ) * step ≤ n' * step :=
      mul_le_mul_of_nonneg_right (Nat.cast_le.mpr hlt) hstep.le
    rwa [Nat.cast_succ, add_mul, one_mul] at hsucc
  have hlow := neg_abs_le (x - n' * step)
  have hhigh := le_abs_self (x - n * step)
  -- Both are half a step away, so that they are even neighbours.
  have heq : (n : ℚ) * step + step = n' * step := by linarith
  have hsucc : n' = n + 1 := by
    have : ((n + 1 : ℕ) : ℚ) * step = n' * step := by
      rwa [Nat.cast_succ, add_mul, one_mul]
    exact_mod_cast (mul_right_cancel₀ hstep.ne' this).symm
  have hodd := heven (by linarith)
  have hodd' := heven' (by linarith)
  rw [hsucc, Nat.even_add_one] at hodd'
  exact hodd' hodd

theorem isRounding_zero (hstep : 0 < step) : IsRounding step 0 0 :=
  ⟨0, by simp, by simpa using hstep.le, fun _ => Even.zero⟩

/-- A half is still rounded to zero, which is even. -/
theorem isRounding_zero_iff (hx : 0 ≤ x) : IsRounding step x 0 ↔ 2 * x ≤ step := by
  constructor
  · rintro ⟨-, -, hle, -⟩
    rwa [sub_zero, abs_of_nonneg hx] at hle
  · intro hle
    refine ⟨0, by rw [Nat.cast_zero, zero_mul], ?_, fun _ => Even.zero⟩
    rwa [sub_zero, abs_of_nonneg hx]

/-- A rounding that lies on a coarser grid is the rounding there. -/
theorem IsRounding.coarsen {step' : ℚ} (h : IsRounding step x r) (hlt : step < step')
    (hr : r = n * step') : IsRounding step' x r := by
  obtain ⟨-, -, hle, -⟩ := h
  exact ⟨n, hr, hle.trans hlt.le, fun htie => absurd htie (hle.trans_lt hlt).ne⟩

end Decimal

end CellDisplay
