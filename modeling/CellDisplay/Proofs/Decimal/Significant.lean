import CellDisplay.Decimal.Shortest
import CellDisplay.Proofs.Decimal.Digits
import CellDisplay.Proofs.Decimal.Nearest
import Mathlib.Data.Int.Log

/-! # Significant digits

A positive magnitude lies in a decade, which is the exponent of its first digit. Rounding to a
number of significant digits is rounding to a multiple of a power of ten, and leaves the decade only
for the power of ten above it. So do the shortest digits.
-/

namespace CellDisplay.Decimal

variable {num den count units n : ℕ} {x : ℚ} {e : ℤ}

theorem log_eq_iff (hx : 0 < x) : Int.log 10 x = e ↔ 10 ^ e ≤ x ∧ x < 10 ^ (e + 1) := by
  have hlow := Int.zpow_le_iff_le_log (b := 10) (x := e) (by decide) hx
  have hhigh := Int.lt_zpow_iff_log_lt (b := 10) (x := e + 1) (by decide) hx
  rw [Nat.cast_ofNat] at hlow hhigh
  rw [hlow, hhigh]
  omega

/-- The decade of a positive quotient is its logarithm, rounded down. -/
theorem decade_eq_log (hnum : 0 < num) (hden : 0 < den) :
    decade num den = Int.log 10 (num / den : ℚ) := by
  have hd : (0 : ℚ) < den := Nat.cast_pos.mpr hden
  have hn : (0 : ℚ) < num := Nat.cast_pos.mpr hnum
  refine ((log_eq_iff (by positivity)).mpr ?_).symm
  rw [decade, le_div_iff₀ hd, div_lt_iff₀ hd]
  split
  · rename_i hle
    obtain ⟨k, hk, hlow, hhigh⟩ := Text.exists_length_decimal (Nat.div_pos hle hden)
    rw [hk, Nat.cast_succ, Int.add_sub_cancel, zpow_natCast, ← Nat.cast_succ, zpow_natCast]
    rw [Nat.le_div_iff_mul_le hden] at hlow
    rw [Nat.div_lt_iff_lt_mul hden] at hhigh
    exact ⟨by exact_mod_cast hlow, by exact_mod_cast hhigh⟩
  · rename_i hlt
    obtain ⟨k, hk, hlow, hhigh⟩ :=
      Text.exists_length_decimal (Nat.div_pos (show num ≤ den - 1 by omega) hnum)
    rw [hk, Nat.cast_succ, Int.neg_add, Int.neg_add_cancel_right, zpow_neg, zpow_natCast,
      ← Int.neg_add, ← Nat.cast_succ, zpow_neg, zpow_natCast]
    rw [Nat.le_div_iff_mul_le hnum] at hlow
    rw [Nat.div_lt_iff_lt_mul hnum] at hhigh
    constructor
    · rw [inv_mul_le_iff₀ (by positivity)]
      exact_mod_cast (show den ≤ 10 ^ (k + 1) * num by omega)
    · rw [lt_inv_mul_iff₀ (by positivity)]
      exact_mod_cast (show 10 ^ k * num < den by omega)

theorem natCast_pow_mul_zpow (k : ℕ) (e : ℤ) : ((10 ^ k : ℕ) : ℚ) * 10 ^ e = 10 ^ (k + e) := by
  rw [Nat.cast_pow, Nat.cast_ofNat, ← zpow_natCast, zpow_add₀ (by norm_num)]

theorem powTen_eq (e : ℤ) : (10 : ℚ) ^ e = ((powTen e).1 : ℚ) / (powTen e).2 := by
  rw [powTen]
  rcases Int.le_total 0 e with h | h
  · obtain ⟨k, rfl⟩ := Int.eq_ofNat_of_zero_le h
    simp
  · obtain ⟨k, hk⟩ := Int.eq_ofNat_of_zero_le (Int.neg_nonneg_of_nonpos h)
    obtain rfl : e = -k := by omega
    simp

theorem powTen_pos (e : ℤ) : 0 < (powTen e).1 ∧ 0 < (powTen e).2 :=
  ⟨Nat.pow_pos (by decide), Nat.pow_pos (by decide)⟩

/-- The digits of `n` stand for `x`, rounded to `count` significant digits. They are in the decade
of `x`, unless they are the power of ten above it. -/
structure Scientific.Rounds (count : ℕ) (x : ℚ) (s : Scientific) (n : ℕ) : Prop where
  digits : s.digits = Text.decimal n
  low : 10 ^ (count - 1) ≤ n
  high : n < 10 ^ count
  isRounding : IsRounding (10 ^ (Int.log 10 x + 1 - count)) x (n * 10 ^ (s.exponent + 1 - count))
  exponent : s.exponent = Int.log 10 x ∨ s.exponent = Int.log 10 x + 1 ∧ n = 10 ^ (count - 1)

/-- A quotient between two powers of ten is rounded to a whole number between them. -/
theorem roundHalfEven_mem {low high : ℕ} (hden : 0 < den) (hlow : (low : ℚ) ≤ num / den)
    (hhigh : (num / den : ℚ) < high) :
    low ≤ roundHalfEven num den ∧ roundHalfEven num den ≤ high := by
  have hd : (0 : ℚ) < den := Nat.cast_pos.mpr hden
  rw [le_div_iff₀ hd] at hlow
  rw [div_lt_iff₀ hd] at hhigh
  have hlow : low ≤ num / den := (Nat.le_div_iff_mul_le hden).mpr (by exact_mod_cast hlow)
  have hhigh : num / den < high := (Nat.div_lt_iff_lt_mul hden).mpr (by exact_mod_cast hhigh)
  have := div_le_roundHalfEven num den
  have := roundHalfEven_le num den
  omega

theorem Scientific.Rounds.count_pos {s : Scientific} (hs : s.Rounds count x n) : 0 < count := by
  have hlow := hs.low
  have hhigh := hs.high
  by_contra hz
  obtain rfl : count = 0 := by omega
  omega

theorem Scientific.Rounds.mul_lt {s : Scientific} (hs : s.Rounds count x n) :
    (n * 10 ^ (s.exponent + 1 - count) : ℚ) < 10 ^ (s.exponent + 1) := by
  have hhigh : (n : ℚ) < 10 ^ (count : ℤ) := by
    rw [zpow_natCast]
    exact_mod_cast hs.high
  calc (n * 10 ^ (s.exponent + 1 - count) : ℚ)
      < 10 ^ (count : ℤ) * 10 ^ (s.exponent + 1 - count) :=
        mul_lt_mul_of_pos_right hhigh (zpow_pos (by norm_num) _)
    _ = 10 ^ (s.exponent + 1) := by
        rw [← zpow_add₀ (by norm_num), add_sub_cancel]

/-- Digits above the decade of the number stand for the power of ten. -/
theorem Scientific.Rounds.eq_pow {s : Scientific} (hs : s.Rounds count x n)
    (h : s.exponent = Int.log 10 x + 1) :
    n = 10 ^ (count - 1) ∧ (n * 10 ^ (s.exponent + 1 - count) : ℚ) = 10 ^ s.exponent := by
  have hcount := hs.count_pos
  rcases hs.exponent with hexponent | ⟨-, rfl⟩
  · omega
  · refine ⟨rfl, ?_⟩
    rw [natCast_pow_mul_zpow]
    congr 1
    omega

/-- Rounded multiples within a decade, or at its end, have the digits of the rounded number. -/
theorem exists_rounds_ofMultiples {k : ℕ} {first : ℤ} (hfirst : first = Int.log 10 x)
    (hlow : 10 ^ k ≤ n) (hhigh : n ≤ 10 ^ (k + 1))
    (hround : IsRounding (10 ^ (first - k)) x (n * 10 ^ (first - k))) :
    ∃ n', (Scientific.ofMultiples (k + 1) first n).Rounds (k + 1) x n' := by
  have hgrid : first + 1 - ((k + 1 : ℕ) : ℤ) = first - k := by omega
  rw [Scientific.ofMultiples]
  split
  · rename_i hlt
    exact ⟨n, rfl, hlow, hlt, by rwa [← hfirst, hgrid], .inl hfirst⟩
  · rename_i hge
    obtain rfl : n = 10 ^ (k + 1) := Nat.le_antisymm hhigh (Nat.le_of_not_lt hge)
    have hsame : ((10 ^ k : ℕ) : ℚ) * 10 ^ (first + 1 + 1 - ((k + 1 : ℕ) : ℤ)) =
        (10 ^ (k + 1) : ℕ) * 10 ^ (first - k) := by
      rw [natCast_pow_mul_zpow, natCast_pow_mul_zpow]
      congr 1
      omega
    refine ⟨10 ^ k, by rw [Nat.pow_succ, Nat.mul_div_cancel _ (by decide)], le_rfl,
      Nat.pow_lt_pow_succ (by decide), ?_, .inr ⟨by rw [hfirst], rfl⟩⟩
    rwa [← hfirst, hgrid, hsame]

theorem exists_rounds_significantOf (hcount : 0 < count) (hnum : 0 < num) (hden : 0 < den) :
    ∃ n, (significantOf count num den).Rounds count (num / den) n := by
  have hd : (0 : ℚ) < den := Nat.cast_pos.mpr hden
  have hx : (0 : ℚ) < num / den := div_pos (Nat.cast_pos.mpr hnum) hd
  obtain ⟨hlow, hhigh⟩ := (log_eq_iff hx).mp rfl
  obtain ⟨k, rfl⟩ := Nat.exists_eq_add_of_lt hcount
  simp only [significantOf, decade_eq_log hnum hden, Nat.zero_add]
  generalize hfirst : Int.log 10 (num / den : ℚ) = first at hlow hhigh ⊢
  rw [show first - (((k + 1 : ℕ) : ℤ) - 1) = first - k by omega]
  obtain ⟨hup, hdown⟩ := powTen_pos (first - k)
  have hstep := powTen_eq (first - k)
  generalize powTen (first - k) = p at hup hdown hstep ⊢
  obtain ⟨up, down⟩ := p
  dsimp only at hup hdown hstep ⊢
  have hu : (0 : ℚ) < up := Nat.cast_pos.mpr hup
  have hw : (0 : ℚ) < down := Nat.cast_pos.mpr hdown
  have hpos : (0 : ℚ) < 10 ^ (first - k) := zpow_pos (by norm_num) _
  have hquotient : ((num * down : ℕ) : ℚ) / (den * up : ℕ) * 10 ^ (first - k) = num / den := by
    rw [hstep]
    push_cast
    field_simp
  have hround := isRounding_roundHalfEven (num * down) (Nat.mul_pos hden hup) hpos
  rw [hquotient] at hround
  -- In multiples of the step, the quotient lies between two powers of ten.
  have hlow : ((10 ^ k : ℕ) : ℚ) ≤ (num * down : ℕ) / (den * up : ℕ) := by
    refine le_of_mul_le_mul_right ?_ hpos
    rwa [hquotient, natCast_pow_mul_zpow, add_sub_cancel]
  have hhigh : ((num * down : ℕ) / (den * up : ℕ) : ℚ) < (10 ^ (k + 1) : ℕ) := by
    refine lt_of_mul_lt_mul_right ?_ hpos.le
    rwa [hquotient, natCast_pow_mul_zpow, show ((k + 1 : ℕ) : ℤ) + (first - k) = first + 1 by omega]
  obtain ⟨hlow, hhigh⟩ := roundHalfEven_mem (Nat.mul_pos hden hup) hlow hhigh
  exact exists_rounds_ofMultiples hfirst.symm hlow hhigh hround

/-- The digits of a positive number, rounded to `count` places. -/
theorem exists_rounds_significant {value : Binary64} (hcount : 0 < count)
    (h : 0 < value.magnitude) : ∃ n, (significant count value).Rounds count value.magnitude n := by
  obtain ⟨negative, units, hu, rfl, hpos⟩ := Binary64.exists_finite_of_magnitude_pos h
  rw [significant, Binary64.magnitude]
  exact exists_rounds_significantOf hcount hpos Binary64.unitsPerOne_pos

theorem exponent_ofMultiples (count : ℕ) (first : ℤ) (n : ℕ) :
    (Scientific.ofMultiples count first n).exponent = first ∨
      (Scientific.ofMultiples count first n).exponent = first + 1 := by
  rw [Scientific.ofMultiples]
  split
  · exact .inl rfl
  · exact .inr rfl

theorem exponent_readable? {digits : Scientific} (h : readable? units count = some digits) :
    digits.exponent = decade units Binary64.unitsPerOne ∨
      digits.exponent = decade units Binary64.unitsPerOne + 1 := by
  simp only [readable?] at h
  split at h
  · cases h
  all_goals
    obtain rfl := Option.some.inj h
    exact exponent_ofMultiples _ _ _

/-- The shortest digits are in the decade of the number, or are the power of ten above it. -/
theorem exponent_shortest {value : Binary64} (h : 0 < value.magnitude) :
    (shortest value).exponent = Int.log 10 value.magnitude ∨
      (shortest value).exponent = Int.log 10 value.magnitude + 1 := by
  obtain ⟨negative, units, hu, rfl, hpos⟩ := Binary64.exists_finite_of_magnitude_pos h
  rw [Binary64.magnitude, ← decade_eq_log hpos Binary64.unitsPerOne_pos, shortest,
    if_neg (Nat.ne_of_gt hpos), shortestOf]
  cases hf : (List.range' 1 17).findSome? (readable? units) with
  | none =>
    rw [Option.getD_none, significantOf]
    exact exponent_ofMultiples _ _ _
  | some digits =>
    obtain ⟨count, -, hr⟩ := List.exists_of_findSome?_eq_some hf
    exact exponent_readable? hr

end CellDisplay.Decimal
