import CellDisplay.Binary64.Basic

/-! # Rounding to binary64 numbers

Rounding keeps a representable quotient as it is, and moves any other one by at most half the
spacing of the representable counts around it.
-/

namespace CellDisplay

namespace Decimal

theorem roundHalfEven_mul (q : Nat) {den : Nat} (h : 0 < den) :
    roundHalfEven (q * den) den = q := by
  rw [roundHalfEven, Nat.mul_mod_left, Nat.mul_div_cancel _ h, if_pos (by omega)]

theorem roundHalfEven_mul_right (num den : Nat) {c : Nat} (h : 0 < c) :
    roundHalfEven (num * c) (den * c) = roundHalfEven num den := by
  simp only [roundHalfEven, Nat.mul_mod_mul_right, Nat.mul_div_mul_right _ _ h,
    ← Nat.mul_assoc, Nat.mul_lt_mul_right h]

theorem two_mul_roundHalfEven_le (num den : Nat) :
    2 * (roundHalfEven num den * den) ≤ 2 * num + den := by
  have := Nat.div_add_mod' num den
  unfold roundHalfEven
  split
  · omega
  · split
    · rw [Nat.add_mul]
      omega
    · rcases Nat.mod_two_eq_zero_or_one (num / den) with h | h <;> rw [h, Nat.add_mul] <;> omega

theorem le_two_mul_roundHalfEven (num : Nat) {den : Nat} (h : 0 < den) :
    2 * num ≤ 2 * (roundHalfEven num den * den) + den := by
  have := Nat.div_add_mod' num den
  have := Nat.mod_lt num h
  unfold roundHalfEven
  split
  · omega
  · split
    · rw [Nat.add_mul]
      omega
    · rcases Nat.mod_two_eq_zero_or_one (num / den) with h | h <;> rw [h, Nat.add_mul] <;> omega

/-- A quotient less than a half away from a whole number is rounded to it. -/
theorem roundHalfUp_eq {num den n : Nat} (hlow : 2 * (n * den) ≤ 2 * num + den)
    (hhigh : 2 * num < 2 * (n * den) + den) : roundHalfUp num den = n := by
  rw [roundHalfUp]
  apply Nat.div_eq_of_lt_le
  · rw [Nat.mul_left_comm]
    omega
  · rw [Nat.add_mul, Nat.mul_left_comm]
    omega

end Decimal

namespace Binary64

variable {q num den : Nat}

theorem representable_lt_overflow (h : Representable q) : q < overflow := by
  obtain ⟨k, e, hk, he, rfl⟩ := h
  rw [overflow]
  calc k * 2 ^ e < 2 ^ 53 * 2 ^ e := Nat.mul_lt_mul_of_pos_right hk (Nat.two_pow_pos e)
    _ = 2 ^ (53 + e) := (Nat.pow_add ..).symm
    _ ≤ 2 ^ 2098 := Nat.pow_le_pow_right (by decide) (by omega)

theorem spacing_pos (units : Nat) : 0 < spacing units := Nat.two_pow_pos _

theorem spacing_le {k : Nat} (h : q < 2 ^ (k + 53)) : spacing q ≤ 2 ^ k := by
  refine Nat.pow_le_pow_right (by decide) ?_
  rcases Nat.eq_zero_or_pos q with rfl | hq
  · simp
  · have := (Nat.log2_lt (by omega)).mpr h
    omega

theorem spacing_dvd (h : Representable q) : spacing q ∣ q := by
  obtain ⟨k, e, hk, he, rfl⟩ := h
  refine Nat.dvd_trans (Nat.pow_dvd_pow 2 ?_) (Nat.dvd_mul_left (2 ^ e) k)
  rcases Nat.eq_zero_or_pos k with rfl | hpos
  · simp
  · have hlt : k * 2 ^ e < 2 ^ (e + 53) := by
      rw [Nat.add_comm, Nat.pow_add]
      exact Nat.mul_lt_mul_of_pos_right hk (Nat.two_pow_pos e)
    have := (Nat.log2_lt (Nat.mul_ne_zero (by omega) (Nat.ne_of_gt (Nat.two_pow_pos e)))).mpr hlt
    omega

theorem nearestUnits_mul (q : Nat) (hden : 0 < den) :
    nearestUnits (q * den) den = nearestUnits q 1 := by
  rw [nearestUnits, Nat.mul_div_cancel _ hden, Nat.mul_comm den,
    Decimal.roundHalfEven_mul_right q (spacing q) hden, nearestUnits, Nat.div_one, Nat.one_mul]

theorem nearest_mul (negative : Bool) (q : Nat) (hden : 0 < den) :
    nearest negative (q * den) den = nearest negative q 1 := by
  simp only [nearest, nearestUnits_mul q hden]

theorem nearestUnits_of_representable (h : Representable q) : nearestUnits q 1 = q := by
  obtain ⟨k, hk⟩ := spacing_dvd h
  have hround := Decimal.roundHalfEven_mul k (spacing_pos q)
  rw [Nat.mul_comm, ← hk] at hround
  rw [nearestUnits, Nat.div_one, Nat.one_mul, hround, Nat.mul_comm, ← hk]

theorem nearest_of_representable (negative : Bool) (h : Representable q) :
    nearest negative q 1 = .finite negative q h := by
  simp [nearest, nearestUnits_of_representable h, representable_lt_overflow h]

theorem two_mul_nearestUnits_le (num den : Nat) :
    2 * (nearestUnits num den * den) ≤ 2 * num + den * spacing (num / den) := by
  have := Decimal.two_mul_roundHalfEven_le num (den * spacing (num / den))
  rwa [Nat.mul_comm den, ← Nat.mul_assoc _ (spacing _), Nat.mul_comm (spacing _)] at this

theorem le_two_mul_nearestUnits (num : Nat) (h : 0 < den) :
    2 * num ≤ 2 * (nearestUnits num den * den) + den * spacing (num / den) := by
  have := Decimal.le_two_mul_roundHalfEven num (Nat.mul_pos h (spacing_pos (num / den)))
  rwa [Nat.mul_comm den, ← Nat.mul_assoc _ (spacing _), Nat.mul_comm (spacing _)] at this

/-- A quotient is rounded to a finite number which is off by at most half a power of two, 53
bits below the quotient. -/
theorem exists_nearest_eq (negative : Bool) (num k : Nat) (hden : 0 < den) (hk : k ≤ 2044)
    (h : num < 2 ^ (k + 53) * den) :
    ∃ units hu, nearest negative num den = finite negative units hu ∧
      2 * (units * den) ≤ 2 * num + den * 2 ^ k ∧
      2 * num ≤ 2 * (units * den) + den * 2 ^ k := by
  have hspacing : spacing (num / den) ≤ 2 ^ k :=
    spacing_le ((Nat.div_lt_iff_lt_mul hden).mpr h)
  have herror := Nat.mul_le_mul_left den hspacing
  have hlow := two_mul_nearestUnits_le num den
  have hhigh := le_two_mul_nearestUnits num hden
  have hfinite : nearestUnits num den < overflow := by
    have hstep : 2 ^ k ≤ 2 ^ (k + 53) := Nat.pow_le_pow_right (by decide) (by omega)
    have hstep := Nat.mul_le_mul_left den hstep
    rw [Nat.mul_comm _ den] at h
    have hlt : nearestUnits num den < 2 ^ (k + 53) * 2 := by
      apply Nat.lt_of_mul_lt_mul_right (a := den)
      rw [Nat.mul_comm (_ * 2), ← Nat.mul_assoc]
      omega
    rw [overflow]
    calc nearestUnits num den < 2 ^ (k + 53) * 2 := hlt
      _ = 2 ^ (k + 54) := (Nat.pow_succ ..).symm
      _ ≤ 2 ^ 2098 := Nat.pow_le_pow_right (by decide) (by omega)
  refine ⟨_, representable_nearestUnits hfinite, ?_, by omega, by omega⟩
  rw [nearest, dif_pos hfinite]

theorem unitsPerOne_pos : 0 < unitsPerOne := by
  rw [unitsPerOne]
  exact Nat.two_pow_pos 1074

theorem representable_mul_unitsPerOne {n : Nat} (h : n < 2 ^ 53) :
    Representable (n * unitsPerOne) :=
  ⟨n, 1074, h, by decide, by rw [unitsPerOne]⟩

theorem ofInt_natCast {n : Nat} (h : n < 2 ^ 53) :
    ofInt n = .finite false (n * unitsPerOne) (representable_mul_unitsPerOne h) := by
  have hn : decide ((n : Int) < 0) = false := by simp
  rw [ofInt, Int.natAbs_natCast, hn, nearest_of_representable]

theorem finite_mul_finite {s t : Bool} {a b : Nat} (ha : Representable a)
    (hb : Representable b) :
    finite s a ha * finite t b hb = nearest (s != t) (a * b) unitsPerOne := by
  change mul _ _ = _
  rw [mul]

theorem nearest_ne_nan (negative : Bool) (num den : Nat) : nearest negative num den ≠ nan := by
  rw [nearest]
  split <;> exact Binary64.noConfusion

/-- Only zero makes an infinite value times a finite one no number. -/
theorem mul_finite_ne_nan {value : Binary64} {negative : Bool} {units : Nat}
    {hu : Representable units} (h : value ≠ nan) (hunits : 0 < units) :
    value * finite negative units hu ≠ nan := by
  cases value with
  | nan => exact absurd rfl h
  | infinite negative' =>
    change (if units = 0 then _ else _) ≠ _
    rw [if_neg (Nat.ne_of_gt hunits)]
    exact Binary64.noConfusion
  | finite negative' units' hu' =>
    rw [finite_mul_finite]
    exact nearest_ne_nan _ _ _

theorem finite_mul_ofInt (negative : Bool) {units n : Nat} (h : Representable units)
    (hn : n < 2 ^ 53) :
    finite negative units h * ofInt n = nearest negative (units * n) 1 := by
  rw [ofInt_natCast hn, finite_mul_finite, Bool.bne_false, ← Nat.mul_assoc,
    nearest_mul negative _ unitsPerOne_pos]

theorem ofInt_mul_ofInt {m n : Nat} (hm : m < 2 ^ 53) (hn : n < 2 ^ 53) (h : m * n < 2 ^ 53) :
    ofInt m * ofInt n = ofInt (m * n : Nat) := by
  rw [ofInt_natCast hm, finite_mul_ofInt false _ hn, Nat.mul_right_comm,
    nearest_of_representable false (representable_mul_unitsPerOne h), ofInt_natCast h]

theorem finite_add_finite {a b : Nat} (ha : Representable a) (hb : Representable b) :
    finite false a ha + finite false b hb = nearest false (a + b) 1 := by
  change add _ _ = _
  simp only [add, signed, Bool.false_eq_true, if_false]
  split <;> rename_i h
  · obtain ⟨rfl, rfl⟩ : a = 0 ∧ b = 0 := by omega
    exact (nearest_of_representable false representable_zero).symm
  · have hsign : decide ((a : Int) + b < 0) = false := decide_eq_false (by omega)
    have habs : ((a : Int) + b).natAbs = a + b := by omega
    rw [hsign, habs]

theorem roundedMagnitude?_ofInt {n : Nat} (h : n < 2 ^ 53) :
    (ofInt n).roundedMagnitude? = some n := by
  have := unitsPerOne_pos
  rw [ofInt_natCast h, roundedMagnitude?, Decimal.roundHalfUp_eq (n := n)] <;> omega

end Binary64

end CellDisplay
