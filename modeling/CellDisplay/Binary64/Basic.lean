import CellDisplay.Decimal.Rounding

/-! # Binary64 numbers

Every finite binary64 number is a whole number of units, each unit being `2⁻¹⁰⁷⁴`, with a
sign. Exactly those counts of units occur that are a significand of 53 bits times a power
of two. Results of arithmetic are computed exactly and rounded once, to the nearest such
count and from half-way to the even significand.
-/

namespace CellDisplay

/-- A count of units that a binary64 number can have. -/
def Binary64.Representable (units : Nat) : Prop :=
  ∃ significand exponent : Nat,
    significand < 2 ^ 53 ∧ exponent ≤ 2045 ∧ units = significand * 2 ^ exponent

/-- A binary64 number; all values that are not a number count as one. -/
inductive Binary64 where
  | nan
  | infinite (negative : Bool)
  | finite (negative : Bool) (units : Nat) (representable : Binary64.Representable units)
  deriving DecidableEq

namespace Binary64

def unitsPerOne : Nat := 2 ^ 1074

/-- The least count of units above all finite numbers. -/
def overflow : Nat := 2 ^ 2098

/-- The distance between the representable counts of units from `units` upwards. -/
def spacing (units : Nat) : Nat := 2 ^ (units.log2 - 52)

/-- The count of units nearest to `num / den`, of a significand of 53 bits. -/
def nearestUnits (num den : Nat) : Nat :=
  let step := spacing (num / den)
  Decimal.roundHalfEven num (den * step) * step

theorem representable_zero : Representable 0 := ⟨0, 0, by decide, by decide, rfl⟩

theorem representable_mul_two_pow {k e : Nat} (hk : k ≤ 2 ^ 53) (he : e = 0 ∨ 2 ^ 52 ≤ k)
    (h : k * 2 ^ e < overflow) : Representable (k * 2 ^ e) := by
  rw [overflow] at h
  have bound {j : Nat} (hj : 2 ^ j ≤ k) : j + e < 2098 := by
    rw [← Nat.pow_lt_pow_iff_right (a := 2) (by decide), Nat.pow_add]
    exact Nat.lt_of_le_of_lt (Nat.mul_le_mul_right _ hj) h
  rcases Nat.lt_or_eq_of_le hk with hk | rfl
  · refine ⟨k, e, hk, ?_, rfl⟩
    rcases he with rfl | he
    · decide
    · have := bound he; omega
  · have := bound (j := 53) (Nat.le_refl _)
    refine ⟨2 ^ 52, e + 1, by decide, by omega, ?_⟩
    rw [← Nat.pow_add, ← Nat.pow_add]
    congr 1; omega

theorem representable_nearestUnits {num den : Nat} (h : nearestUnits num den < overflow) :
    Representable (nearestUnits num den) := by
  have hlow := Decimal.div_le_roundHalfEven num (den * spacing (num / den))
  have hhigh := Decimal.roundHalfEven_le num (den * spacing (num / den))
  rw [← Nat.div_div_eq_div_mul] at hlow hhigh
  simp only [nearestUnits, spacing] at h hlow hhigh ⊢
  generalize num / den = q at h hlow hhigh ⊢
  have hq : q < 2 ^ (q.log2 - 52) * 2 ^ 53 := by
    rw [← Nat.pow_add]
    exact Nat.lt_of_lt_of_le Nat.lt_log2_self (Nat.pow_le_pow_right (by decide) (by omega))
  have hdiv := (Nat.div_lt_iff_lt_mul (Nat.two_pow_pos (q.log2 - 52))).2
    (Nat.mul_comm _ (2 ^ 53) ▸ hq)
  refine representable_mul_two_pow (by omega) ?_ h
  by_cases he : q.log2 - 52 = 0
  · exact .inl he
  · refine .inr (Nat.le_trans ?_ hlow)
    rw [Nat.le_div_iff_mul_le (Nat.two_pow_pos _), ← Nat.pow_add]
    exact Nat.le_trans (Nat.pow_le_pow_right (by decide) (by omega))
      (Nat.log2_self_le (by rintro rfl; simp at he))

/-- The number nearest to `num / den` units. -/
def nearest (negative : Bool) (num den : Nat) : Binary64 :=
  if h : nearestUnits num den < overflow then
    .finite negative (nearestUnits num den) (representable_nearestUnits h)
  else .infinite negative

def ofInt (n : Int) : Binary64 := nearest (n < 0) (n.natAbs * unitsPerOne) 1

def ofRatio (num den : Nat) : Binary64 := nearest false (num * unitsPerOne) den

instance : OfNat Binary64 n := ⟨ofInt n⟩

/-- The sign bit; a value that is not a number has none. -/
def isNegative : Binary64 → Bool
  | nan => false
  | infinite negative | finite negative _ _ => negative

def isZero : Binary64 → Bool
  | finite _ units _ => units == 0
  | _ => false

def abs : Binary64 → Binary64
  | nan => nan
  | infinite _ => infinite false
  | finite _ units h => finite false units h

/-- The product, rounded once; zero times an infinite value is not a number. -/
def mul : Binary64 → Binary64 → Binary64
  | nan, _ | _, nan => nan
  | infinite s, infinite t => infinite (s != t)
  | infinite s, finite t b _ => if b = 0 then nan else infinite (s != t)
  | finite s a _, infinite t => if a = 0 then nan else infinite (s != t)
  | finite s a _, finite t b _ => nearest (s != t) (a * b) unitsPerOne

instance : Mul Binary64 := ⟨mul⟩

/-- A count of units with its sign. -/
def signed (negative : Bool) (units : Nat) : Int := if negative then -units else units

/-- The sum, rounded once; opposite infinite values have no sum. -/
def add : Binary64 → Binary64 → Binary64
  | nan, _ | _, nan => nan
  | infinite s, infinite t => if s = t then infinite s else nan
  | infinite s, finite _ _ _ => infinite s
  | finite _ _ _, infinite t => infinite t
  | finite s a _, finite t b _ =>
    let sum := signed s a + signed t b
    if sum = 0 then finite (s && t) 0 representable_zero
    else nearest (sum < 0) sum.natAbs 1

instance : Add Binary64 := ⟨add⟩

/-- The whole number nearest to the magnitude of a finite number; a half goes up. -/
def roundedMagnitude? : Binary64 → Option Nat
  | finite _ units _ => some (Decimal.roundHalfUp units unitsPerOne)
  | _ => none

theorem representable_mod {units : Nat} (h : Representable units) :
    Representable (units % unitsPerOne) := by
  obtain ⟨k, e, hk, he, rfl⟩ := h
  rcases Nat.le_total 1074 e with h | h
  · refine ⟨0, 0, by decide, by decide, ?_⟩
    rw [Nat.zero_mul, unitsPerOne]
    exact Nat.mod_eq_zero_of_dvd (Nat.dvd_mul_left_of_dvd (Nat.pow_dvd_pow 2 h) k)
  · refine ⟨k % 2 ^ (1074 - e), e, Nat.lt_of_le_of_lt (Nat.mod_le _ _) hk, he, ?_⟩
    rw [unitsPerOne, ← Nat.mul_mod_mul_right, ← Nat.pow_add, Nat.sub_add_cancel h]

/-- The part of the magnitude of a finite number behind the point, which is exact. -/
def fraction : Binary64 → Binary64
  | finite _ units h => finite false (units % unitsPerOne) (representable_mod h)
  | _ => nan

end Binary64

end CellDisplay
