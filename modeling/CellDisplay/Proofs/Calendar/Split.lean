import CellDisplay.Binary64.Bits
import CellDisplay.Proofs.Binary64.Magnitude
import CellDisplay.Proofs.Calendar.Serial

/-! # Days and milliseconds of serials

A serial is split by the nearest whole number to its product with the milliseconds of a day. The
days and the milliseconds are those of this number exactly, up to the greatest one that is kept. The
number after it, a power of two, is not refused but counted as one less.
-/

namespace CellDisplay.Serial

variable {serial : Binary64} {day millis : ℕ}

/-- The milliseconds of a serial, as a number that is rounded once. -/
def product (serial : Binary64) : Binary64 := serial * Binary64.ofInt millisPerDay

/-- A serial before day 0; a zero with a sign is none. -/
def IsBefore (serial : Binary64) : Prop := serial.isNegative ∧ ¬ serial.isZero

theorem split?_of_isBefore (h : IsBefore serial) : split? serial = none := by
  rw [split?, h.1, Bool.eq_false_iff.mpr h.2]
  rfl

theorem split?_of_not_isBefore (h : ¬ IsBefore serial) :
    split? serial = (product serial).roundedMagnitude?.bind fun total =>
      if total ≤ maxMillis + 1 then
        some (min total maxMillis / millisPerDay, min total maxMillis % millisPerDay)
      else none := by
  have hsign : ¬ (serial.isNegative && !serial.isZero) := by
    rwa [Bool.and_eq_true, Bool.not_eq_true', ← Bool.not_eq_true]
  rw [split?, if_neg hsign, product]
  cases (serial * Binary64.ofInt millisPerDay).roundedMagnitude? <;> rfl

theorem split?_eq_none_iff :
    split? serial = none ↔ IsBefore serial ∨ ¬ (product serial).IsFinite ∨
      2 ^ 63 < round (product serial).magnitude := by
  by_cases hbefore : IsBefore serial
  · exact iff_of_true (split?_of_isBefore hbefore) (.inl hbefore)
  rw [split?_of_not_isBefore hbefore, or_iff_right hbefore]
  cases htotal : (product serial).roundedMagnitude? with
  | none => exact iff_of_true rfl (.inl (Binary64.roundedMagnitude?_eq_none_iff.mp htotal))
  | some total =>
    obtain ⟨hfinite, hround⟩ := Binary64.roundedMagnitude?_eq_some_iff.mp htotal
    rw [or_iff_right (not_not.mpr hfinite), hround, Option.bind_some, maxMillis]
    split <;> simp <;> omega

theorem exists_of_split?_eq_some (h : split? serial = some (day, millis)) :
    ∃ total : ℕ, (product serial).roundedMagnitude? = some total ∧
      day = min total maxMillis / millisPerDay ∧ millis = min total maxMillis % millisPerDay := by
  have hbefore : ¬ IsBefore serial := fun hbefore => by
    rw [split?_of_isBefore hbefore] at h
    cases h
  rw [split?_of_not_isBefore hbefore] at h
  obtain ⟨total, htotal, hsplit⟩ := Option.bind_eq_some_iff.mp h
  refine ⟨total, htotal, ?_⟩
  split at hsplit
  · cases hsplit
    exact ⟨rfl, rfl⟩
  · cases hsplit

/-- A serial is split unless it is not finite, before day 0 or has more than `2 ^ 63` milliseconds.
The parts are those of the nearest whole number of milliseconds, a half going up, or of the number
before it if it is that power. -/
theorem split?_exact (serial : Binary64) :
    (split? serial = none ↔ ¬ serial.IsFinite ∨ IsBefore serial ∨ ¬ (product serial).IsFinite ∨
      2 ^ 63 < round (product serial).magnitude) ∧
    ∀ day millis, split? serial = some (day, millis) → millis < 86400000 ∧
      (day * 86400000 + millis : ℤ) = min (round (product serial).magnitude) (2 ^ 63 - 1) := by
  constructor
  · rw [split?_eq_none_iff]
    exact (or_iff_right_of_imp fun h => .inr (.inl fun hproduct => h hproduct.of_mul)).symm
  · intro day millis h
    obtain ⟨total, htotal, rfl, rfl⟩ := exists_of_split?_eq_some h
    rw [(Binary64.roundedMagnitude?_eq_some_iff.mp htotal).2]
    simp only [millisPerDay, maxMillis]
    omega

/-- The last serial with fewer than `2 ^ 63` milliseconds. -/
def lastExact : Binary64 := .ofBits 0x4238daea1d7f4cf6

theorem split?_exact_lastExact :
    split? lastExact = some (106751991167, 25974784) ∧
      (106751991167 * 86400000 + 25974784 : ℤ) =
        min (round (product lastExact).magnitude) (2 ^ 63 - 1) := by
  have hsplit : split? lastExact = some (106751991167, 25974784) := by decide +kernel
  exact ⟨hsplit, ((split?_exact lastExact).2 _ _ hsplit).2⟩

/-- The serial after it has `2 ^ 63` milliseconds, and is split into one less. -/
theorem exists_split?_ne_round :
    ∃ serial day millis, split? serial = some (day, millis) ∧
      round (product serial).magnitude = 2 ^ 63 ∧ (day * 86400000 + millis : ℤ) ≠ 2 ^ 63 := by
  have htotal : (product (.ofBits 0x4238daea1d7f4cf7)).roundedMagnitude? = some (2 ^ 63) := by
    decide +kernel
  refine ⟨.ofBits 0x4238daea1d7f4cf7, 106751991167, 25975807, by decide +kernel, ?_, by norm_num⟩
  rw [(Binary64.roundedMagnitude?_eq_some_iff.mp htotal).2]
  rfl

end CellDisplay.Serial
