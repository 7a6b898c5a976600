import CellDisplay.Proofs.Calendar.Weekday
import CellDisplay.Proofs.Checked.Calendar

/-! # Day numbers and dates by machine integers

For every year that fits into 32 bits, the dates of the calendar and their day numbers are computed
from each other without overflow, and the number after that of a date is the number of the next
date.
-/

namespace CellDisplay.Checked

variable {d : Date} {n : Int}

/-- Real dates have small months and days. -/
theorem toDays_of_isReal (hd : d.IsReal) (hyear : Signed.InRange (2 ^ 31) d.year) :
    toDays d = some d.toDays := by
  obtain ⟨-, hmonth, -, hday⟩ := hd
  have hlength := Date.monthLength_le d.year d.month
  exact toDays_eq hyear (by omega) (by omega)

theorem ofDays_toDays (hd : d.IsReal) (hyear : Signed.InRange (2 ^ 31) d.year) :
    ofDays d.toDays = some d := by
  have hdate := Date.ofDays_toDays hd
  rw [ofDays_eq (by rwa [hdate]), hdate]

/-- Dates and day numbers are inverse to each other for all years of 32 bits: the date of a day
number is one of the calendar, and the next day number has the next date. -/
theorem toDays_ofDays_inverse :
    (∀ d : Date, d.IsReal → Signed.InRange (2 ^ 31) d.year →
      ∃ n, toDays d = some n ∧ ofDays n = some d) ∧
    ∀ n : Int, Signed.InRange (2 ^ 31) (Date.ofDays n).year →
      Signed.InRange (2 ^ 31) (Date.ofDays (n + 1)).year →
      ∃ d, ofDays n = some d ∧ d.IsReal ∧ toDays d = some n ∧ ofDays (n + 1) = some d.next := by
  constructor
  · intro d hd hyear
    exact ⟨d.toDays, toDays_of_isReal hd hyear, ofDays_toDays hd hyear⟩
  · intro n hyear hnext
    have hd := Date.isReal_ofDays n
    refine ⟨Date.ofDays n, ofDays_eq hyear, hd, ?_, ?_⟩
    · rw [toDays_of_isReal hd hyear, Date.toDays_ofDays]
    · rw [ofDays_eq hnext, Date.next_ofDays]

/-- The last date whose year fits into 32 bits, and the leap day of a year before the first one. -/
theorem toDays_ofDays_inverse_leapDay :
    (∃ n, toDays ⟨2147483647, 12, 31⟩ = some n ∧ ofDays n = some ⟨2147483647, 12, 31⟩) ∧
      ∃ d, ofDays (-865567) = some d ∧ d.IsReal ∧ toDays d = some (-865567) ∧
        ofDays (-865566) = some d.next :=
  ⟨toDays_ofDays_inverse.1 _ (by decide) (by decide),
    toDays_ofDays_inverse.2 (-865567) (by decide) (by decide)⟩

end CellDisplay.Checked
