import CellDisplay.Calendar.Date

/-! # Dates and day numbers

Counting days is a bijection between the dates of the Gregorian calendar and the whole numbers
that keeps their order. The year of a day is found in its cycle, as the day of a year of four
in a century; the day of the year then gives the month, counted from March.
-/

namespace CellDisplay.Date

/-- A day of a cycle of 400 years, by its century, the group of four years in the century, the
year in the group and the day of the year, each counted from zero. The last year of a group has
a leap day, but not at the end of a century unless the cycle ends there too. -/
structure CycleDay where
  century : Nat
  group : Nat
  year : Nat
  day : Nat
  century_lt : century < 4
  group_lt : group < 25
  year_lt : year < 4
  day_lt : day < 365 ∨ day = 365 ∧ year = 3 ∧ (group < 24 ∨ century = 3)

namespace CycleDay

def yearOfCycle (c : CycleDay) : Nat := 100 * c.century + (4 * c.group + c.year)

def dayOfCycle (c : CycleDay) : Nat :=
  36524 * c.century + (1461 * c.group + (365 * c.year + c.day))

theorem exists_dayOfCycle {n : Nat} (h : n < 146097) : ∃ c : CycleDay, c.dayOfCycle = n := by
  -- The last century, and the last year of a group, can be a day longer than the quotient says.
  obtain ⟨century, r, hc, hr, rfl⟩ :
      ∃ c r, c < 4 ∧ (r < 36524 ∨ c = 3 ∧ r = 36524) ∧ n = 36524 * c + r :=
    ⟨min (n / 36524) 3, n - 36524 * min (n / 36524) 3, by omega, by omega, by omega⟩
  obtain ⟨year, day, hy, hd, hs⟩ :
      ∃ y d, y < 4 ∧ (d < 365 ∨ d = 365 ∧ y = 3) ∧ r % 1461 = 365 * y + d :=
    ⟨min (r % 1461 / 365) 3, r % 1461 - 365 * min (r % 1461 / 365) 3, by omega, by omega,
      by omega⟩
  refine ⟨⟨century, r / 1461, year, day, hc, ?_, hy, ?_⟩, ?_⟩
  · omega
  · omega
  · simp only [dayOfCycle]
    omega

theorem century_quotient {c r : Nat} (hc : c < 4) (hr : r < 36524 ∨ c = 3 ∧ r = 36524) :
    (36524 * c + r) / 36524 = c + (36524 * c + r) / 146096 := by
  rcases hr with hr | ⟨rfl, rfl⟩
  · rw [Nat.mul_add_div (by decide), Nat.div_eq_of_lt hr]
    omega
  · rfl

variable (c : CycleDay)

/-- The quotient that gives the year of a day: the leap days before it are taken off first. -/
theorem quotient_dayOfCycle :
    (c.dayOfCycle - c.dayOfCycle / 1460 + c.dayOfCycle / 36524 - c.dayOfCycle / 146096) / 365 =
      c.yearOfCycle := by
  obtain ⟨century, group, year, day, hc, hg, hy, hd⟩ := c
  simp only [dayOfCycle, yearOfCycle]
  have hcentury := century_quotient (r := 1461 * group + (365 * year + day)) hc (by omega)
  have hleap : (36524 * century + (1461 * group + (365 * year + day))) / 1460 =
      25 * century + group + (24 * century + group + 365 * year + day) / 1460 := by
    omega
  omega

theorem yearOfCycle_lt : c.yearOfCycle < 400 := by
  have := c.century_lt
  have := c.group_lt
  have := c.year_lt
  simp only [yearOfCycle]
  omega

theorem dayOfCycle_eq :
    c.dayOfCycle = 365 * c.yearOfCycle + c.yearOfCycle / 4 - c.yearOfCycle / 100 + c.day := by
  have := c.group_lt
  have := c.year_lt
  simp only [dayOfCycle, yearOfCycle]
  omega

theorem dayOfCycle_lt : c.dayOfCycle < 146097 := by
  obtain ⟨century, group, year, day, hc, hg, hy, hd⟩ := c
  simp only [dayOfCycle]
  omega

theorem day_le : c.day ≤ 365 := by
  have := c.day_lt
  omega

/-- Only before the March of a leap year does a year that begins in March have 366 days. -/
theorem isLeap_of_day (cycle : Int) (h : c.day = 365) :
    IsLeap (c.yearOfCycle + cycle * 400 + 1) := by
  obtain ⟨century, group, year, day, hc, hg, hy, hd⟩ := c
  simp only at h
  simp only [yearOfCycle, IsLeap]
  refine ⟨by omega, ?_⟩
  by_cases hl : group < 24
  · left; omega
  · right; omega

end CycleDay

/-- The year of a date if years begin in March. -/
def marchYear (d : Date) : Int := d.year - if d.month ≤ 2 then 1 else 0

/-- The number of a month, counted from zero for March. -/
def marchMonth (month : Nat) : Nat := if month ≤ 2 then month + 9 else month - 3

/-- The days from the first of March to the first of a month that is counted from March. -/
def daysToMonth (month : Nat) : Nat := (153 * month + 2) / 5

/-- The days from the first of March of the year 0 to that of a year. -/
def daysToYear (year : Int) : Int := 365 * year + year / 4 - year / 100 + year / 400

theorem toDays_eq (d : Date) :
    d.toDays =
      daysToYear d.marchYear + daysToMonth (marchMonth d.month) + d.day - 1 + marchEpoch := by
  simp only [toDays, marchYear, marchMonth, daysToMonth, daysToYear, cycleDays]
  split <;> split <;> omega

section OfDays

theorem exists_cycleDay (n : Int) :
    ∃ (cycle : Int) (c : CycleDay), n = cycle * cycleDays + c.dayOfCycle + marchEpoch := by
  obtain ⟨c, hc⟩ := CycleDay.exists_dayOfCycle
    (show ((n - marchEpoch) % cycleDays).toNat < 146097 by simp only [cycleDays]; omega)
  refine ⟨(n - marchEpoch) / cycleDays, c, ?_⟩
  rw [hc]
  simp only [cycleDays]
  omega

/-- The month of a day of a year that begins in March. -/
def monthOfDay (day : Nat) : Nat := (5 * day + 2) / 153

/-- A month that is counted from March, by its number in the year. -/
def monthNumber (month : Nat) : Nat := if month < 10 then month + 3 else month - 9

theorem ofDays_eq (cycle : Int) (c : CycleDay) :
    ofDays (cycle * cycleDays + c.dayOfCycle + marchEpoch) =
      ⟨c.yearOfCycle + cycle * 400 + (if monthNumber (monthOfDay c.day) ≤ 2 then 1 else 0),
        monthNumber (monthOfDay c.day), c.day - daysToMonth (monthOfDay c.day) + 1⟩ := by
  have hlt := c.dayOfCycle_lt
  have hdays : cycle * cycleDays + c.dayOfCycle + marchEpoch - marchEpoch =
      c.dayOfCycle + cycle * cycleDays := by omega
  have hcycle : (c.dayOfCycle + cycle * cycleDays) / cycleDays = cycle := by
    simp only [cycleDays]; omega
  have hday : ((c.dayOfCycle + cycle * cycleDays) % cycleDays).toNat = c.dayOfCycle := by
    simp only [cycleDays]; omega
  have hrest : c.dayOfCycle -
      (365 * c.yearOfCycle + c.yearOfCycle / 4 - c.yearOfCycle / 100) = c.day := by
    rw [c.dayOfCycle_eq]; omega
  simp only [ofDays, hdays, hcycle, hday, c.quotient_dayOfCycle, hrest]
  rfl

variable {day : Nat}

theorem monthOfDay_le (h : day ≤ 365) : monthOfDay day ≤ 11 := by
  simp only [monthOfDay]
  omega

theorem daysToMonth_monthOfDay_le (day : Nat) : daysToMonth (monthOfDay day) ≤ day := by
  simp only [daysToMonth, monthOfDay]
  omega

theorem marchMonth_monthNumber {month : Nat} (h : month ≤ 11) :
    marchMonth (monthNumber month) = month := by
  simp only [marchMonth, monthNumber]
  split <;> split <;> omega

theorem toDays_ofDays (n : Int) : (ofDays n).toDays = n := by
  obtain ⟨cycle, c, rfl⟩ := exists_cycleDay n
  rw [ofDays_eq, toDays_eq]
  simp only [marchYear, marchMonth_monthNumber (monthOfDay_le c.day_le)]
  have hday := daysToMonth_monthOfDay_le c.day
  have hlt := c.yearOfCycle_lt
  have hc := c.dayOfCycle_eq
  rw [Int.add_sub_cancel]
  simp only [daysToYear, cycleDays]
  omega

theorem lt_daysToMonth_succ_monthOfDay (day : Nat) : day < daysToMonth (monthOfDay day + 1) := by
  simp only [daysToMonth, monthOfDay]
  omega

/-- The months that are counted from March have the lengths of the calendar, save the last. -/
theorem daysToMonth_add_monthLength (year : Int) {month : Nat} (h : month < 11) :
    daysToMonth month + monthLength year (monthNumber month) = daysToMonth (month + 1) := by
  have hfebruary : monthNumber month ≠ 2 := by
    simp only [monthNumber]
    split <;> omega
  simp only [monthLength, if_neg hfebruary]
  revert month
  decide

theorem isReal_ofDays (n : Int) : (ofDays n).IsReal := by
  obtain ⟨cycle, c, rfl⟩ := exists_cycleDay n
  rw [ofDays_eq]
  have hday := c.day_le
  have hle := monthOfDay_le hday
  have hlow := daysToMonth_monthOfDay_le c.day
  have hhigh := lt_daysToMonth_succ_monthOfDay c.day
  refine ⟨?_, ?_, Nat.le_add_left _ _, ?_⟩
  · simp only [monthNumber]; split <;> omega
  · simp only [monthNumber]; split <;> omega
  · rcases Nat.lt_or_eq_of_le hle with hm | hm
    · have := daysToMonth_add_monthLength
        (c.yearOfCycle + cycle * 400 + (if monthNumber (monthOfDay c.day) ≤ 2 then 1 else 0)) hm
      simp only at this ⊢
      omega
    · -- The last month is February, which has a leap day exactly if the year has one.
      rw [hm]
      have hstart : daysToMonth 11 = 337 := rfl
      change c.day - 337 + 1 ≤ monthLength (c.yearOfCycle + cycle * 400 + 1) 2
      rw [monthLength, if_pos rfl]
      split
      · omega
      · rename_i hleap
        have : c.day ≠ 365 := fun h => hleap (c.isLeap_of_day cycle h)
        omega

end OfDays

section Order

variable {a b d : Date}

/-- The order of dates is the same if years begin in March. -/
theorem march_lt_of_lt (ha : a.IsReal) (hb : b.IsReal) (h : a < b) :
    a.marchYear < b.marchYear ∨ a.marchYear = b.marchYear ∧
      (marchMonth a.month < marchMonth b.month ∨
        marchMonth a.month = marchMonth b.month ∧ a.day < b.day) := by
  obtain ⟨ha₁, ha₂, -⟩ := ha
  obtain ⟨hb₁, hb₂, -⟩ := hb
  simp only [marchYear, marchMonth]
  obtain h | ⟨hy, h | ⟨hm, h⟩⟩ : a.year < b.year ∨ a.year = b.year ∧
      (a.month < b.month ∨ a.month = b.month ∧ a.day < b.day) := h
  · split <;> split <;> omega
  · split <;> split <;> omega
  · rw [hy, hm]
    omega

theorem monthNumber_marchMonth {month : Nat} (hlow : 1 ≤ month) (hhigh : month ≤ 12) :
    monthNumber (marchMonth month) = month := by
  simp only [monthNumber, marchMonth]
  split <;> split <;> omega

theorem day_le_daysToMonth (hd : d.IsReal) (hm : marchMonth d.month < 11) :
    daysToMonth (marchMonth d.month) + d.day ≤ daysToMonth (marchMonth d.month + 1) := by
  obtain ⟨hlow, hhigh, -, hday⟩ := hd
  have := daysToMonth_add_monthLength d.year hm
  rw [monthNumber_marchMonth hlow hhigh] at this
  omega

theorem daysToMonth_mono {m n : Nat} (h : m ≤ n) : daysToMonth m ≤ daysToMonth n := by
  simp only [daysToMonth]
  omega

/-- A date falls before the end of its year. -/
theorem daysToYear_succ_marchYear (hd : d.IsReal) :
    daysToYear d.marchYear + daysToMonth (marchMonth d.month) + d.day ≤
      daysToYear (d.marchYear + 1) := by
  have hlength : 365 ≤ daysToYear (d.marchYear + 1) - daysToYear d.marchYear := by
    simp only [daysToYear]
    omega
  by_cases hm : marchMonth d.month < 11
  · have hle := day_le_daysToMonth hd hm
    have hmono : daysToMonth (marchMonth d.month + 1) ≤ daysToMonth 11 := daysToMonth_mono hm
    have : daysToMonth 11 = 337 := rfl
    omega
  · -- The date is in February, so the leap day of its year ends the year that began in March.
    obtain ⟨h₁, h₂, -, hday⟩ := hd
    have hfebruary : d.month = 2 := by
      simp only [marchMonth] at hm
      split at hm <;> omega
    have hstart : daysToMonth (marchMonth d.month) = 337 := by rw [hfebruary]; rfl
    have hyear : d.marchYear = d.year - 1 := by rw [marchYear, hfebruary]; rfl
    rw [hstart, hyear, Int.sub_add_cancel]
    rw [monthLength, if_pos hfebruary] at hday
    split at hday <;> rename_i hleap <;> simp only [IsLeap] at hleap
    · simp only [daysToYear]
      omega
    · rw [hyear, Int.sub_add_cancel] at hlength
      omega

theorem daysToYear_mono {x y : Int} (h : x ≤ y) : daysToYear x ≤ daysToYear y := by
  simp only [daysToYear]
  omega

theorem toDays_lt_of_lt (ha : a.IsReal) (hb : b.IsReal) (h : a < b) : a.toDays < b.toDays := by
  have hb₁ : 1 ≤ b.day := hb.2.2.1
  rw [toDays_eq, toDays_eq]
  rcases march_lt_of_lt ha hb h with hy | ⟨hy, hm | ⟨hm, hd⟩⟩
  · have hend := daysToYear_succ_marchYear ha
    have hmono := daysToYear_mono (show a.marchYear + 1 ≤ b.marchYear from hy)
    omega
  · have hle := day_le_daysToMonth ha (by
      have : marchMonth b.month ≤ 11 := by
        have := hb.2.1
        simp only [marchMonth]
        split <;> omega
      omega)
    have hmono := daysToMonth_mono (show marchMonth a.month + 1 ≤ marchMonth b.month from hm)
    rw [hy]
    omega
  · rw [hy, hm]
    omega

theorem lt_trichotomy (a b : Date) : a < b ∨ a = b ∨ b < a := by
  obtain ⟨y, m, d⟩ := a
  obtain ⟨y', m', d'⟩ := b
  change Date.lt _ _ ∨ _ ∨ Date.lt _ _
  simp only [Date.lt, Date.mk.injEq]
  omega

theorem le_iff {a b : Date} :
    a ≤ b ↔ a.year < b.year ∨
      a.year = b.year ∧ (a.month < b.month ∨ a.month = b.month ∧ a.day ≤ b.day) := by
  change ¬ Date.lt b a ↔ _
  simp only [Date.lt]
  omega

theorem le_refl (d : Date) : d ≤ d := le_iff.mpr (.inr ⟨rfl, .inr ⟨rfl, Nat.le_refl _⟩⟩)

theorem not_le {a b : Date} : ¬ a ≤ b ↔ b < a := Decidable.not_not

theorem year_le_of_le {a b : Date} (h : a ≤ b) : a.year ≤ b.year := by
  rcases le_iff.mp h with h | ⟨h, -⟩
  · exact Int.le_of_lt h
  · exact Int.le_of_eq h

theorem le_trans {a b c : Date} (hab : a ≤ b) (hbc : b ≤ c) : a ≤ c := by
  rw [le_iff] at hab hbc ⊢
  omega

theorem le_of_lt {a b : Date} (h : a < b) : a ≤ b := by
  rw [← not_le, le_iff] at h
  rw [le_iff]
  omega

theorem lt_of_lt_of_le {a b c : Date} (hab : a < b) (hbc : b ≤ c) : a < c :=
  not_le.mp fun hca => absurd hab (le_trans hbc hca)

theorem toDays_lt_iff (ha : a.IsReal) (hb : b.IsReal) : a.toDays < b.toDays ↔ a < b := by
  refine ⟨fun h => ?_, toDays_lt_of_lt ha hb⟩
  rcases lt_trichotomy a b with hlt | rfl | hlt
  · exact hlt
  · exact absurd h (Int.lt_irrefl _)
  · have := toDays_lt_of_lt hb ha hlt
    omega

theorem toDays_inj (ha : a.IsReal) (hb : b.IsReal) : a.toDays = b.toDays ↔ a = b := by
  refine ⟨fun h => ?_, fun h => h ▸ rfl⟩
  rcases lt_trichotomy a b with hlt | rfl | hlt
  · have := toDays_lt_of_lt ha hb hlt
    omega
  · rfl
  · have := toDays_lt_of_lt hb ha hlt
    omega

theorem ofDays_toDays (hd : d.IsReal) : ofDays d.toDays = d :=
  (toDays_inj (isReal_ofDays _) hd).mp (toDays_ofDays _)

end Order

end CellDisplay.Date
