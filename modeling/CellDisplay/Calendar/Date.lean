/-! # Calendar dates

Dates of the proleptic Gregorian calendar and day numbers, which count from 1970-01-01.
Years are taken to begin in March, so that the leap day ends the year; 400 of them make a
cycle of 146097 days.
-/

namespace CellDisplay

/-- A year, a month from 1 to 12 and a day of the month from 1. -/
structure Date where
  year : Int
  month : Nat
  day : Nat
  deriving Repr, DecidableEq

namespace Date

/-- The order of dates: by year, then month, then day. -/
protected def lt (a b : Date) : Prop :=
  a.year < b.year ∨ a.year = b.year ∧ (a.month < b.month ∨ a.month = b.month ∧ a.day < b.day)

instance : LT Date := ⟨Date.lt⟩

instance : LE Date := ⟨fun a b => ¬ b < a⟩

instance (a b : Date) : Decidable (a < b) := inferInstanceAs (Decidable (_ ∨ _))

instance (a b : Date) : Decidable (a ≤ b) := inferInstanceAs (Decidable (¬ _))

def IsLeap (year : Int) : Prop := year % 4 = 0 ∧ (year % 100 ≠ 0 ∨ year % 400 = 0)

instance (year : Int) : Decidable (IsLeap year) := inferInstanceAs (Decidable (_ ∧ _))

def monthLength (year : Int) (month : Nat) : Nat :=
  if month = 2 then if IsLeap year then 29 else 28
  else if month ∈ [4, 6, 9, 11] then 30 else 31

/-- The date stands in the Gregorian calendar. -/
def IsReal (d : Date) : Prop :=
  1 ≤ d.month ∧ d.month ≤ 12 ∧ 1 ≤ d.day ∧ d.day ≤ monthLength d.year d.month

instance (d : Date) : Decidable d.IsReal := inferInstanceAs (Decidable (_ ∧ _))

def cycleDays : Int := 146097

/-- The day number of the first of March of the year 0. -/
def marchEpoch : Int := -719468

/-- The day number of a date; a month or day out of range counts on from its year. -/
def toDays (d : Date) : Int :=
  let year := d.year - (if d.month ≤ 2 then 1 else 0)
  let cycle := year / 400
  let yearOfCycle := year % 400
  let month : Int := if d.month > 2 then d.month - 3 else d.month + 9
  let dayOfYear := (153 * month + 2) / 5 + d.day - 1
  let dayOfCycle := yearOfCycle * 365 + yearOfCycle / 4 - yearOfCycle / 100 + dayOfYear
  cycle * cycleDays + dayOfCycle + marchEpoch

def ofDays (n : Int) : Date :=
  let days := n - marchEpoch
  let cycle := days / cycleDays
  let dayOfCycle := (days % cycleDays).toNat
  let yearOfCycle :=
    (dayOfCycle - dayOfCycle / 1460 + dayOfCycle / 36524 - dayOfCycle / 146096) / 365
  let dayOfYear := dayOfCycle - (365 * yearOfCycle + yearOfCycle / 4 - yearOfCycle / 100)
  let month := (5 * dayOfYear + 2) / 153
  let day := dayOfYear - (153 * month + 2) / 5 + 1
  let month := if month < 10 then month + 3 else month - 9
  ⟨yearOfCycle + cycle * 400 + (if month ≤ 2 then 1 else 0), month, day⟩

end Date

end CellDisplay
