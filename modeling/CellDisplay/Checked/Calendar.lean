import CellDisplay.Calendar.DateFields
import CellDisplay.Checked.Machine

/-! # Dates by machine integers

Days are counted in 64 bits, years in 32 bits with a sign and all other fields in 32 bits
without one. Months and weekdays are looked up in tables, whose bounds are checked.
-/

namespace CellDisplay.Checked

/-- The lowest 32 bits of an integer, read with a sign. -/
def lowSigned (n : Int) : Int := n.bmod (2 ^ 32)

/-- The lowest 32 bits of an integer, read without a sign. -/
def lowUnsigned (n : Int) : Nat := (n % 2 ^ 32).toNat

/-- The day number of a date. -/
def toDays (date : Date) : Option Int := do
  let year ← (date.year - (if date.month ≤ 2 then 1 else 0 : Int) : I64).value?
  let cycle ← (Signed.ediv year 400 : I64).value?
  let yearOfCycle ← (year - cycle * 400 : I64).value?
  let month ← (if date.month > 2 then date.month - 3 else date.month + 9 : I64).value?
  let dayOfYear ← ((153 * month + 2) / 5 + date.day - 1 : I64).value?
  let dayOfCycle ←
    (yearOfCycle * 365 + yearOfCycle / 4 - yearOfCycle / 100 + dayOfYear : I64).value?
  (cycle * 146097 + dayOfCycle - 719468 : I64).value?

/-- The year of a day of a cycle of 400 years. -/
def yearOfCycle (day : Int) : I64 := (day - day / 1460 + day / 36524 - day / 146096) / 365

/-- The day of its year of a day of a cycle. -/
def dayOfYear (day year : Int) : I64 := day - (365 * year + year / 4 - year / 100)

/-- The month of a day of a year that begins in March, counted from March. -/
def marchMonth (day : Int) : I64 := (5 * day + 2) / 153

def dayOfMonth (day month : Int) : I64 := day - (153 * month + 2) / 5 + 1

/-- The number of a month that is counted from March. -/
def monthNumber (month : Int) : I64 := if month < 10 then month + 3 else month - 9

/-- The date of a day number. -/
def ofDays (n : Int) : Option Date := do
  let days ← (n + 719468 : I64).value?
  let cycle ← (Signed.ediv days 146097 : I64).value?
  let dayOfCycle ← (days - cycle * 146097 : I64).value?
  let year ← (yearOfCycle dayOfCycle).value?
  let dayOfYear ← (dayOfYear dayOfCycle year).value?
  let march ← (marchMonth dayOfYear).value?
  let day ← (dayOfMonth dayOfYear march).value?
  let month ← (monthNumber march).value?
  let year ← (year + cycle * 400 + (if month ≤ 2 then 1 else 0 : Int) : I64).value?
  return ⟨lowSigned year, lowUnsigned month, lowUnsigned day⟩

/-- The date that comes a number of days after another one. -/
def dateAfter (start : Date) (day : Nat) : Option Date := do
  let start ← toDays start
  ofDays (← (start + day : I64).value?)

def dateOf (system : DateSystem) (day : Nat) : Option Date :=
  match system with
  | .from1900 =>
    if day = 60 then some DateSystem.phantomDay
    else dateAfter ⟨1899, 12, if day < 60 then 31 else 30⟩ day
  | .from1904 => dateAfter ⟨1904, 1, 1⟩ day

/-- The date of a day of a date system, if its year is not past the last one. -/
def date? (system : DateSystem) (day : Nat) : Option (Option Date) :=
  (dateOf system day).map fun date => if date.year ≤ DateSystem.lastYear then some date else none

/-- The weekday of a day, counted from zero for Sunday. -/
def weekdayIndex (system : DateSystem) (day : Nat) : I64 :=
  match system with
  | .from1900 => Signed.emod (day - 1) 7
  | .from1904 => Signed.emod (day + 5) 7

def weekday (system : DateSystem) (day : Nat) : Option Nat := do
  let index ← (weekdayIndex system day).value?
  (lowUnsigned index + 1 : U32).value?

/-- The days in a number of milliseconds, and the milliseconds of the last day. -/
def splitMillis (total : Nat) : Option (Nat × Nat) := do
  let day ← (Signed.ediv total Serial.millisPerDay : I64).value?
  let millis ← (Signed.emod total Serial.millisPerDay : I64).value?
  return (day.toNat, lowUnsigned millis)

/-- The days and the milliseconds of the day of a serial. -/
def split? (serial : Binary64) : Option (Option (Nat × Nat)) :=
  if serial.isNegative && !serial.isZero then some none
  else
    match (serial * Binary64.ofInt Serial.millisPerDay).roundedMagnitude? with
    | none => some none
    | some total =>
      if total ≤ Serial.maxMillis + 1 then (splitMillis (min total Serial.maxMillis)).map some
      else some none

/-- The entry of a table for a number counted from one. -/
def entry {n : Nat} (names : Vector Text n) (number : Nat) : Option Text := do
  let index ← (number - 1 : U32).value?
  names[index]?

def twelveHour (hour : Nat) : Option Nat :=
  if hour = 0 then some 12 else if hour ≤ 12 then some hour else (hour - 12 : U32).value?

/-- The name, glyph, initial and year of the era of a date. -/
def eraFields (calendar : Calendar) (date : Date) : Option (Text × Text × Text × Int) :=
  let common := ("AD".toList, "AD".toList, "A".toList, date.year)
  match calendar with
  | .gregorian => some common
  | .imperial =>
    match Era.of? date with
    | some era => do
      let year ← (date.year - era.start.year + 1 : I32).value?
      return (era.name, era.glyph, era.initial, year)
    | none => some common

/-- The fields of a date, the day on which it falls and a millisecond of that day. -/
def fieldsOf (date : Date) (day millis : Nat) (calendar : Calendar) (options : Options) :
    Option DateFields := do
  let seconds ← (millis / 1000 : U32).value?
  let hour ← (seconds / 3600 : U32).value?
  let minute ← (seconds % 3600 / 60 : U32).value?
  let second ← (seconds % 60 : U32).value?
  let millisecond ← (millis % 1000 : U32).value?
  let hour12 ← twelveHour hour
  let weekday ← weekday options.dateSystem day
  let weekdayShort ← entry options.locale.weekdaysShort weekday
  let weekdayLong ← entry options.locale.weekdaysLong weekday
  let monthShort ← entry options.locale.monthsShort date.month
  let monthLong ← entry options.locale.monthsLong date.month
  let (eraName, eraGlyph, eraInitial, eraYear) ← eraFields calendar date
  let elapsed ← (day * 86400 + seconds : I64).value?
  let elapsedHours ← (elapsed / 3600 : I64).value?
  let elapsedMinutes ← (elapsed / 60 : I64).value?
  return {
    year := date.year
    month := date.month
    day := date.day
    hour24 := hour
    hour12
    minute
    second
    millisecond
    halfDay := if 12 ≤ hour then options.locale.pm else options.locale.am
    eraName
    eraGlyph
    eraInitial
    eraYear
    weekday
    weekdayShort
    weekdayLong
    monthShort
    monthLong
    elapsedHours := elapsedHours.toNat
    elapsedMinutes := elapsedMinutes.toNat
    elapsedSeconds := elapsed.toNat }

def ofSerial (serial : Binary64) (calendar : Calendar) (options : Options) :
    Option (Except SerialError DateFields) := do
  match ← split? serial with
  | none => return .error (.invalid serial)
  | some (day, millis) =>
    match ← date? options.dateSystem day with
    | none => return .error (.outOfRange serial)
    | some date => return .ok (← fieldsOf date day millis calendar options)

end CellDisplay.Checked
