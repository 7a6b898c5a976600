import CellDisplay.Calendar.Era
import CellDisplay.Decimal.Shortest
import CellDisplay.Locale

/-! # The fields of a date and time

One snapshot per value holds everything that a date code can show, so that all layouts agree
on the rounding, the calendar and the names of a locale.
-/

namespace CellDisplay

/-- The calendar that numbers the years of an era. -/
inductive Calendar where
  | gregorian
  | imperial
  deriving Repr, DecidableEq

/-- The values and names that a date code can show. -/
structure DateFields where
  year : Int
  month : Nat
  day : Nat
  /-- The hour from 0 to 23 -/
  hour24 : Nat
  /-- The hour from 1 to 12, which is 12 at midnight and at noon -/
  hour12 : Nat
  minute : Nat
  second : Nat
  millisecond : Nat
  /-- The text for the half of the day -/
  halfDay : Text
  eraName : Text
  eraGlyph : Text
  eraInitial : Text
  eraYear : Int
  /-- The weekday from 1 for Sunday to 7 for Saturday -/
  weekday : Nat
  weekdayShort : Text
  weekdayLong : Text
  monthShort : Text
  monthLong : Text
  /-- Whole hours since serial 0 -/
  elapsedHours : Nat
  /-- Whole minutes since serial 0 -/
  elapsedMinutes : Nat
  /-- Whole seconds since serial 0 -/
  elapsedSeconds : Nat
  deriving Repr, DecidableEq

/-- Why a serial number has no date. -/
inductive SerialError where
  | invalid (serial : Binary64)
  | outOfRange (serial : Binary64)
  deriving DecidableEq

def SerialError.message : SerialError → Text
  | invalid serial => "invalid serial number: ".toList ++ Decimal.display serial
  | outOfRange serial => "date out of range: serial number ".toList ++ Decimal.display serial

namespace DateFields

def twelveHour (hour : Nat) : Nat :=
  if hour = 0 then 12 else if hour ≤ 12 then hour else hour - 12

/-- The name, glyph, initial and year of the era of a date. -/
def eraFields (calendar : Calendar) (date : Date) : Text × Text × Text × Int :=
  let common := ("AD".toList, "AD".toList, "A".toList, date.year)
  match calendar with
  | .gregorian => common
  | .imperial =>
    match Era.of? date with
    | some era => (era.name, era.glyph, era.initial, era.yearOf date)
    | none => common

/-- The fields of a date, the day on which it falls and a millisecond of that day. -/
def ofDate (date : Date) (day millis : Nat) (calendar : Calendar) (options : Options) :
    DateFields :=
  let time := TimeOfDay.ofSeconds (millis / 1000)
  let weekday := options.dateSystem.weekday day
  let (eraName, eraGlyph, eraInitial, eraYear) := eraFields calendar date
  let elapsed := day * 86400 + millis / 1000
  let locale := options.locale
  { year := date.year
    month := date.month
    day := date.day
    hour24 := time.hour
    hour12 := twelveHour time.hour
    minute := time.minute
    second := time.second
    millisecond := millis % 1000
    halfDay := if 12 ≤ time.hour then locale.pm else locale.am
    eraName
    eraGlyph
    eraInitial
    eraYear
    weekday
    weekdayShort := Locale.nameOf locale.weekdaysShort weekday
    weekdayLong := Locale.nameOf locale.weekdaysLong weekday
    monthShort := Locale.nameOf locale.monthsShort date.month
    monthLong := Locale.nameOf locale.monthsLong date.month
    elapsedHours := elapsed / 3600
    elapsedMinutes := elapsed / 60
    elapsedSeconds := elapsed }

def ofSerial (serial : Binary64) (calendar : Calendar) (options : Options) :
    Except SerialError DateFields :=
  match Serial.split? serial with
  | none => .error (.invalid serial)
  | some (day, millis) =>
    match options.dateSystem.date? day with
    | none => .error (.outOfRange serial)
    | some date => .ok (ofDate date day millis calendar options)

end DateFields

end CellDisplay
