import CellDisplay.Binary64.Basic
import CellDisplay.Calendar.Date

/-! # Serial numbers

A serial number counts days from the start of a date system, with the time as a fraction of
a day. The 1900 system takes 1900 for a leap year: its day 60 is the 29th of February, which
no calendar has, so that later days stand one apart from the true count.
-/

namespace CellDisplay

/-- The two date systems, named for the year in which they start. -/
inductive DateSystem where
  | from1900
  | from1904
  deriving Repr, DecidableEq

namespace DateSystem

def epochYear : DateSystem → Int
  | from1900 => 1900
  | from1904 => 1904

/-- The day that the 1900 system inserts. -/
def phantomDay : Date := ⟨1900, 2, 29⟩

def lastYear : Int := 9999

/-- The date on which a day of the system falls, in whatever year. -/
def dateOf (system : DateSystem) (day : Nat) : Date :=
  match system with
  | from1900 =>
    if day = 60 then phantomDay
    else Date.ofDays (Date.toDays ⟨1899, 12, if day < 60 then 31 else 30⟩ + day)
  | from1904 => Date.ofDays (Date.toDays ⟨1904, 1, 1⟩ + day)

/-- The date of a day of the system, if its year is not past the last one. -/
def date? (system : DateSystem) (day : Nat) : Option Date :=
  if (system.dateOf day).year ≤ lastYear then some (system.dateOf day) else none

/-- The day of the system on which a date falls. -/
def dayOf (system : DateSystem) (date : Date) : Int :=
  match system with
  | from1900 =>
    if date = phantomDay then 60
    else
      let day := date.toDays - Date.toDays ⟨1899, 12, 31⟩
      if day < 60 then day else day + 1
  | from1904 => date.toDays - Date.toDays ⟨1904, 1, 1⟩

/-- The weekday of a day of the system, from 1 for Sunday to 7 for Saturday. -/
def weekday (system : DateSystem) (day : Nat) : Nat :=
  match system with
  | from1900 => (day + 6) % 7 + 1
  | from1904 => (day + 5) % 7 + 1

end DateSystem

/-- The hours, minutes and seconds of a time of day. -/
structure TimeOfDay where
  hour : Nat
  minute : Nat
  second : Nat
  deriving Repr, DecidableEq

def TimeOfDay.ofSeconds (seconds : Nat) : TimeOfDay :=
  ⟨seconds / 3600, seconds % 3600 / 60, seconds % 60⟩

def TimeOfDay.toSeconds (time : TimeOfDay) : Nat :=
  (time.hour * 60 + time.minute) * 60 + time.second

namespace Serial

def millisPerDay : Nat := 86400000

/-- The greatest count of milliseconds that is kept exactly. -/
def maxMillis : Nat := 2 ^ 63 - 1

/-- The days and the milliseconds of the day, from the nearest whole millisecond; none for a
negative or infinite serial, or one whose milliseconds number more than `2 ^ 63`. -/
def split? (serial : Binary64) : Option (Nat × Nat) :=
  if serial.isNegative && !serial.isZero then none
  else
    match (serial * Binary64.ofInt millisPerDay).roundedMagnitude? with
    | none => none
    | some total =>
      if total ≤ maxMillis + 1 then
        let total := min total maxMillis
        some (total / millisPerDay, total % millisPerDay)
      else none

/-- The date of a serial. -/
def date? (serial : Binary64) (system : DateSystem) : Option Date :=
  (split? serial).bind fun (day, _) => system.date? day

/-- The time of a serial to the nearest second, by its fraction alone. -/
def time (serial : Binary64) : TimeOfDay :=
  let seconds := ((serial.fraction * Binary64.ofInt 86400).roundedMagnitude?).getD 0
  { TimeOfDay.ofSeconds seconds with hour := seconds / 3600 % 24 }

/-- The weekday of a serial; one that cannot be split counts as day 0. -/
def weekday (serial : Binary64) (system : DateSystem) : Nat :=
  system.weekday (((split? serial).map Prod.fst).getD 0)

def ofDate (date : Date) (system : DateSystem) : Binary64 := Binary64.ofInt (system.dayOf date)

/-- The serial in the 1900 system of a date and a time, to the whole millisecond. The
nanoseconds of a leap second reach beyond those of other seconds. -/
def ofDateTime (date : Date) (time : TimeOfDay) (nanosecond : Nat) : Binary64 :=
  ofDate date .from1900 +
    Binary64.ofRatio (time.toSeconds * 1000 + nanosecond / 1000000) millisPerDay

end Serial

end CellDisplay
