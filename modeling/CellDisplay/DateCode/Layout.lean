import CellDisplay.Calendar.DateFields

/-! # Fixed layouts of dates

Eight codes of old workbooks and the built-in date indices are shown by layouts of their own, each
of which puts fields of the date into a fixed text.
-/

namespace CellDisplay.DateCode

open Text (decimal ofInt padded paddedInt)

/-- The codes of old workbooks. -/
def legacyCodes : Vector String 8 := #v[
  "yyyy/m/d\\ h:mm\\ AM/PM",
  "[$-409]yyyy/m/d\\ h:mm\\ AM/PM;@",
  "m/d;@",
  "[$-409]d\\-mmm\\-yy;@",
  "d/m/yyyy;@",
  "yyyy\"年\"m\"月\"d\"日\"\\ h\"時\"mm\"分\";@",
  "[$-409]h:mm:ss\\ AM/PM;@",
  "[$-409]mmm\\-yy;@"]

/-- The year in its century, with the sign of the year. -/
def yearOfCentury (fields : DateFields) : Int := fields.year.tmod 100

/-- The half of the day in English, whatever the locale. -/
def englishHalfDay (fields : DateFields) : Text :=
  if 12 ≤ fields.hour24 then "PM".toList else "AM".toList

/-- The tenths of a second since the hour, of which a half goes up. -/
def tenths (fields : DateFields) : Nat :=
  ((fields.minute * 60 + fields.second) * 1000 + fields.millisecond + 50) / 100

/-- Minutes, seconds and tenths of a second. -/
def minutesToTenths (fields : DateFields) : Text :=
  padded 2 (tenths fields / 600 % 60) ++ ':' :: padded 2 (tenths fields / 10 % 60) ++
    '.' :: decimal (tenths fields % 10)

/-- The layout of an old code, by its place in the table. -/
def legacyText (place : Nat) (fields : DateFields) : Text :=
  match place with
  | 0 | 1 =>
    ofInt fields.year ++ '/' :: decimal fields.month ++ '/' :: decimal fields.day ++
      ' ' :: decimal fields.hour12 ++ ':' :: padded 2 fields.minute ++ ' ' :: fields.halfDay
  | 2 => decimal fields.month ++ '/' :: decimal fields.day
  | 3 =>
    decimal fields.day ++ '-' :: fields.monthShort ++ '-' :: paddedInt 2 (yearOfCentury fields)
  | 4 => decimal fields.day ++ '/' :: decimal fields.month ++ '/' :: ofInt fields.year
  | 5 =>
    ofInt fields.year ++ '年' :: decimal fields.month ++ '月' :: decimal fields.day ++
      '日' :: ' ' :: decimal fields.hour24 ++ '時' :: padded 2 fields.minute ++ ['分']
  | 6 =>
    decimal fields.hour12 ++ ':' :: padded 2 fields.minute ++ ':' :: padded 2 fields.second ++
      ' ' :: fields.halfDay
  | 7 => fields.monthShort ++ '-' :: paddedInt 2 (yearOfCentury fields)
  | _ => ofInt fields.year ++ '/' :: decimal fields.month ++ '/' :: decimal fields.day

/-- The layout of a built-in index; an index without one shows the date. -/
def builtinText (index : Nat) (fields : DateFields) : Text :=
  match index with
  | 15 =>
    decimal fields.day ++ '-' :: fields.monthShort ++ '-' :: paddedInt 2 (yearOfCentury fields)
  | 16 => decimal fields.day ++ '-' :: fields.monthShort
  | 17 => fields.monthShort ++ '-' :: paddedInt 2 (yearOfCentury fields)
  | 18 =>
    decimal fields.hour12 ++ ':' :: padded 2 fields.minute ++ ' ' :: englishHalfDay fields
  | 19 =>
    decimal fields.hour12 ++ ':' :: padded 2 fields.minute ++ ':' :: padded 2 fields.second ++
      ' ' :: englishHalfDay fields
  | 20 => decimal fields.hour24 ++ ':' :: padded 2 fields.minute
  | 21 =>
    decimal fields.hour24 ++ ':' :: padded 2 fields.minute ++ ':' :: padded 2 fields.second
  | 22 =>
    ofInt fields.year ++ '/' :: decimal fields.month ++ '/' :: decimal fields.day ++
      ' ' :: decimal fields.hour24 ++ ':' :: padded 2 fields.minute
  | 27 | 36 | 50 | 57 =>
    fields.eraInitial ++ ofInt fields.eraYear ++ '.' :: decimal fields.month ++
      '.' :: decimal fields.day
  | 28 | 29 | 51 | 54 | 58 =>
    fields.eraName ++ ofInt fields.eraYear ++ '年' :: decimal fields.month ++
      '月' :: decimal fields.day ++ ['日']
  | 30 =>
    decimal fields.month ++ '/' :: decimal fields.day ++ '/' :: paddedInt 2 (yearOfCentury fields)
  | 31 =>
    ofInt fields.year ++ '年' :: decimal fields.month ++ '月' :: decimal fields.day ++ ['日']
  | 32 => decimal fields.hour24 ++ '時' :: padded 2 fields.minute ++ ['分']
  | 33 =>
    decimal fields.hour24 ++ '時' :: padded 2 fields.minute ++ '分' :: padded 2 fields.second ++
      ['秒']
  | 34 | 52 | 55 => ofInt fields.year ++ '年' :: decimal fields.month ++ ['月']
  | 35 | 53 | 56 => decimal fields.month ++ '月' :: decimal fields.day ++ ['日']
  | 45 => padded 2 fields.minute ++ ':' :: padded 2 fields.second
  | 46 =>
    decimal fields.elapsedHours ++ ':' :: padded 2 fields.minute ++ ':' :: padded 2 fields.second
  | 47 => minutesToTenths fields
  | _ => ofInt fields.year ++ '/' :: decimal fields.month ++ '/' :: decimal fields.day

/-- The calendar of a built-in index, which is imperial where its layout shows an era. -/
def builtinCalendar (index : Nat) : Calendar :=
  if index ∈ [27, 28, 29, 36, 50, 51, 54, 57, 58] then .imperial else .gregorian

end CellDisplay.DateCode
