import CellDisplay.Calendar.DateFields

/-! # Tokens of date codes

A token is a run of letters in a date code that stands for a field of the date. Its spelling
is given in lower case and matches in either case.
-/

namespace CellDisplay.DateCode

/-- A token of a date code. -/
inductive Token where
  | year
  | shortYear
  | eraNamePaddedYear
  | eraNameYear
  | eraGlyphYear
  | eraName
  | eraInitialYear
  | eraGlyph
  | paddedEraYear
  | eraYear
  | monthInitial
  | monthLong
  | monthShort
  | minute
  | month
  | weekdayLong
  | weekdayShort
  | paddedDay
  | day
  | kanjiWeekdayLong
  | kanjiWeekdayShort
  | hourPaddedMinute
  | hourMinute
  | paddedHour
  | hour
  | second
  deriving Repr, DecidableEq

/-- The clock on which hours are shown. -/
inductive Clock where
  | twelve
  | twentyFour
  deriving Repr, DecidableEq

def Clock.hour : Clock → DateFields → Nat
  | twelve, fields => fields.hour12
  | twentyFour, fields => fields.hour24

namespace Token

def spelling : Token → Text
  | year => "yyyy".toList
  | shortYear => "yy".toList
  | eraNamePaddedYear => "gggee".toList
  | eraNameYear => "ggge".toList
  | eraGlyphYear => "gge".toList
  | eraName => "ggg".toList
  | eraInitialYear => "ge".toList
  | eraGlyph => "gg".toList
  | paddedEraYear => "ee".toList
  | eraYear => "e".toList
  | monthInitial => "mmmmm".toList
  | monthLong => "mmmm".toList
  | monthShort => "mmm".toList
  | minute => "mm".toList
  | month => "m".toList
  | weekdayLong => "dddd".toList
  | weekdayShort => "ddd".toList
  | paddedDay => "dd".toList
  | day => "d".toList
  | kanjiWeekdayLong => "aaaa".toList
  | kanjiWeekdayShort => "aaa".toList
  | hourPaddedMinute => "h:mm".toList
  | hourMinute => "h:m".toList
  | paddedHour => "hh".toList
  | hour => "h".toList
  | second => "ss".toList

/-- The text that a token stands for. -/
def value (clock : Clock) (fields : DateFields) : Token → Text
  | year => Text.ofInt fields.year
  | shortYear => Text.padded 2 (fields.year % 100).toNat
  | eraNamePaddedYear => fields.eraName ++ Text.paddedInt 2 fields.eraYear
  | eraNameYear => fields.eraName ++ Text.ofInt fields.eraYear
  | eraGlyphYear => fields.eraGlyph ++ Text.ofInt fields.eraYear
  | eraName => fields.eraName
  | eraInitialYear => fields.eraInitial ++ Text.ofInt fields.eraYear
  | eraGlyph => fields.eraGlyph
  | paddedEraYear => Text.paddedInt 2 fields.eraYear
  | eraYear => Text.ofInt fields.eraYear
  | monthInitial => fields.monthLong.take 1
  | monthLong => fields.monthLong
  | monthShort => fields.monthShort
  | minute => Text.padded 2 fields.minute
  | month => Text.decimal fields.month
  | weekdayLong => fields.weekdayLong
  | weekdayShort => fields.weekdayShort
  | paddedDay => Text.padded 2 fields.day
  | day => Text.decimal fields.day
  | kanjiWeekdayLong => Locale.nameOf kanjiWeekdaysLong fields.weekday
  | kanjiWeekdayShort => Locale.nameOf kanjiWeekdaysShort fields.weekday
  | hourPaddedMinute =>
    Text.decimal (clock.hour fields) ++ ':' :: Text.padded 2 fields.minute
  | hourMinute => Text.decimal (clock.hour fields) ++ ':' :: Text.decimal fields.minute
  | paddedHour => Text.padded 2 (clock.hour fields)
  | hour => Text.decimal (clock.hour fields)
  | second => Text.padded 2 fields.second

end Token

end CellDisplay.DateCode
