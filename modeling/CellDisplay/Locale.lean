import CellDisplay.Text.Blank
import CellDisplay.Calendar.Serial

/-! # Locales

A locale chooses the separators of numbers, the names of months and weekdays, the texts for
the halves of the day, and the table of built-in format codes.
-/

namespace CellDisplay

/-- The two tables of built-in format codes. -/
inductive Dialect where
  | western
  | japanese
  deriving Repr, DecidableEq

/-- The conventions of a language and region. -/
structure Locale where
  /-- The tag under which rendered texts are remembered -/
  tag : Text
  dialect : Dialect
  decimalSeparator : Char
  groupSeparator : Char
  am : Text
  pm : Text
  monthsShort : Vector Text 12
  monthsLong : Vector Text 12
  weekdaysShort : Vector Text 7
  weekdaysLong : Vector Text 7
  deriving Repr, DecidableEq

/-- The English month names. -/
def englishMonths : Vector Text 12 := #v["January".toList, "February".toList, "March".toList,
  "April".toList, "May".toList, "June".toList, "July".toList, "August".toList,
  "September".toList, "October".toList, "November".toList, "December".toList]

/-- The English weekday names, Sunday first. -/
def englishWeekdays : Vector Text 7 := #v["Sunday".toList, "Monday".toList,
  "Tuesday".toList, "Wednesday".toList, "Thursday".toList, "Friday".toList,
  "Saturday".toList]

/-- The glyphs of the Japanese weekdays, Sunday first. -/
def kanjiWeekdaysShort : Vector Text 7 := #v["日".toList, "月".toList, "火".toList,
  "水".toList, "木".toList, "金".toList, "土".toList]

/-- The Japanese weekday names, Sunday first. -/
def kanjiWeekdaysLong : Vector Text 7 := kanjiWeekdaysShort.map (· ++ "曜日".toList)

namespace Locale

/-- The entry of a table for a number counted from one; other numbers have an empty name. -/
def nameOf {n : Nat} (names : Vector Text n) (number : Nat) : Text :=
  if number = 0 then [] else names[number - 1]?.getD []

/-- US English. -/
def enUS : Locale where
  tag := "en-US".toList
  dialect := .western
  decimalSeparator := '.'
  groupSeparator := ','
  am := "AM".toList
  pm := "PM".toList
  monthsShort := englishMonths.map (·.take 3)
  monthsLong := englishMonths
  weekdaysShort := englishWeekdays.map (·.take 3)
  weekdaysLong := englishWeekdays

/-- Japanese, with English abbreviations of the months. -/
def jaJP : Locale where
  tag := "ja-JP".toList
  dialect := .japanese
  decimalSeparator := '.'
  groupSeparator := ','
  am := "午前".toList
  pm := "午後".toList
  monthsShort := englishMonths.map (·.take 3)
  monthsLong := #v["1月".toList, "2月".toList, "3月".toList, "4月".toList, "5月".toList,
    "6月".toList, "7月".toList, "8月".toList, "9月".toList, "10月".toList, "11月".toList,
    "12月".toList]
  weekdaysShort := kanjiWeekdaysShort
  weekdaysLong := kanjiWeekdaysLong

/-- German, with the roles of point and comma exchanged. -/
def deDE : Locale where
  tag := "de-DE".toList
  dialect := .western
  decimalSeparator := ','
  groupSeparator := '.'
  am := "AM".toList
  pm := "PM".toList
  monthsShort := #v["Jan".toList, "Feb".toList, "Mär".toList, "Apr".toList, "Mai".toList,
    "Jun".toList, "Jul".toList, "Aug".toList, "Sep".toList, "Okt".toList, "Nov".toList,
    "Dez".toList]
  monthsLong := #v["Januar".toList, "Februar".toList, "März".toList, "April".toList,
    "Mai".toList, "Juni".toList, "Juli".toList, "August".toList, "September".toList,
    "Oktober".toList, "November".toList, "Dezember".toList]
  weekdaysShort := #v["So".toList, "Mo".toList, "Di".toList, "Mi".toList, "Do".toList,
    "Fr".toList, "Sa".toList]
  weekdaysLong := #v["Sonntag".toList, "Montag".toList, "Dienstag".toList,
    "Mittwoch".toList, "Donnerstag".toList, "Freitag".toList, "Samstag".toList]

/-- A tag in the form in which tags are compared: trimmed, with hyphens, in lower case. -/
def normalTag (tag : Text) : Text :=
  (Text.trim tag).map fun c => if c = '_' then '-' else c.toLower

/-- The locale of a tag. A language alone stands for its region, and Japanese for any region. -/
def ofTag? (tag : Text) : Option Locale :=
  let tag := normalTag tag
  if tag ∈ ["en-us".toList, "en".toList] then some enUS
  else if tag ∈ ["de-de".toList, "de".toList] then some deDE
  else if tag.takeWhile (· ≠ '-') = "ja".toList then some jaJP
  else none

end Locale

/-- What a text is rendered for, besides the cell and its format. -/
structure Options where
  dateSystem : DateSystem
  locale : Locale
  deriving Repr, DecidableEq

/-- The 1900 date system in a locale. -/
def Options.ofLocale (locale : Locale) : Options := ⟨.from1900, locale⟩

end CellDisplay
