import CellDisplay.DateCode.Classify
import CellDisplay.DateCode.Segment
import CellDisplay.DateCode.Token
import CellDisplay.Locale

/-! # Replacing the tokens of a date code

The markers for the halves of the day are cut out first, and English names of months and
weekdays are kept as they are written. Then the tokens are replaced in stages: those of one
stage are found together, longer ones first, and two letters for minutes are found before
the single letter for the month. A spelled month or weekday turns off the single letter for
the month or the day.
-/

namespace CellDisplay.DateCode

/-- The tokens in the order in which they are found, one list for each stage. -/
def stages (month day : Bool) : List (List Token) :=
  [[.year, .shortYear],
    [.eraNamePaddedYear, .eraNameYear, .eraGlyphYear, .eraName, .eraInitialYear, .eraGlyph,
      .paddedEraYear, .eraYear],
    [.monthInitial, .monthLong, .monthShort],
    [.minute],
    if month then [.month] else [],
    [.weekdayLong, .weekdayShort],
    [.paddedDay],
    if day then [.day] else [],
    [.kanjiWeekdayLong, .kanjiWeekdayShort],
    [.hourPaddedMinute, .hourMinute],
    [.paddedHour, .hour],
    [.second]]

def elapsedTotal (fields : DateFields) : FormatCode.ElapsedUnit → Nat
  | .hours => fields.elapsedHours
  | .minutes => fields.elapsedMinutes
  | .seconds => fields.elapsedSeconds

def ofPiece (fields : DateFields) : FormatCode.Piece → Segment
  | .code text => .pending text
  | .literal text => .settled text
  | .elapsed unit width => .settled (Text.padded width (elapsedTotal fields unit))

def cutMarkers (segments : List Segment) : List Segment :=
  Segment.splitAll id halfDayMarkers
    (fun marker written =>
      if marker = "AM/PM".toList then .marker .halfDay
      else .marker (.initial (written.head? = some 'a')))
    segments

/-- Settles the listed names as they are written. -/
def keepNames (names : List Text) (segments : List Segment) : List Segment :=
  Segment.splitAll id names (fun _ written => .settled written) segments

/-- One of the names occurs in the text. -/
def spells (names : List Text) (t : Text) : Bool := names.any (Text.contains · t)

def hasMarker (segments : List Segment) : Bool :=
  segments.any fun
    | .marker _ => true
    | _ => false

/-- The clock of a code: a leading locale tag or a marker asks for twelve hours. -/
def clockOf (code : Text) (segments : List Segment) : Clock :=
  if "[$-".toList.isPrefixOf code || hasMarker segments then .twelve else .twentyFour

def replaceStage (clock : Clock) (fields : DateFields) (segments : List Segment)
    (tokens : List Token) : List Segment :=
  Segment.splitAll Token.spelling tokens (fun token _ => .settled (token.value clock fields))
    segments

/-- The text of a date under the pieces of a format code. -/
def substitute (pieces : List FormatCode.Piece) (code : Text) (fields : DateFields) : Text :=
  let text := FormatCode.codeText pieces
  let marked := cutMarkers (pieces.map (ofPiece fields))
  let clock := clockOf code marked
  let named := keepNames englishWeekdays.toList (keepNames englishMonths.toList marked)
  let month := !spells englishMonths.toList text
  let day := !spells englishWeekdays.toList text
  ((stages month day).foldl (replaceStage clock fields) named).flatMap (Segment.text fields)

end CellDisplay.DateCode
