import CellDisplay.Checked.Calendar
import CellDisplay.Checked.Text
import CellDisplay.DateCode.Route

/-! # Date codes by checked operations

The route of a format, the layouts and the replacement of tokens, where texts are cut by byte
offsets, tables are read within bounds, and a width of padded text has to fit into 16 bits.
-/

namespace CellDisplay.Checked

open DateCode

section Classify

/-- The code text of the pieces without the markers for the halves of the day. -/
def unmarkedText (pieces : List FormatCode.Piece) : Option Text :=
  halfDayMarkers.foldlM (fun t marker => replace marker [] t) (FormatCode.codeText pieces)

def isDateCode (pieces : List FormatCode.Piece) : Option Bool :=
  if FormatCode.hasElapsed pieces then some true
  else (unmarkedText pieces).map fun t => t.all isDateChar && t.any isTokenLetter

def hasDateLetter (pieces : List FormatCode.Piece) : Option Bool :=
  (replace "General".toList [] (FormatCode.codeText pieces)).map
    (·.any (·.toLower ∈ "ymdhs".toList))

/-- How a date is rendered, where an old code is given by its position in the table. -/
inductive DateRoute where
  | legacy (position : Nat)
  | builtin (index : Nat)
  | substitute

def DateRoute.ofRoute : Route → DateRoute
  | .legacy place => legacy place
  | .builtin index => builtin index
  | .substitute => substitute

/-- The route of a custom code, if it is a date code. -/
def customRoute? (code : Text) : Option (Option DateRoute) := do
  let pieces ← pieces code
  let isDate ← isDateCode pieces
  let looksLikeDate ← (if hasLegacyShape code then hasDateLetter pieces else some false)
  return if isDate || looksLikeDate then some .substitute else none

def route? (format : ResolvedFormat) : Option (Option DateRoute) :=
  match legacyCodes.findFinIdx? fun code => code.toList = format.code with
  | some place => some (some (.legacy place))
  | none =>
    if isDateIndex format.index then some (some (.builtin format.index))
    else if isDateIndex format.givenIndex then some (some (.builtin format.givenIndex))
    else customRoute? format.code

end Classify

section Substitution

variable {α : Type}

/-- A width of padded text, or a precision of a number. -/
abbrev Width := Unsigned (2 ^ 16)

/-- A number in decimal, with at least the given number of digits. -/
def padded (width n : Nat) : Option Text := do
  let width ← (width : Width).value?
  return Text.padded width n

def ofPiece (fields : DateFields) : FormatCode.Piece → Option Segment
  | .code text => some (.pending text)
  | .literal text => some (.settled text)
  | .elapsed unit width => (padded width (elapsedTotal fields unit)).map .settled

/-- Makes a segment of a run of a pending segment. -/
def segmentOf (make : α → Text → Option Segment) : Text.Run α → Option Segment
  | .plain t => some (.pending t)
  | .word word written => make word written

def split (spelling : α → Text) (words : List α) (make : α → Text → Option Segment) :
    Segment → Option (List Segment)
  | .pending t => do (← cut spelling words t).mapM (segmentOf make)
  | segment => some [segment]

def splitAll (spelling : α → Text) (words : List α) (make : α → Text → Option Segment)
    (segments : List Segment) : Option (List Segment) :=
  (segments.mapM (split spelling words make)).map List.flatten

def cutMarkers (segments : List Segment) : Option (List Segment) :=
  splitAll id halfDayMarkers
    (fun marker written =>
      if marker = "AM/PM".toList then some (.marker .halfDay)
      else some (.marker (.initial (written.head? = some 'a'))))
    segments

def keepNames (names : List Text) (segments : List Segment) : Option (List Segment) :=
  splitAll id names (fun _ written => some (.settled written)) segments

/-- One of the names occurs in the text. -/
def spells (names : List Text) (t : Text) : Option Bool := names.anyM (contains · t)

/-- The text that a token stands for; Japanese weekdays are read from a table. -/
def tokenValue (clock : Clock) (weekday : Nat) (fields : DateFields) : Token → Option Text
  | .kanjiWeekdayLong => kanjiWeekdaysLong[weekday]?
  | .kanjiWeekdayShort => kanjiWeekdaysShort[weekday]?
  | token => some (token.value clock fields)

def replaceStage (clock : Clock) (weekday : Nat) (fields : DateFields) (segments : List Segment)
    (tokens : List Token) : Option (List Segment) :=
  splitAll Token.spelling tokens
    (fun token _ => (tokenValue clock weekday fields token).map .settled) segments

/-- The text of a date under the pieces of a format code. -/
def substitute (pieces : List FormatCode.Piece) (code : Text) (fields : DateFields) :
    Option Text := do
  let text := FormatCode.codeText pieces
  let marked ← cutMarkers (← pieces.mapM (ofPiece fields))
  let clock := clockOf code marked
  let named ← keepNames englishWeekdays.toList (← keepNames englishMonths.toList marked)
  let monthSpelled ← spells englishMonths.toList text
  let daySpelled ← spells englishWeekdays.toList text
  let weekday ← (fields.weekday - 1 : U32).value?
  let replaced ← (stages (!monthSpelled) (!daySpelled)).foldlM (replaceStage clock weekday fields)
    named
  return replaced.flatMap (Segment.text fields)

end Substitution

section Layouts

/-- The tenths of a second since the hour, of which a half goes up. -/
def tenths (fields : DateFields) : Option Nat := do
  let seconds ← (fields.minute * 60 + fields.second : U32).value?
  ((seconds * 1000 + fields.millisecond + 50) / 100 : U64).value?

def minutesToTenths (fields : DateFields) : Option Text := do
  let tenths ← tenths fields
  let minute ← (tenths / 600 % 60 : U64).value?
  let second ← (tenths / 10 % 60 : U64).value?
  let tenth ← (tenths % 10 : U64).value?
  return Text.padded 2 minute ++ ':' :: Text.padded 2 second ++ '.' :: Text.decimal tenth

/-- The layout of a built-in index. Only tenths of a second are computed for it. -/
def builtinText (index : Nat) (fields : DateFields) : Option Text :=
  if index = 47 then minutesToTenths fields else some (DateCode.builtinText index fields)

end Layouts

/-- Renders the fields of a serial. -/
def renderFields (serial : Binary64) (calendar : Calendar) (options : Options)
    (render : DateFields → Option Text) : Option (Except SerialError Text) := do
  match ← ofSerial serial calendar options with
  | .ok fields => (render fields).map .ok
  | .error error => return .error error

def renderDate (serial : Binary64) (format : ResolvedFormat) (route : DateRoute)
    (options : Options) : Option (Except SerialError Text) :=
  match route with
  | .legacy position => do
    let code ← legacyCodes[position]?
    renderFields serial .gregorian (taggedOptions code.toList options)
      fun fields => some (legacyText position fields)
  | .builtin index =>
    renderFields serial (builtinCalendar index) options (builtinText index)
  | .substitute => do
    let pieces ← pieces format.code
    renderFields serial (calendarOf pieces) (taggedOptions format.code options)
      (substitute pieces format.code)

end CellDisplay.Checked
