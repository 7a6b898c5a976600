import CellDisplay.DateCode.Route
import CellDisplay.Proofs.Calendar.DateFields
import CellDisplay.Proofs.DateCode.Substitution

/-! # Layouts and the codes that spell them

A date code comes down to a clock and a list of parts, which do not depend on the date: characters,
tokens, markers and elapsed times. The text of a fixed layout is put together from fields of the
date, without tokens. It is shown by the parts of the code that spells the layout, in every year
that is not negative.
-/

namespace CellDisplay.DateCode

open FormatCode

/-- What is shown at one place of a date code. -/
inductive Part where
  | char (c : Char)
  | token (token : Token)
  | marker (marker : Marker)
  | elapsed (unit : ElapsedUnit) (width : Nat)
  deriving Repr, DecidableEq

namespace Part

def value (clock : Clock) (fields : DateFields) : Part → Text
  | char c => [c]
  | token t => t.value clock fields
  | marker m => m.value fields
  | elapsed unit width => Text.padded width (elapsedTotal fields unit)

instance : Coe Char Part := ⟨char⟩

instance : Coe Token Part := ⟨token⟩

end Part

section Parts

def textParts (t : Text) : List Part := t.map .char

/-- A token with an hour and a padded minute is shown as three parts. -/
def tokenParts : Token → List Part
  | .hourPaddedMinute => [.token .hour, .char ':', .token .minute]
  | t => [.token t]

/-- The parts of code without markers and names. -/
def scannedParts (day : Bool) (t : Text) : List Part :=
  (Text.cut (Text.longestAt Token.spelling (scanTokens day)) t).flatMap fun
    | .plain s => textParts s
    | .word token _ => tokenParts token

/-- The parts of code in which the names of weekdays are kept as they are written. -/
def partsBetweenNames (day : Bool) (t : Text) : List Part :=
  (Text.cut (Text.wordAt id englishWeekdays.toList) t).flatMap fun
    | .plain s => scannedParts day s
    | .word _ written => textParts written

def markerPart (marker written : Text) : Part :=
  .marker (if marker = "AM/PM".toList then .halfDay else .initial (written.head? = some 'a'))

def pieceParts (day : Bool) : Piece → List Part
  | .code t =>
    (Text.cut (Text.wordAt id halfDayMarkers) t).flatMap fun
      | .plain s => partsBetweenNames day s
      | .word marker written => [markerPart marker written]
  | .literal t => textParts t
  | .elapsed unit width => [.elapsed unit width]

/-- The parts of a code in which no month is spelled. -/
def codeParts (pieces : List Piece) : List Part :=
  pieces.flatMap (pieceParts !spells englishWeekdays.toList (codeText pieces))

variable {clock : Clock} {fields : DateFields} {day : Bool}

theorem flatMap_value_textParts (t : Text) :
    (textParts t).flatMap (Part.value clock fields) = t := by
  rw [textParts, List.flatMap_map]
  exact List.flatMap_singleton' t

theorem flatMap_value_tokenParts (token : Token) :
    (tokenParts token).flatMap (Part.value clock fields) = token.value clock fields := by
  cases token <;> simp [tokenParts, Part.value, Token.value]

theorem flatMap_value_scannedParts (t : Text) :
    (scannedParts day t).flatMap (Part.value clock fields) = scanned clock day fields t := by
  rw [scannedParts, scanned, Text.scan_eq_flatMap_cut, List.flatMap_assoc]
  refine List.flatMap_congr fun run _ => ?_
  cases run with
  | plain s => exact flatMap_value_textParts s
  | word token written => exact flatMap_value_tokenParts token

theorem flatMap_value_partsBetweenNames (t : Text) :
    (partsBetweenNames day t).flatMap (Part.value clock fields) =
      scannedBetweenNames clock day fields t := by
  rw [partsBetweenNames, scannedBetweenNames, List.flatMap_assoc]
  refine List.flatMap_congr fun run _ => ?_
  cases run with
  | plain s => exact flatMap_value_scannedParts s
  | word name written => exact flatMap_value_textParts written

theorem value_markerPart (marker written : Text) :
    (markerPart marker written).value clock fields = markerText fields marker written := by
  rw [markerPart, markerText, Part.value]
  split <;> rfl

theorem flatMap_value_pieceParts (piece : Piece) :
    (pieceParts day piece).flatMap (Part.value clock fields) =
      pieceText clock day fields piece := by
  cases piece with
  | literal t => exact flatMap_value_textParts t
  | elapsed unit width => exact List.flatMap_singleton _ _
  | code t =>
    rw [pieceParts, pieceText, List.flatMap_assoc]
    refine List.flatMap_congr fun run _ => ?_
    cases run with
    | plain s => exact flatMap_value_partsBetweenNames s
    | word marker written => simp [value_markerPart]

theorem flatMap_value_codeParts (pieces : List Piece) :
    (codeParts pieces).flatMap (Part.value clock fields) =
      pieces.flatMap
        (pieceText clock (!spells englishWeekdays.toList (codeText pieces)) fields) := by
  rw [codeParts, List.flatMap_assoc]
  exact List.flatMap_congr fun piece _ => flatMap_value_pieceParts piece

end Parts

/-- What a date code comes down to: the clock on which hours are shown, and the parts. -/
structure Outline where
  clock : Clock
  parts : List Part
  deriving Repr, DecidableEq

namespace Outline

def ofCode (code : Text) : Outline :=
  ⟨clockOfPieces code (FormatCode.pieces code), codeParts (FormatCode.pieces code)⟩

def text (outline : Outline) (fields : DateFields) : Text :=
  outline.parts.flatMap (Part.value outline.clock fields)

/-- The code comes down to the outline, and spells no month. -/
structure IsSpelledBy (outline : Outline) (code : Text) : Prop where
  month : spells englishMonths.toList (codeText (FormatCode.pieces code)) = false
  eq_ofCode : outline = ofCode code

instance (outline : Outline) (code : Text) : Decidable (outline.IsSpelledBy code) :=
  decidable_of_iff
    (spells englishMonths.toList (codeText (FormatCode.pieces code)) = false ∧
      outline = ofCode code)
    ⟨fun ⟨month, eq_ofCode⟩ => ⟨month, eq_ofCode⟩, fun ⟨month, eq_ofCode⟩ => ⟨month, eq_ofCode⟩⟩

end Outline

section Substitution

variable {outline : Outline} {code : Text} {fields : DateFields} {serial : Binary64}
  {calendar : Calendar} {options : Options}

/-- Replacing the tokens of a code shows its parts. -/
theorem substitute_eq_flatMap_value (pieces : List Piece) (code : Text) (fields : DateFields)
    (h : spells englishMonths.toList (codeText pieces) = false) :
    substitute pieces code fields =
      (codeParts pieces).flatMap (Part.value (clockOfPieces code pieces) fields) := by
  rw [flatMap_value_codeParts, ← flatMap_cutMarkers h, ← flatMap_keepNames,
    ← flatMap_foldl_replaceStage, substitute, clockOf_cutMarkers, h]
  rfl

theorem Outline.IsSpelledBy.substitute_eq (h : outline.IsSpelledBy code) (fields : DateFields) :
    substitute (FormatCode.pieces code) code fields = outline.text fields := by
  rw [substitute_eq_flatMap_value _ _ _ h.month, h.eq_ofCode]
  rfl

theorem Outline.IsSpelledBy.render_substitute (h : outline.IsSpelledBy code)
    (format : ResolvedFormat) :
    render serial { format with code } .substitute options = do
      let fields ← DateFields.ofSerial serial (calendarOf (FormatCode.pieces code))
        (taggedOptions code options)
      return outline.text fields := by
  simp only [render, h.substitute_eq]

/-- Two ways to show the fields of a serial need to agree on those fields only. -/
theorem ofSerial_bind_congr {f g : DateFields → Text}
    (h : ∀ fields, DateFields.ofSerial serial calendar options = .ok fields →
      f fields = g fields) :
    (do return f (← DateFields.ofSerial serial calendar options) : Except SerialError Text) =
      do return g (← DateFields.ofSerial serial calendar options) := by
  cases hs : DateFields.ofSerial serial calendar options with
  | error error => rfl
  | ok fields =>
    change Except.ok (f fields) = Except.ok (g fields)
    rw [h fields hs]

end Substitution

section Fields

variable {fields : DateFields} {index : Nat}

/-- A token takes the year of the century from zero up, a layout takes it with the sign of the
year. -/
theorem padded_yearOfCentury (h : 0 ≤ fields.year) :
    Text.padded 2 (fields.year % 100).toNat = Text.paddedInt 2 (yearOfCentury fields) := by
  obtain ⟨year, hyear⟩ := Int.eq_ofNat_of_zero_le h
  rw [yearOfCentury, hyear]
  rfl

theorem padded_one (n : Nat) : Text.padded 1 n = Text.decimal n := by
  have h : 1 ≤ (Text.decimal n).length := Nat.length_toDigits_pos
  rw [Text.padded, Text.zeroPadded, Nat.sub_eq_zero_of_le h]
  rfl

open Token

/-- What the old codes come down to. -/
def legacyOutline (place : Nat) : Outline :=
  match place with
  | 0 | 1 =>
    ⟨.twelve, [year, '/', month, '/', day, ' ', hour, ':', minute, ' ', .marker .halfDay]⟩
  | 2 => ⟨.twentyFour, [month, '/', day]⟩
  | 3 => ⟨.twelve, [day, '-', monthShort, '-', shortYear]⟩
  | 4 => ⟨.twentyFour, [day, '/', month, '/', year]⟩
  | 5 => ⟨.twentyFour, [year, '年', month, '月', day, '日', ' ', hour, '時', minute, '分']⟩
  | 6 => ⟨.twelve, [hour, ':', minute, ':', second, ' ', .marker .halfDay]⟩
  | 7 => ⟨.twelve, [monthShort, '-', shortYear]⟩
  | _ => ⟨.twentyFour, [year, '/', month, '/', day]⟩

/-- What the Japanese codes of the date indices come down to. -/
def builtinOutline (index : Nat) : Outline :=
  match index with
  | 15 => ⟨.twentyFour, [day, '-', monthShort, '-', shortYear]⟩
  | 16 => ⟨.twentyFour, [day, '-', monthShort]⟩
  | 17 => ⟨.twentyFour, [monthShort, '-', shortYear]⟩
  | 18 => ⟨.twelve, [hour, ':', minute, ' ', .marker .halfDay]⟩
  | 19 => ⟨.twelve, [hour, ':', minute, ':', second, ' ', .marker .halfDay]⟩
  | 20 => ⟨.twentyFour, [hour, ':', minute]⟩
  | 21 => ⟨.twentyFour, [hour, ':', minute, ':', second]⟩
  | 22 => ⟨.twentyFour, [year, '/', month, '/', day, ' ', hour, ':', minute]⟩
  | 27 | 36 | 50 | 57 => ⟨.twelve, [eraInitialYear, '.', month, '.', day]⟩
  | 28 | 29 | 51 | 54 | 58 => ⟨.twelve, [eraNameYear, '年', month, '月', day, '日']⟩
  | 30 => ⟨.twentyFour, [month, '/', day, '/', shortYear]⟩
  | 31 => ⟨.twentyFour, [year, '年', month, '月', day, '日']⟩
  | 32 => ⟨.twentyFour, [hour, '時', minute, '分']⟩
  | 33 => ⟨.twentyFour, [hour, '時', minute, '分', second, '秒']⟩
  | 34 | 52 | 55 => ⟨.twentyFour, [year, '年', month, '月']⟩
  | 35 | 53 | 56 => ⟨.twentyFour, [month, '月', day, '日']⟩
  | 45 => ⟨.twentyFour, [minute, ':', second]⟩
  | 46 => ⟨.twentyFour, [.elapsed .hours 1, ':', minute, ':', second]⟩
  | 47 => ⟨.twentyFour, [minute, second, '.', '0']⟩
  | _ => ⟨.twentyFour, [year, '/', month, '/', day]⟩

theorem text_legacyOutline (place : Nat) (hyear : 0 ≤ fields.year) :
    (legacyOutline place).text fields = legacyText place fields := by
  unfold legacyOutline legacyText
  split <;> simp [Outline.text, Part.value, Token.value, Marker.value, Clock.hour,
    padded_yearOfCentury hyear]

/-- Only the code for tenths of a second comes down to other parts than its layout shows. -/
theorem text_builtinOutline (hindex : index ≠ 47) (hyear : 0 ≤ fields.year)
    (hhalf : fields.halfDay = englishHalfDay fields) :
    (builtinOutline index).text fields = builtinText index fields := by
  revert hindex
  unfold builtinOutline builtinText
  split <;> simp [Outline.text, Part.value, Token.value, Marker.value, Clock.hour, elapsedTotal,
    padded_one, padded_yearOfCentury hyear, hhalf]

end Fields

section Routes

variable {fields : DateFields} {serial : Binary64} {calendar : Calendar} {options : Options}

theorem year_nonneg_of_ofSerial (h : DateFields.ofSerial serial calendar options = .ok fields) :
    0 ≤ fields.year := by
  obtain ⟨day, millis, -, hyear⟩ := DateFields.exists_shows_of_ofSerial h
  exact Int.le_of_lt hyear

theorem halfDay_of_ofSerial (h : DateFields.ofSerial serial calendar options = .ok fields)
    (ham : options.locale.am = "AM".toList) (hpm : options.locale.pm = "PM".toList) :
    fields.halfDay = englishHalfDay fields := by
  obtain ⟨day, millis, hshows, -⟩ := DateFields.exists_shows_of_ofSerial h
  rw [hshows.halfDay_eq, ham, hpm, englishHalfDay]

theorem isSpelledBy_legacyOutline (place : Fin 8) :
    (legacyOutline place).IsSpelledBy (legacyCodes.get place).toList ∧
      calendarOf (FormatCode.pieces (legacyCodes.get place).toList) = .gregorian := by
  revert place
  decide +kernel

/-- Every built-in date index has a Japanese code, which asks for the calendar of the index and is
not tagged as English. -/
theorem isSpelledBy_builtinOutline {index : Nat} (hdate : isDateIndex index) :
    ∃ code, builtin? index .japanese = some code ∧ (builtinOutline index).IsSpelledBy code ∧
      calendarOf (FormatCode.pieces code) = builtinCalendar index ∧
      englishTag.isPrefixOf code = false := by
  have hall : ∀ index < 59, isDateIndex index →
      ∃ code ∈ builtin? index .japanese, (builtinOutline index).IsSpelledBy code ∧
        calendarOf (FormatCode.pieces code) = builtinCalendar index ∧
        englishTag.isPrefixOf code = false := by
    decide +kernel
  have hlt : index < 59 := by
    simp only [isDateIndex, List.any_cons, List.any_nil, Bool.or_false, Bool.or_eq_true,
      Bool.and_eq_true, decide_eq_true_eq] at hdate
    omega
  exact hall index hlt hdate

/-- A date has the same text, or the same error, along the layout of an old code as by replacing
the tokens of that code. -/
theorem render_legacy_eq_substitute (serial : Binary64) (format : ResolvedFormat)
    (place : Fin 8) (options : Options) :
    render serial format (.legacy place) options =
      render serial { format with code := (legacyCodes.get place).toList } .substitute
        options := by
  obtain ⟨hspelled, hcalendar⟩ := isSpelledBy_legacyOutline place
  rw [hspelled.render_substitute format, hcalendar]
  exact ofSerial_bind_congr fun fields h =>
    (text_legacyOutline place (year_nonneg_of_ofSerial h)).symm

/-- In a locale with the English halves of the day, a date has the same text, or the same error,
along the layout of a built-in index as by replacing the tokens of its Japanese code. Only the
index that shows tenths of a second stands apart. -/
theorem render_builtin_eq_substitute (serial : Binary64) (format : ResolvedFormat) (index : Nat)
    (options : Options) (hdate : isDateIndex index) (htenths : index ≠ 47)
    (ham : options.locale.am = "AM".toList) (hpm : options.locale.pm = "PM".toList) :
    ∃ code, builtin? index .japanese = some code ∧
      render serial format (.builtin index) options =
        render serial { format with code } .substitute options := by
  obtain ⟨code, hcode, hspelled, hcalendar, htag⟩ := isSpelledBy_builtinOutline hdate
  have hoptions : taggedOptions code options = options := by
    rw [taggedOptions, htag, if_neg Bool.false_ne_true]
  refine ⟨code, hcode, ?_⟩
  rw [hspelled.render_substitute format, hoptions, hcalendar]
  exact ofSerial_bind_congr fun fields h => (text_builtinOutline htenths
    (year_nonneg_of_ofSerial h) (halfDay_of_ofSerial h ham hpm)).symm

/-- The index of hours and minutes with the half of the day, in German. -/
theorem render_builtin_eq_substitute_german :
    ∃ code, builtin? 18 .japanese = some code ∧
      render (Binary64.ofRatio 1 2) ⟨18, 18, []⟩ (.builtin 18) (.ofLocale .deDE) =
        render (Binary64.ofRatio 1 2) ⟨18, 18, code⟩ .substitute (.ofLocale .deDE) :=
  render_builtin_eq_substitute (Binary64.ofRatio 1 2) ⟨18, 18, []⟩ 18 (.ofLocale .deDE)
    (by decide) (by decide) rfl rfl

end Routes

end CellDisplay.DateCode
