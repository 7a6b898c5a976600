import CellDisplay.Proofs.DateCode.Shown
import CellDisplay.Proofs.Decimal.Digits

/-! # Minutes of one letter behind hours

A single letter behind hours and a colon is found as the month before the token for hours and
minutes is looked for, so that the month is shown where that token has the minute.
-/

namespace CellDisplay.DateCode

open FormatCode

/-- Hours, a colon and a single letter of minutes in a piece of a date code. -/
structure HourMinute where
  before : List Piece
  front : Text
  hours : Text
  letter : Char
  back : Text
  after : List Piece
  hours_ne_nil : hours ≠ []
  toLower_hours : ∀ c ∈ hours, c.toLower = 'h'
  toLower_front : ∀ c ∈ front.getLast?, c.toLower ≠ 'h'
  toLower_letter : letter.toLower = 'm'
  toLower_back : ∀ c ∈ back.head?, c.toLower ≠ 'm'

/-- The text of a run of letters for hours, which are taken in pairs. -/
def hoursText (clock : Clock) (fields : DateFields) : Nat → Text
  | 0 => []
  | 1 => Text.decimal (clock.hour fields)
  | n + 2 => Text.padded 2 (clock.hour fields) ++ hoursText clock fields n

namespace HourMinute

variable (o : HourMinute)

/-- The text of the piece with the hours. -/
def text : Text := o.front ++ (o.hours ++ ':' :: o.letter :: o.back)

def pieces : List Piece := o.before ++ .code o.text :: o.after

/-- The text of the pieces with a number behind the hours. -/
def shown (clock : Clock) (fields : DateFields) (number : Nat) : Text :=
  o.before.flatMap (pieceText clock true fields) ++
    (scanned clock true fields o.front ++
      (hoursText clock fields o.hours.length ++ ':' ::
        (Text.decimal number ++ scanned clock true fields o.back)) ++
      o.after.flatMap (pieceText clock true fields))

end HourMinute

section Scan

variable {clock : Clock} {fields : DateFields} {R : Char → Char → Prop} {token : Token} {n : Nat}
  {c : Char} {s t : Text}

theorem scanned_eq (t : Text) :
    scanned clock true fields t =
      Text.scan (Text.wordAt Token.spelling (scanTokens true)) (Token.value clock fields) t := by
  rw [scanned, Text.longestAt_eq_wordAt (longerFirst_scanTokens true)]

theorem scanned_append (h : Text.Apart Token.spelling (scanTokens true) R s t) :
    scanned clock true fields (s ++ t) =
      scanned clock true fields s ++ scanned clock true fields t := by
  rw [scanned_eq, scanned_eq, scanned_eq]
  exact Text.scan_append_of_apart (fun token _ => spelling_ne_nil token) h

/-- A token is found where a text reads like one with that token up to the case of letters. -/
theorem scanned_of_lower (h : Text.lower s = Text.lower t)
    (ht : Text.wordAt Token.spelling (scanTokens true) t = some (token, n)) :
    scanned clock true fields s =
      token.value clock fields ++ scanned clock true fields (s.drop n) := by
  rw [scanned_eq, scanned_eq]
  exact Text.scan_of_some (Text.fits_wordAt fun token _ => spelling_ne_nil token)
    ((Text.wordAt_congr h).trans ht)

theorem scanned_nil : scanned clock true fields [] = [] := by
  rw [scanned_eq, Text.scan_nil]

theorem scanned_singleton (d : Char) (h : c.toLower = d.toLower)
    (hd : Text.wordAt Token.spelling (scanTokens true) [d] = some (token, 1)) :
    scanned clock true fields [c] = token.value clock fields := by
  have hlower : Text.lower [c] = Text.lower [d] := congrArg ([·]) h
  rw [scanned_of_lower hlower hd, List.drop_one, List.tail_cons, scanned_nil, List.append_nil]

theorem scanned_hours : ∀ s : Text, (∀ c ∈ s, c.toLower = 'h') →
    scanned clock true fields s = hoursText clock fields s.length
  | [], _ => scanned_nil
  | [c], h => by
    have hhour : scanned clock true fields [c] = Token.hour.value clock fields :=
      scanned_singleton 'h' (h c (List.mem_singleton_self c)) rfl
    exact hhour
  | c :: d :: s, h => by
    have hlower : Text.lower (c :: d :: s) = Text.lower ('h' :: 'h' :: s) := by
      simp [Text.lower, h c, h d]
    have hrest := scanned_hours s fun e he => h e (by simp [he])
    rw [scanned_of_lower hlower rfl]
    exact congrArg (Text.padded 2 (clock.hour fields) ++ ·) hrest

theorem scanned_colon (t : Text) :
    scanned clock true fields (':' :: t) = ':' :: scanned clock true fields t := by
  rw [scanned_eq, scanned_eq]
  exact Text.scan_of_none rfl

/-- A single letter of minutes is found as the month. -/
theorem scanned_letter {letter : Char} (hletter : letter.toLower = 'm')
    (ht : ∀ c ∈ t.head?, c.toLower ≠ 'm') :
    scanned clock true fields (letter :: t) =
      Text.decimal fields.month ++ scanned clock true fields t := by
  have hapart : Text.Apart Token.spelling (scanTokens true) (fun x y => x = 'm' → y = 'm')
      [letter] t := by
    refine ⟨by decide, ?_⟩
    rintro c ⟨⟩ d hd himp
    exact ht d hd (himp hletter)
  have hmonth : scanned clock true fields [letter] = Token.month.value clock fields :=
    scanned_singleton 'm' hletter rfl
  rw [← List.singleton_append, scanned_append hapart, hmonth]
  rfl

/-- Hours are scanned apart from what stands before them. -/
theorem scanned_front {front hours : Text} (hne : hours ≠ [])
    (hhours : ∀ c ∈ hours, c.toLower = 'h') (hfront : ∀ c ∈ front.getLast?, c.toLower ≠ 'h') :
    scanned clock true fields (front ++ (hours ++ ':' :: t)) =
      scanned clock true fields front ++
        (hoursText clock fields hours.length ++ ':' :: scanned clock true fields t) := by
  have hbefore : Text.Apart Token.spelling (scanTokens true) (fun x y => y = 'h' → x = 'h')
      front (hours ++ ':' :: t) := by
    refine ⟨by decide, ?_⟩
    intro c hc d hd himp
    rw [List.head?_append_of_ne_nil _ hne] at hd
    exact hfront c hc (himp (hhours d (List.mem_of_mem_head? hd)))
  have hbehind : Text.Apart Token.spelling (scanTokens true) (fun _ y => y ≠ ':')
      hours (':' :: t) := by
    refine ⟨by decide, ?_⟩
    rintro c - d ⟨⟩ hne
    exact hne rfl
  rw [scanned_append hbefore, scanned_append hbehind, scanned_hours hours hhours, scanned_colon]

end Scan

section Pieces

variable {clock : Clock} {fields : DateFields} {t : Text}

/-- Code without markers and names is scanned as a whole. -/
theorem pieceText_code (hmarkers : spells halfDayMarkers t = false)
    (hweekdays : spells englishWeekdays.toList t = false) :
    pieceText clock true fields (.code t) = scanned clock true fields t := by
  rw [← flatMap_value_pieceParts, pieceParts_code hmarkers hweekdays, flatMap_value_scannedParts]

namespace HourMinute

variable (o : HourMinute)

theorem scanned_text :
    scanned clock true fields o.text =
      scanned clock true fields o.front ++
        (hoursText clock fields o.hours.length ++ ':' ::
          (Text.decimal fields.month ++ scanned clock true fields o.back)) := by
  rw [text, scanned_front o.hours_ne_nil o.toLower_hours o.toLower_front,
    scanned_letter o.toLower_letter o.toLower_back]

theorem shown_inj {m n : Nat} : o.shown clock fields m = o.shown clock fields n ↔ m = n := by
  constructor
  · intro h
    have hdecimal : Text.decimal m = Text.decimal n := by simpa [shown] using h
    rw [← Text.value_decimal m, hdecimal, Text.value_decimal]
  · rintro rfl
    rfl

/-- Behind hours and a colon, a single letter of minutes is shown as the month. It reads as the
minute only if the two have the same number. -/
theorem substitute_pieces (hmarkers : spells halfDayMarkers (codeText o.pieces) = false)
    (hmonths : spells englishMonths.toList (codeText o.pieces) = false)
    (hweekdays : spells englishWeekdays.toList (codeText o.pieces) = false)
    (code : Text) (fields : DateFields) :
    substitute o.pieces code fields =
        o.shown (clockOfPieces code o.pieces) fields fields.month ∧
      (substitute o.pieces code fields =
          o.shown (clockOfPieces code o.pieces) fields fields.minute ↔
        fields.month = fields.minute) := by
  have hinfix : o.text <:+: codeText o.pieces := isInfix_codeText (by simp [pieces])
  have hnone {names : List Text} (h : spells names (codeText o.pieces) = false) :
      spells names o.text = false :=
    Bool.eq_false_iff.mpr fun hs => Bool.eq_false_iff.mp h (spells_of_isInfix hinfix hs)
  have hshown : substitute o.pieces code fields =
      o.shown (clockOfPieces code o.pieces) fields fields.month := by
    rw [substitute_eq_flatMap_value o.pieces code fields hmonths, flatMap_value_codeParts,
      hweekdays, Bool.not_false]
    generalize clockOfPieces code o.pieces = clock
    rw [pieces, List.flatMap_append, List.flatMap_cons,
      pieceText_code (hnone hmarkers) (hnone hweekdays), scanned_text, shown]
  exact ⟨hshown, by rw [hshown, shown_inj]⟩

end HourMinute

/-- Hours in capital letters behind a day, and an era behind the single letter. -/
def capitalHours : HourMinute where
  before := [.literal "at ".toList]
  front := "d ".toList
  hours := "HH".toList
  letter := 'M'
  back := " e".toList
  after := []
  hours_ne_nil := by decide
  toLower_hours := by simp
  toLower_front := by simp
  toLower_letter := by decide
  toLower_back := by simp

theorem substitute_pieces_capitalHours :
    substitute capitalHours.pieces [] afternoonFields =
      capitalHours.shown (clockOfPieces [] capitalHours.pieces) afternoonFields
        afternoonFields.month :=
  (capitalHours.substitute_pieces (by decide +kernel) (by decide +kernel) (by decide +kernel) []
    afternoonFields).1

/-- Half past one on a day in March is shown as the hour and the month. -/
theorem substitute_hourMinute_march :
    spells halfDayMarkers (codeText [.code "h:m".toList]) = false ∧
      spells englishMonths.toList (codeText [.code "h:m".toList]) = false ∧
      spells englishWeekdays.toList (codeText [.code "h:m".toList]) = false ∧
      Token.hourMinute.value .twentyFour afternoonFields = "13:30".toList ∧
      substitute [.code "h:m".toList] "h:m".toList afternoonFields = "13:3".toList := by
  decide +kernel

end Pieces

end CellDisplay.DateCode
