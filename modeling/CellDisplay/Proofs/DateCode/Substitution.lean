import CellDisplay.DateCode.Substitution
import CellDisplay.Proofs.Text.Scan

/-! # The text of a date as one scan

Each piece of a date code can be rendered on its own. Its code is cut at the markers for the
halves of the day and at the names of weekdays, and what is left is scanned once for the longest
token at each place, so that no text that is shown is searched again.
-/

namespace CellDisplay.DateCode

open FormatCode

/-- The tokens that a scan looks for, the single letter for the day only if it is asked for. -/
def scanTokens (day : Bool) : List Token :=
  [.year, .shortYear, .eraNamePaddedYear, .eraNameYear, .eraGlyphYear, .eraName, .eraInitialYear,
    .eraGlyph, .paddedEraYear, .eraYear, .monthInitial, .monthLong, .monthShort, .minute, .month,
    .weekdayLong, .weekdayShort, .paddedDay] ++ (if day then [.day] else []) ++
    [.kanjiWeekdayLong, .kanjiWeekdayShort, .paddedHour, .hour, .second]

section Spec

variable (clock : Clock) (day : Bool) (fields : DateFields)

/-- The text in which the longest token at each place is replaced by its value. -/
def scanned (t : Text) : Text :=
  Text.scan (Text.longestAt Token.spelling (scanTokens day)) (Token.value clock fields) t

/-- The scanned text in which the names of weekdays are kept as they are written. -/
def scannedBetweenNames (t : Text) : Text :=
  (Text.cut (Text.wordAt id englishWeekdays.toList) t).flatMap fun
    | .plain s => scanned clock day fields s
    | .word _ written => written

/-- The text that a marker stands for, as it is written. -/
def markerText (marker written : Text) : Text :=
  if marker = "AM/PM".toList then Marker.halfDay.value fields
  else (Marker.initial (written.head? = some 'a')).value fields

/-- The text of a piece. -/
def pieceText : Piece → Text
  | .code t =>
    (Text.cut (Text.wordAt id halfDayMarkers) t).flatMap fun
      | .plain s => scannedBetweenNames clock day fields s
      | .word marker written => markerText fields marker written
  | .literal t => t
  | .elapsed unit width => Text.padded width (elapsedTotal fields unit)

/-- The piece is code with a marker for the halves of the day. -/
def marksHalfDay : Piece → Bool
  | .code t => spells halfDayMarkers t
  | _ => false

/-- The clock of a code: a leading locale tag or a marker asks for twelve hours. -/
def clockOfPieces (code : Text) (pieces : List Piece) : Clock :=
  if "[$-".toList.isPrefixOf code || pieces.any marksHalfDay then .twelve else .twentyFour

end Spec

section Stages

def stagesBeforeMonth : List (List Token) :=
  [[.year, .shortYear],
    [.eraNamePaddedYear, .eraNameYear, .eraGlyphYear, .eraName, .eraInitialYear, .eraGlyph,
      .paddedEraYear, .eraYear],
    [.monthInitial, .monthLong, .monthShort],
    [.minute]]

def dayStages (day : Bool) : List (List Token) :=
  [[.weekdayLong, .weekdayShort], [.paddedDay], if day then [.day] else [],
    [.kanjiWeekdayLong, .kanjiWeekdayShort]]

/-- The stages without the one for minutes that follow hours. -/
def liveStages (day : Bool) : List (List Token) :=
  stagesBeforeMonth ++ [.month] :: (dayStages day ++ [[.paddedHour, .hour], [.second]])

theorem spelling_ne_nil (token : Token) : token.spelling ≠ [] := by
  cases token <;> decide

theorem flatten_liveStages (day : Bool) : (liveStages day).flatten = scanTokens day := by
  cases day <;> rfl

theorem longerFirst_scanTokens (day : Bool) :
    Text.LongerFirst Token.spelling (scanTokens day) := by
  cases day <;> decide +kernel

theorem shields_liveStages (day : Bool) :
    (liveStages day).Pairwise (Text.Shields Token.spelling) := by
  cases day
  · decide +kernel
  · decide +kernel

theorem stages_eq (day : Bool) :
    stages true day = stagesBeforeMonth ++ [.month] ::
      (dayStages day ++ [.hourPaddedMinute, .hourMinute] :: [[.paddedHour, .hour], [.second]]) :=
  rfl

/-- No letter for minutes is left when minutes are looked for behind hours. -/
theorem staged_stages (value : Token → Text) (day : Bool) (t : Text) :
    Text.staged Token.spelling value (stages true day) t =
      Text.staged Token.spelling value (liveStages day) t := by
  rw [stages_eq]
  exact Text.staged_drop_stage (fun _ _ token _ => spelling_ne_nil token) (by decide) t

/-- The stages find the longest token at each place. -/
theorem staged_eq_scanned (clock : Clock) (day : Bool) (fields : DateFields) (t : Text) :
    Text.staged Token.spelling (Token.value clock fields) (stages true day) t =
      scanned clock day fields t := by
  rw [staged_stages, Text.staged_eq_scan (fun token _ => spelling_ne_nil token)
    (shields_liveStages day), flatten_liveStages, scanned,
    Text.longestAt_eq_wordAt (longerFirst_scanTokens day)]

end Stages

section Segments

variable {α : Type} {spelling : α → Text} {words : List α} {make : α → Text → Segment}
  {clock : Clock} {fields : DateFields} {segment : Segment} {segments : List Segment} {s : Text}

def stagedText (clock : Clock) (fields : DateFields) (stages : List (List Token)) :
    Segment → Text
  | .pending t => Text.staged Token.spelling (Token.value clock fields) stages t
  | segment => segment.text fields

theorem flatMap_splitAll {β : Type} (g : Segment → List β) :
    (Segment.splitAll spelling words make segments).flatMap g =
      segments.flatMap fun segment => (segment.split spelling words make).flatMap g :=
  List.flatMap_assoc

theorem flatMap_split_pending {β : Type} (g : Segment → List β) (t : Text) :
    (Segment.split spelling words make (.pending t)).flatMap g =
      (Text.cut (Text.wordAt spelling words) t).flatMap fun
        | .plain s => g (.pending s)
        | .word found written => g (make found written) := by
  rw [Segment.split, List.flatMap_map]
  refine List.flatMap_congr fun run _ => ?_
  cases run <;> rfl

/-- A pending segment of a split lies between the words of a pending one, or is made of a word. -/
theorem pending_mem_split_iff :
    .pending s ∈ segment.split spelling words make ↔
      ∃ t, segment = .pending t ∧ (.plain s ∈ Text.cut (Text.wordAt spelling words) t ∨
        ∃ found written, .word found written ∈ Text.cut (Text.wordAt spelling words) t ∧
          make found written = .pending s) := by
  cases segment with
  | settled t => simp [Segment.split]
  | marker m => simp [Segment.split]
  | pending t =>
    simp only [Segment.split, List.mem_map, Segment.pending.injEq, exists_eq_left']
    constructor
    · rintro ⟨run, hrun, hs⟩
      cases run with
      | plain u =>
        obtain rfl : u = s := Segment.pending.inj hs
        exact .inl hrun
      | word found written => exact .inr ⟨found, written, hrun, hs⟩
    · rintro (hrun | ⟨found, written, hrun, hs⟩)
      · exact ⟨.plain s, hrun, rfl⟩
      · exact ⟨.word found written, hrun, hs⟩

/-- Replacing tokens in stages goes on in each segment on its own. -/
theorem flatMap_foldl_replaceStage (stages : List (List Token)) :
    (stages.foldl (replaceStage clock fields) segments).flatMap (Segment.text fields) =
      segments.flatMap (stagedText clock fields stages) := by
  induction stages generalizing segments with
  | nil =>
    refine List.flatMap_congr fun segment _ => ?_
    cases segment <;> rfl
  | cons tokens stages ih =>
    rw [List.foldl_cons, ih, replaceStage, flatMap_splitAll]
    refine List.flatMap_congr fun segment _ => ?_
    cases segment with
    | pending t =>
      rw [flatMap_split_pending, stagedText, Text.staged]
      refine List.flatMap_congr fun run _ => ?_
      cases run <;> rfl
    | settled t => simp [Segment.split, stagedText]
    | marker m => simp [Segment.split, stagedText]

end Segments

section Names

variable {names : List Text} {s t : Text} {pieces : List Piece}

theorem spells_iff : spells names t ↔ ∃ name ∈ names, Text.contains name t := List.any_eq_true

theorem spells_of_isInfix (h : s <:+: t) (hs : spells names s) : spells names t := by
  obtain ⟨name, hn, hc⟩ := spells_iff.mp hs
  exact spells_iff.mpr ⟨name, hn, Text.contains_of_isInfix h hc⟩

theorem spells_eq_false_of_isInfix (h : s <:+: t) (ht : spells names t = false) :
    spells names s = false :=
  Bool.eq_false_iff.mpr fun hs => Bool.eq_false_iff.mp ht (spells_of_isInfix h hs)

theorem isInfix_codeText (h : .code t ∈ pieces) : t <:+: codeText pieces := by
  obtain ⟨before, after, rfl⟩ := List.append_of_mem h
  exact ⟨codeText before, codeText after, by simp [codeText]⟩

/-- A text is cut at some name exactly if it spells one. -/
theorem exists_name_mem_cut_iff (hn : ∀ name ∈ names, id name ≠ []) :
    (∃ found written, .word found written ∈ Text.cut (Text.wordAt id names) t) ↔
      spells names t :=
  (Text.exists_word_mem_cut_iff hn).trans spells_iff.symm

theorem cut_of_not_spells (hn : ∀ name ∈ names, id name ≠ []) (h : spells names t = false)
    (ht : t ≠ []) : Text.cut (Text.wordAt id names) t = [.plain t] := by
  refine Text.cut_of_not_contains hn (fun name hm => ?_) ht
  exact Bool.eq_false_iff.mpr fun hc => Bool.eq_false_iff.mp h (spells_iff.mpr ⟨name, hm, hc⟩)

theorem split_of_not_spells {make : Text → Text → Segment} (hn : ∀ name ∈ names, name ≠ [])
    (h : spells names t = false) (ht : t ≠ []) :
    Segment.split id names make (.pending t) = [.pending t] := by
  rw [Segment.split, cut_of_not_spells hn h ht]
  rfl

end Names

section Substitute

variable {clock : Clock} {day : Bool} {fields : DateFields} {pieces : List Piece} {t : Text}

theorem marker_ne_nil : ∀ marker ∈ halfDayMarkers, id marker ≠ [] := by decide

theorem month_ne_nil : ∀ name ∈ englishMonths.toList, id name ≠ [] := by decide

theorem weekday_ne_nil : ∀ name ∈ englishWeekdays.toList, id name ≠ [] := by decide

/-- The text of a segment in which names are still to be kept. -/
def keptText (clock : Clock) (day : Bool) (fields : DateFields) (segment : Segment) : Text :=
  (keepNames englishWeekdays.toList (keepNames englishMonths.toList [segment])).flatMap
    (stagedText clock fields (stages true day))

theorem flatMap_keepNames (segments : List Segment) :
    (keepNames englishWeekdays.toList (keepNames englishMonths.toList segments)).flatMap
        (stagedText clock fields (stages true day)) =
      segments.flatMap (keptText clock day fields) := by
  rw [keepNames, keepNames, flatMap_splitAll, flatMap_splitAll]
  refine List.flatMap_congr fun segment _ => ?_
  rw [keptText, keepNames, keepNames, flatMap_splitAll, flatMap_splitAll, List.flatMap_singleton]

theorem keptText_settled : keptText clock day fields (.settled t) = t := by
  simp [keptText, keepNames, Segment.splitAll, Segment.split, stagedText, Segment.text]

theorem keptText_marker (marker : Marker) :
    keptText clock day fields (.marker marker) = marker.value fields := by
  simp [keptText, keepNames, Segment.splitAll, Segment.split, stagedText, Segment.text]

/-- Where no month is spelled, a pending segment is scanned between the names of weekdays. -/
theorem keptText_pending (h : spells englishMonths.toList t = false) (ht : t ≠ []) :
    keptText clock day fields (.pending t) = scannedBetweenNames clock day fields t := by
  rw [keptText, keepNames, keepNames, flatMap_splitAll, flatMap_splitAll, List.flatMap_singleton,
    split_of_not_spells month_ne_nil h ht, List.flatMap_singleton, flatMap_split_pending,
    scannedBetweenNames]
  refine List.flatMap_congr fun run _ => ?_
  cases run with
  | plain s => exact staged_eq_scanned clock day fields s
  | word name written => rfl

theorem flatMap_cutMarkers (h : spells englishMonths.toList (codeText pieces) = false) :
    (cutMarkers (pieces.map (ofPiece fields))).flatMap (keptText clock day fields) =
      pieces.flatMap (pieceText clock day fields) := by
  rw [cutMarkers, flatMap_splitAll, List.flatMap_map]
  refine List.flatMap_congr fun piece hp => ?_
  cases piece with
  | literal t => simp [ofPiece, Segment.split, keptText_settled, pieceText]
  | elapsed unit width => simp [ofPiece, Segment.split, keptText_settled, pieceText]
  | code t =>
    rw [ofPiece, flatMap_split_pending, pieceText]
    refine List.flatMap_congr fun run hrun => ?_
    cases run with
    | word marker written =>
      simp only [markerText]
      split <;> exact keptText_marker _
    | plain s =>
      have hfits := Text.fits_wordAt marker_ne_nil
      have hinfix : s <:+: codeText pieces :=
        (Text.plain_isInfix hfits hrun).trans (isInfix_codeText hp)
      exact keptText_pending (spells_eq_false_of_isInfix hinfix h)
        (Text.exists_of_plain_mem_cut hfits hrun).1

theorem hasMarker_cutMarkers :
    hasMarker (cutMarkers (pieces.map (ofPiece fields))) = pieces.any marksHalfDay := by
  rw [hasMarker, cutMarkers, Segment.splitAll, List.any_flatMap, List.any_map]
  congr 1
  funext piece
  cases piece with
  | literal t => rfl
  | elapsed unit width => rfl
  | code t =>
    rw [Bool.eq_iff_iff, marksHalfDay, ← exists_name_mem_cut_iff marker_ne_nil]
    simp only [Function.comp_apply, ofPiece, Segment.split, List.any_map, List.any_eq_true]
    constructor
    · rintro ⟨run, hr, hm⟩
      cases run with
      | plain s => simp at hm
      | word marker written => exact ⟨marker, written, hr⟩
    · rintro ⟨marker, written, hr⟩
      refine ⟨_, hr, ?_⟩
      by_cases hm : marker = "AM/PM".toList
      · simp only [if_pos hm]
      · simp only [if_neg hm]

theorem clockOf_cutMarkers (code : Text) :
    clockOf code (cutMarkers (pieces.map (ofPiece fields))) = clockOfPieces code pieces := by
  rw [clockOf, clockOfPieces, hasMarker_cutMarkers]

/-- In a date code that spells no month, the text of a date is that of the pieces in order, each
scanned once. -/
theorem substitute_eq_flatMap_pieceText (code : Text)
    (h : spells englishMonths.toList (codeText pieces) = false) :
    substitute pieces code fields =
      pieces.flatMap (pieceText (clockOfPieces code pieces)
        (!spells englishWeekdays.toList (codeText pieces)) fields) := by
  rw [← flatMap_cutMarkers h, ← flatMap_keepNames, ← flatMap_foldl_replaceStage, substitute,
    clockOf_cutMarkers, h]
  rfl

/-- The fields of the afternoon of March 5, 2024. -/
def afternoonFields : DateFields :=
  .ofDate ⟨2024, 3, 5⟩ 45356 48645000 .gregorian ⟨.from1900, .enUS⟩

def afternoonPieces : List Piece := FormatCode.pieces "dddd, mmmmmm h:mm A/P".toList

theorem substitute_eq_flatMap_pieceText_afternoon :
    spells englishMonths.toList (codeText afternoonPieces) = false ∧
      substitute afternoonPieces [] afternoonFields =
        afternoonPieces.flatMap (pieceText (clockOfPieces [] afternoonPieces)
          (!spells englishWeekdays.toList (codeText afternoonPieces)) afternoonFields) :=
  have h : spells englishMonths.toList (codeText afternoonPieces) = false := by decide +kernel
  ⟨h, substitute_eq_flatMap_pieceText [] h⟩

end Substitute

end CellDisplay.DateCode
