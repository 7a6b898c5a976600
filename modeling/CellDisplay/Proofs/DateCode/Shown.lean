import CellDisplay.Proofs.DateCode.Layout

/-! # What a date code shows of a date

Every token holds one of a few shortest tokens. A code shows something of the date exactly if one
of its pieces holds such a token or a marker, or is an elapsed time; otherwise its own text is
shown.
-/

namespace CellDisplay.DateCode

open FormatCode

/-- Tokens of which every token holds one. -/
def shortestTokens : List Token :=
  [.shortYear, .eraGlyph, .eraYear, .month, .day, .hour, .second, .kanjiWeekdayShort]

/-- The words that are replaced wherever they stand. -/
def replacedWords : List Text := halfDayMarkers ++ shortestTokens.map Token.spelling

/-- The part stands for something of the date. -/
def Part.isReplaced : Part → Bool
  | char _ => false
  | _ => true

/-- The piece holds something that is replaced. -/
def hasReplaced : Piece → Bool
  | .code t => spells replacedWords t
  | .literal _ => false
  | .elapsed .. => true

/-- The text of a piece as it is written, in which an elapsed time has none. -/
def ownText : Piece → Text
  | .code t | .literal t => t
  | .elapsed .. => []

section Parts

variable {t : Text} {part : Part}

theorem isReplaced_of_mem_textParts (h : part ∈ textParts t) : part.isReplaced = false := by
  obtain ⟨c, -, rfl⟩ := List.mem_map.mp h
  rfl

theorem exists_isReplaced_tokenParts (token : Token) :
    ∃ part ∈ tokenParts token, part.isReplaced := by
  cases token <;> exact ⟨_, List.mem_cons_self, rfl⟩

theorem exists_shortest_isInfix :
    ∀ token ∈ scanTokens true, ∃ word ∈ shortestTokens, word.spelling <:+: token.spelling := by
  decide +kernel

theorem shortestTokens_subset : ∀ token ∈ shortestTokens, token ∈ scanTokens true := by
  decide

theorem spells_replacedWords_iff :
    spells replacedWords t ↔
      spells halfDayMarkers t ∨ ∃ token ∈ scanTokens true, Text.contains token.spelling t := by
  have happend : spells replacedWords t ↔
      spells halfDayMarkers t ∨ ∃ token ∈ shortestTokens, Text.contains token.spelling t := by
    simp [spells, replacedWords, List.any_append, List.any_map]
  rw [happend]
  refine or_congr_right ⟨?_, ?_⟩
  · rintro ⟨token, htoken, hc⟩
    exact ⟨token, shortestTokens_subset token htoken, hc⟩
  · rintro ⟨token, htoken, hc⟩
    obtain ⟨word, hword, hinfix⟩ := exists_shortest_isInfix token htoken
    exact ⟨word, hword, Text.contains_of_word_isInfix (spelling_ne_nil word) hinfix hc⟩

theorem exists_isReplaced_scannedParts
    (h : ∃ token ∈ scanTokens true, Text.contains token.spelling t) :
    ∃ part ∈ scannedParts true t, part.isReplaced := by
  obtain ⟨token, written, hrun⟩ :=
    (Text.exists_word_mem_cut_iff fun token _ => spelling_ne_nil token).mpr h
  rw [← Text.longestAt_eq_wordAt (longerFirst_scanTokens true)] at hrun
  obtain ⟨part, hpart, hreplaced⟩ := exists_isReplaced_tokenParts token
  exact ⟨part, List.mem_flatMap.mpr ⟨_, hrun, hpart⟩, hreplaced⟩

theorem scannedParts_of_not_contains
    (h : ∀ token ∈ scanTokens true, Text.contains token.spelling t = false) :
    scannedParts true t = textParts t := by
  by_cases ht : t = []
  · subst ht
    simp [scannedParts, textParts]
  · rw [scannedParts, Text.longestAt_eq_wordAt (longerFirst_scanTokens true),
      Text.cut_of_not_contains (fun token _ => spelling_ne_nil token) h ht, List.flatMap_singleton]

/-- Code without markers and names is scanned as a whole. -/
theorem pieceParts_code (hmarkers : spells halfDayMarkers t = false)
    (hweekdays : spells englishWeekdays.toList t = false) :
    pieceParts true (.code t) = scannedParts true t := by
  by_cases ht : t = []
  · subst ht
    simp [pieceParts, scannedParts]
  · have hnames : partsBetweenNames true t = scannedParts true t := by
      rw [partsBetweenNames, cut_of_not_spells weekday_ne_nil hweekdays ht, List.flatMap_singleton]
    rw [pieceParts, cut_of_not_spells marker_ne_nil hmarkers ht, List.flatMap_singleton]
    exact hnames

theorem exists_isReplaced_pieceParts_code (hweekdays : spells englishWeekdays.toList t = false)
    (h : spells replacedWords t) : ∃ part ∈ pieceParts true (.code t), part.isReplaced := by
  cases hmarkers : spells halfDayMarkers t with
  | true =>
    obtain ⟨marker, written, hrun⟩ := (exists_name_mem_cut_iff marker_ne_nil).mpr hmarkers
    refine ⟨markerPart marker written, ?_, rfl⟩
    exact List.mem_flatMap.mpr ⟨_, hrun, List.mem_singleton_self _⟩
  | false =>
    rw [pieceParts_code hmarkers hweekdays]
    rcases spells_replacedWords_iff.mp h with h | h
    · exact absurd h (Bool.eq_false_iff.mp hmarkers)
    · exact exists_isReplaced_scannedParts h

theorem pieceParts_of_not_hasReplaced {piece : Piece}
    (hweekdays : ∀ t, piece = .code t → spells englishWeekdays.toList t = false)
    (h : hasReplaced piece = false) : pieceParts true piece = textParts (ownText piece) := by
  cases piece with
  | literal t => rfl
  | elapsed unit width => cases h
  | code t =>
    obtain ⟨hmarkers, htokens⟩ :=
      not_or.mp (mt spells_replacedWords_iff.mpr (Bool.eq_false_iff.mp h))
    rw [pieceParts_code (Bool.eq_false_iff.mpr hmarkers) (hweekdays t rfl)]
    refine scannedParts_of_not_contains fun token htoken => ?_
    exact Bool.eq_false_iff.mpr fun hc => htokens ⟨token, htoken, hc⟩

end Parts

section Pieces

variable {pieces : List Piece} {t : Text}

theorem spells_weekdays_of_mem
    (hweekdays : spells englishWeekdays.toList (codeText pieces) = false)
    (h : .code t ∈ pieces) : spells englishWeekdays.toList t = false :=
  spells_eq_false_of_isInfix (isInfix_codeText h) hweekdays

theorem codeParts_eq (hweekdays : spells englishWeekdays.toList (codeText pieces) = false) :
    codeParts pieces = pieces.flatMap (pieceParts true) := by
  rw [codeParts, hweekdays]
  rfl

theorem exists_isReplaced_codeParts_iff
    (hweekdays : spells englishWeekdays.toList (codeText pieces) = false) :
    (∃ part ∈ codeParts pieces, part.isReplaced) ↔ ∃ piece ∈ pieces, hasReplaced piece := by
  rw [codeParts_eq hweekdays]
  constructor
  · rintro ⟨part, hpart, hreplaced⟩
    obtain ⟨piece, hpiece, hpart⟩ := List.mem_flatMap.mp hpart
    refine ⟨piece, hpiece, ?_⟩
    by_contra hnone
    rw [pieceParts_of_not_hasReplaced
      (fun t ht => spells_weekdays_of_mem hweekdays (ht ▸ hpiece)) (by simpa using hnone)] at hpart
    simp [isReplaced_of_mem_textParts hpart] at hreplaced
  · rintro ⟨piece, hpiece, hreplaced⟩
    have hparts : ∃ part ∈ pieceParts true piece, part.isReplaced := by
      cases piece with
      | literal t => cases hreplaced
      | elapsed unit width => exact ⟨_, List.mem_singleton_self _, rfl⟩
      | code t =>
        exact exists_isReplaced_pieceParts_code (spells_weekdays_of_mem hweekdays hpiece) hreplaced
    obtain ⟨part, hpart, hreplaced⟩ := hparts
    exact ⟨part, List.mem_flatMap.mpr ⟨piece, hpiece, hpart⟩, hreplaced⟩

/-- A code in which nothing is replaced is shown as it is written. -/
theorem substitute_of_not_hasReplaced
    (hmonths : spells englishMonths.toList (codeText pieces) = false)
    (hweekdays : spells englishWeekdays.toList (codeText pieces) = false)
    (h : ∀ piece ∈ pieces, hasReplaced piece = false) (code : Text) (fields : DateFields) :
    substitute pieces code fields = pieces.flatMap ownText := by
  rw [substitute_eq_flatMap_value pieces code fields hmonths, codeParts_eq hweekdays,
    List.flatMap_assoc]
  refine List.flatMap_congr fun piece hpiece => ?_
  rw [pieceParts_of_not_hasReplaced
    (fun t ht => spells_weekdays_of_mem hweekdays (ht ▸ hpiece)) (h piece hpiece)]
  exact flatMap_value_textParts _

theorem mem_of_mem_unmarkedText {c : Char} (h : c ∈ unmarkedText pieces) : c ∈ codeText pieces := by
  have hreplace (word t : Text) (hw : word ≠ []) (hc : c ∈ Text.replace word [] t) : c ∈ t := by
    obtain ⟨run, hrun, hc⟩ := List.mem_flatMap.mp hc
    cases run with
    | plain s => exact (Text.plain_isInfix (Text.fits_wordAt (by simpa using hw)) hrun).subset hc
    | word found written => cases hc
  exact hreplace _ _ (by decide) (hreplace _ _ (by decide) h)

theorem exists_shortest_startsWith : "ymdhsgYMDHSG".toList.all fun c =>
    c.toLower ∈ "ygs".toList ∨ ∃ token ∈ shortestTokens, Text.startsWith token.spelling [c] := by
  decide +kernel

/-- The letters of months, days and hours are tokens by themselves. -/
theorem toLower_mem_of_not_hasReplaced (h : ∀ piece ∈ pieces, hasReplaced piece = false) {c : Char}
    (hc : c ∈ codeText pieces) (hletter : isTokenLetter c) : c.toLower ∈ "ygs".toList := by
  obtain ⟨piece, hpiece, hc⟩ := List.mem_flatMap.mp hc
  cases piece with
  | literal | elapsed => cases hc
  | code t =>
    have hword := of_decide_eq_true
      (List.all_eq_true.mp exists_shortest_startsWith c (of_decide_eq_true hletter))
    rcases hword with hlower | ⟨token, htoken, hs⟩
    · exact hlower
    · obtain ⟨before, after, rfl⟩ := List.append_of_mem hc
      have hcontains : Text.contains token.spelling (before ++ c :: after) :=
        Text.contains_iff.mpr
          ⟨spelling_ne_nil token, before, _, rfl, Text.startsWith_append_right hs after⟩
      have hspells := spells_replacedWords_iff.mpr
        (.inr ⟨token, shortestTokens_subset token htoken, hcontains⟩)
      exact absurd hspells (Bool.eq_false_iff.mp (h _ hpiece))

theorem exists_isTokenLetter (hdate : isDateCode pieces)
    (h : ∀ piece ∈ pieces, hasReplaced piece = false) : ∃ c ∈ codeText pieces, isTokenLetter c := by
  unfold isDateCode at hdate
  rw [Bool.or_eq_true, Bool.and_eq_true] at hdate
  rcases hdate with helapsed | ⟨-, hletter⟩
  · obtain ⟨piece, hpiece, helapsed⟩ := List.any_eq_true.mp helapsed
    cases piece with
    | code | literal => cases helapsed
    | elapsed unit width => cases h _ hpiece
  · obtain ⟨c, hc, hletter⟩ := List.any_eq_true.mp hletter
    exact ⟨c, mem_of_mem_unmarkedText hc, hletter⟩

/-- A date code without names shows something of every date exactly if a piece holds something that
is replaced. Otherwise its own text is shown, in which all letters of tokens are single letters of
years, eras and seconds. -/
theorem shows_iff (hdate : isDateCode pieces)
    (hmonths : spells englishMonths.toList (codeText pieces) = false)
    (hweekdays : spells englishWeekdays.toList (codeText pieces) = false) :
    (∀ code fields, substitute pieces code fields =
        (codeParts pieces).flatMap (Part.value (clockOfPieces code pieces) fields)) ∧
      ((∃ part ∈ codeParts pieces, part.isReplaced) ↔ ∃ piece ∈ pieces, hasReplaced piece) ∧
      ((∀ piece ∈ pieces, hasReplaced piece = false) →
        (∀ code fields, substitute pieces code fields = pieces.flatMap ownText) ∧
          (∃ c ∈ codeText pieces, isTokenLetter c) ∧
          ∀ c ∈ codeText pieces, isTokenLetter c → c.toLower ∈ "ygs".toList) := by
  refine ⟨fun code fields => substitute_eq_flatMap_value pieces code fields hmonths,
    exists_isReplaced_codeParts_iff hweekdays, ?_⟩
  intro hnone
  exact ⟨substitute_of_not_hasReplaced hmonths hweekdays hnone, exists_isTokenLetter hdate hnone,
    fun c => toLower_mem_of_not_hasReplaced hnone⟩

/-- The month is shown between lone letters of seconds and eras. -/
theorem shows_iff_lone_letters :
    isDateCode [.code "s m".toList, .literal "G".toList, .code "g".toList] ∧
      ∃ part ∈ codeParts [.code "s m".toList, .literal "G".toList, .code "g".toList],
        part.isReplaced := by
  have hdate : isDateCode [.code "s m".toList, .literal "G".toList, .code "g".toList] := by
    decide +kernel
  obtain ⟨-, hreplaced, -⟩ := shows_iff hdate (by decide +kernel) (by decide +kernel)
  exact ⟨hdate, hreplaced.mpr ⟨.code "s m".toList, List.mem_cons_self, by decide +kernel⟩⟩

/-- A lone letter of a year makes a date code, but is shown as it is. -/
theorem isDateCode_lone_letter :
    isDateCode [.code "y".toList] ∧
      spells englishMonths.toList (codeText [.code "y".toList]) = false ∧
      spells englishWeekdays.toList (codeText [.code "y".toList]) = false ∧
      (∀ part ∈ codeParts [.code "y".toList], part.isReplaced = false) ∧
      (∀ code fields, substitute [.code "y".toList] code fields = "y".toList) ∧
      route? ⟨176, 176, "y".toList⟩ = some .substitute ∧
      render (Binary64.ofRatio 725705 16) ⟨176, 176, "y".toList⟩ .substitute (.ofLocale .enUS) =
        .ok "y".toList := by
  have hmonths : spells englishMonths.toList (codeText [.code "y".toList]) = false := by
    decide +kernel
  have hweekdays : spells englishWeekdays.toList (codeText [.code "y".toList]) = false := by
    decide +kernel
  refine ⟨by decide +kernel, hmonths, hweekdays, by decide +kernel, ?_, by decide +kernel, ?_⟩
  · exact substitute_of_not_hasReplaced hmonths hweekdays (by decide +kernel)
  · decide +kernel

end Pieces

end CellDisplay.DateCode
