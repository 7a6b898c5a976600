import CellDisplay.Checked.DateCode
import CellDisplay.Proofs.Checked.Calendar
import CellDisplay.Proofs.Checked.Text
import CellDisplay.Proofs.DateCode.Substitution

/-! # Date codes stay within bounds

The pending segments of a date code are parts of it, so that every search stays within its
text. The fields of a serial have a weekday of the week and a time within its hour, which
keeps the tables and the tenths of a second within bounds.
-/

namespace CellDisplay.Checked

open DateCode

section Classify

variable {code : Text} {pieces : List FormatCode.Piece}

theorem utf8Length_codeText_pieces_le (code : Text) :
    (FormatCode.codeText (FormatCode.pieces code)).utf8Length ≤ code.utf8Length :=
  utf8Length_le_of_sublist (FormatCode.codeText_pieces_sublist code)

theorem unmarkedText_eq (h : (FormatCode.codeText pieces).utf8Length < 2 ^ 64) :
    unmarkedText pieces = some (DateCode.unmarkedText pieces) := by
  rw [unmarkedText, DateCode.unmarkedText]
  generalize FormatCode.codeText pieces = t at h ⊢
  have hstep : ∀ marker ∈ halfDayMarkers, ∀ s : Text, s.utf8Length ≤ t.utf8Length →
      replace marker [] s = some (Text.replace marker [] s) := by
    intro marker hm s hs
    exact replace_eq (marker_ne_nil marker hm) [] (Nat.lt_of_le_of_lt hs h)
  have hlen := utf8Length_replace_nil_le "AM/PM".toList t
  rw [halfDayMarkers] at hstep ⊢
  simp only [List.foldlM_cons, List.foldlM_nil, List.foldl_cons, List.foldl_nil]
  rw [hstep _ (by simp) t (Nat.le_refl _), Option.bind_eq_bind, Option.bind_some,
    hstep _ (by simp) _ hlen]
  rfl

theorem isDateCode_eq (h : (FormatCode.codeText pieces).utf8Length < 2 ^ 64) :
    isDateCode pieces = some (DateCode.isDateCode pieces) := by
  rw [isDateCode, DateCode.isDateCode, unmarkedText_eq h]
  split <;> simp_all

theorem hasDateLetter_eq (h : (FormatCode.codeText pieces).utf8Length < 2 ^ 64) :
    hasDateLetter pieces = some (DateCode.hasDateLetter pieces) := by
  rw [hasDateLetter, replace_eq (by decide) [] h, Option.map_some, DateCode.hasDateLetter]

theorem customRoute?_eq (h : code.utf8Length < 2 ^ 64) :
    customRoute? code =
      some (if DateCode.isDateCode (FormatCode.pieces code) ||
          (hasLegacyShape code && DateCode.hasDateLetter (FormatCode.pieces code)) then
        some .substitute
      else none) := by
  have hlt := Nat.lt_of_le_of_lt (utf8Length_codeText_pieces_le code) h
  have hlooks : (if hasLegacyShape code then hasDateLetter (FormatCode.pieces code)
      else some false) =
        some (hasLegacyShape code && DateCode.hasDateLetter (FormatCode.pieces code)) := by
    rw [hasDateLetter_eq hlt]
    cases hasLegacyShape code <;> rfl
  simp only [customRoute?, pieces_eq, isDateCode_eq hlt, hlooks, Option.bind_eq_bind,
    Option.bind_some, Option.pure_def]

theorem route?_eq (format : ResolvedFormat) (h : format.code.utf8Length < 2 ^ 64) :
    route? format = some ((DateCode.route? format).map .ofRoute) := by
  rw [route?, DateCode.route?]
  cases legacyCodes.findFinIdx? fun code => code.toList = format.code with
  | some place => rfl
  | none =>
    dsimp only
    rw [customRoute?_eq h]
    split
    · rfl
    · split
      · rfl
      · split <;> rfl

end Classify

section Substitution

variable {α : Type} {spelling : α → Text} {words : List α} {segments : List Segment}
  {fields : DateFields}

theorem padded_eq {width : Nat} (h : width < 2 ^ 16) (n : Nat) :
    padded width n = some (Text.padded width n) := by
  rw [padded, Unsigned.value?_ofNat h]
  rfl

/-- The texts of the pending segments have offsets. -/
def Fit (segments : List Segment) : Prop :=
  ∀ t, .pending t ∈ segments → t.utf8Length < 2 ^ 64

theorem split_eq (hw : ∀ word ∈ words, spelling word ≠ []) {make : α → Text → Segment}
    {segment : Segment} (h : Fit [segment]) :
    split spelling words (fun word written => some (make word written)) segment =
      some (segment.split spelling words make) := by
  cases segment with
  | pending t =>
    rw [split, cut_eq hw (h t (by simp)), Option.bind_eq_bind, Option.bind_some, Segment.split]
    refine mapM_eq_some fun run _ => ?_
    cases run <;> rfl
  | settled t => rfl
  | marker marker => rfl

theorem splitAll_eq (hw : ∀ word ∈ words, spelling word ≠ []) {make : α → Text → Segment}
    (h : Fit segments) :
    splitAll spelling words (fun word written => some (make word written)) segments =
      some (Segment.splitAll spelling words make segments) := by
  rw [splitAll, mapM_eq_some fun segment hs => split_eq hw fun t ht => h t ?_, Option.map_some,
    Segment.splitAll, List.flatMap]
  rw [List.mem_singleton.mp ht]
  exact hs

theorem fit_splitAll (hw : ∀ word ∈ words, spelling word ≠ []) {make : α → Text → Segment}
    (hmake : ∀ word written t, make word written ≠ .pending t) (h : Fit segments) :
    Fit (Segment.splitAll spelling words make segments) := by
  intro s hs
  obtain ⟨segment, hsegment, hs⟩ := List.mem_flatMap.mp hs
  obtain ⟨t, rfl, hrun | ⟨found, written, -, he⟩⟩ := pending_mem_split_iff.mp hs
  · refine Nat.lt_of_le_of_lt (utf8Length_le_of_sublist ?_) (h t hsegment)
    exact (Text.plain_isInfix (Text.fits_wordAt hw) hrun).sublist
  · exact absurd he (hmake found written s)

theorem cutMarkers_eq (h : Fit segments) :
    cutMarkers segments = some (DateCode.cutMarkers segments) := by
  rw [cutMarkers, DateCode.cutMarkers, ← splitAll_eq marker_ne_nil h]
  congr 1
  funext marker written
  split <;> rfl

theorem fit_cutMarkers (h : Fit segments) : Fit (DateCode.cutMarkers segments) := by
  refine fit_splitAll marker_ne_nil (fun marker written t => ?_) h
  split <;> simp

theorem keepNames_eq {names : List Text} (hn : ∀ name ∈ names, id name ≠ []) (h : Fit segments) :
    keepNames names segments = some (DateCode.keepNames names segments) :=
  splitAll_eq hn h

theorem fit_keepNames {names : List Text} (hn : ∀ name ∈ names, id name ≠ [])
    (h : Fit segments) : Fit (DateCode.keepNames names segments) :=
  fit_splitAll hn (by simp) h

theorem spells_eq (names : List Text) {t : Text} (h : t.utf8Length < 2 ^ 64) :
    spells names t = some (DateCode.spells names t) :=
  anyM_eq_some fun name _ => contains_eq name h

theorem tokenValue_eq (clock : Clock) (hlow : 1 ≤ fields.weekday) (hhigh : fields.weekday ≤ 7)
    (token : Token) :
    tokenValue clock (fields.weekday - 1) fields token = some (token.value clock fields) := by
  have hname (names : Vector Text 7) :
      names[fields.weekday - 1]? = some (Locale.nameOf names fields.weekday) := by
    rw [Locale.nameOf, if_neg (by omega), Vector.getElem?_eq_getElem (by omega), Option.getD_some]
  cases token
  case kanjiWeekdayLong => exact hname _
  case kanjiWeekdayShort => exact hname _
  all_goals rfl

theorem foldlM_replaceStage_eq (clock : Clock) (hlow : 1 ≤ fields.weekday)
    (hhigh : fields.weekday ≤ 7) (stages : List (List Token)) (h : Fit segments) :
    stages.foldlM (replaceStage clock (fields.weekday - 1) fields) segments =
      some (stages.foldl (DateCode.replaceStage clock fields) segments) := by
  induction stages generalizing segments with
  | nil => rfl
  | cons tokens stages ih =>
    have hw : ∀ token ∈ tokens, token.spelling ≠ [] := fun token _ => spelling_ne_nil token
    have hstage : replaceStage clock (fields.weekday - 1) fields segments tokens =
        some (DateCode.replaceStage clock fields segments tokens) := by
      simp only [replaceStage, tokenValue_eq clock hlow hhigh, Option.map_some]
      exact splitAll_eq hw h
    rw [List.foldlM_cons, hstage, Option.bind_eq_bind, Option.bind_some, List.foldl_cons]
    exact ih (fit_splitAll hw (by simp) h)

theorem substitute_eq {pieces : List FormatCode.Piece} (code : Text)
    (hcode : (FormatCode.codeText pieces).utf8Length < 2 ^ 64)
    (hwidth : ∀ unit width, .elapsed unit width ∈ pieces → width < 2 ^ 16)
    (hlow : 1 ≤ fields.weekday) (hhigh : fields.weekday ≤ 7) :
    substitute pieces code fields = some (DateCode.substitute pieces code fields) := by
  have hpieces : pieces.mapM (ofPiece fields) = some (pieces.map (DateCode.ofPiece fields)) := by
    refine mapM_eq_some fun piece hp => ?_
    cases piece with
    | code text => rfl
    | literal text => rfl
    | elapsed unit width => rw [ofPiece, padded_eq (hwidth unit width hp)]; rfl
  have hfit : Fit (pieces.map (DateCode.ofPiece fields)) := by
    intro t ht
    obtain ⟨piece, hp, he⟩ := List.mem_map.mp ht
    cases piece with
    | code text =>
      obtain rfl : text = t := by simpa [DateCode.ofPiece] using he
      exact Nat.lt_of_le_of_lt (utf8Length_le_of_sublist (isInfix_codeText hp).sublist) hcode
    | literal text => simp [DateCode.ofPiece] at he
    | elapsed unit width => simp [DateCode.ofPiece] at he
  have hweekdays : ∀ name ∈ englishWeekdays.toList, id name ≠ [] := by decide
  have hmarked := fit_cutMarkers hfit
  have hmonths := fit_keepNames month_ne_nil hmarked
  have hindex : (Unsigned.ofNat fields.weekday - 1 : U32).value? = some (fields.weekday - 1) :=
    Unsigned.value?_ofNat_sub (by omega) hlow
  rw [substitute]
  simp only [Option.bind_eq_bind, hpieces, Option.bind_some, cutMarkers_eq hfit,
    keepNames_eq month_ne_nil hmarked, keepNames_eq hweekdays hmonths, spells_eq _ hcode, hindex,
    foldlM_replaceStage_eq _ hlow hhigh _ (fit_keepNames hweekdays hmonths), Option.pure_def]
  rfl

end Substitution

section Layouts

variable {fields : DateFields}

/-- The fields are within their hour and their week. -/
structure FieldsFit (fields : DateFields) : Prop where
  minute_lt : fields.minute < 60
  second_lt : fields.second < 60
  millisecond_lt : fields.millisecond < 1000
  weekday_pos : 1 ≤ fields.weekday
  weekday_le : fields.weekday ≤ 7

theorem fieldsFit_of_ofSerial {serial : Binary64} {calendar : Calendar} {options : Options}
    (h : DateFields.ofSerial serial calendar options = .ok fields) : FieldsFit fields := by
  obtain ⟨day, millis, hshows, -⟩ := DateFields.exists_shows_of_ofSerial h
  obtain ⟨i, hi⟩ := hshows.names_weekday
  exact ⟨hshows.minute_lt, hshows.second_lt, hshows.millisecond_lt, by rw [hi.weekday]; omega,
    by rw [hi.weekday]; omega⟩

theorem tenths_eq (h : FieldsFit fields) : tenths fields = some (DateCode.tenths fields) := by
  obtain ⟨hm, hs, hms, -, -⟩ := h
  have hseconds : (Unsigned.ofNat fields.minute * 60 + Unsigned.ofNat fields.second :
      U32).value? = some (fields.minute * 60 + fields.second) := by
    simp (disch := omega) only [Unsigned.literal_eq, Unsigned.ofNat_mul_ofNat,
      Unsigned.ofNat_add_ofNat, Unsigned.value?_ofNat]
  rw [tenths, hseconds, Option.bind_eq_bind, Option.bind_some, DateCode.tenths]
  simp (disch := omega) only [Unsigned.literal_eq, Unsigned.ofNat_mul_ofNat,
    Unsigned.ofNat_add_ofNat, Unsigned.ofNat_div_ofNat, Unsigned.value?_ofNat]

theorem tenths_lt (h : FieldsFit fields) : DateCode.tenths fields < 2 ^ 16 := by
  obtain ⟨hm, hs, hms, -, -⟩ := h
  rw [DateCode.tenths]
  omega

theorem minutesToTenths_eq (h : FieldsFit fields) :
    minutesToTenths fields = some (DateCode.minutesToTenths fields) := by
  have hlt := tenths_lt h
  rw [minutesToTenths, tenths_eq h, DateCode.minutesToTenths]
  generalize DateCode.tenths fields = n at hlt ⊢
  simp (disch := omega) only [Option.bind_eq_bind, Option.bind_some, Unsigned.literal_eq,
    Unsigned.ofNat_div_ofNat, Unsigned.ofNat_mod_ofNat, Unsigned.value?_ofNat, Option.pure_def]

theorem builtinText_eq (index : Nat) (h : FieldsFit fields) :
    builtinText index fields = some (DateCode.builtinText index fields) := by
  rw [builtinText]
  split
  · rename_i hindex
    rw [hindex]
    exact minutesToTenths_eq h
  · rfl

end Layouts

section Routes

variable {serial : Binary64} {calendar : Calendar} {options : Options} {format : ResolvedFormat}

theorem renderFields_eq {render : DateFields → Option Text} {text : DateFields → Text}
    (h : ∀ fields, FieldsFit fields → render fields = some (text fields)) :
    renderFields serial calendar options render =
      some ((DateFields.ofSerial serial calendar options).map text) := by
  rw [renderFields, ofSerial_eq, Option.bind_eq_bind, Option.bind_some]
  cases hf : DateFields.ofSerial serial calendar options with
  | error error => rfl
  | ok fields =>
    dsimp only
    rw [h fields (fieldsFit_of_ofSerial hf)]
    rfl

theorem renderDate_eq (route : Route) (hcode : format.code.utf8Length < 2 ^ 64)
    (hwidth : ∀ unit width, .elapsed unit width ∈ FormatCode.pieces format.code →
      width < 2 ^ 16) :
    renderDate serial format (.ofRoute route) options =
      some (DateCode.render serial format route options) := by
  cases route with
  | legacy place =>
    have hget : legacyCodes[place.val]? = some legacyCodes[place] :=
      Vector.getElem?_eq_getElem place.isLt
    simp only [DateRoute.ofRoute, renderDate, hget, Option.bind_eq_bind, Option.bind_some]
    exact renderFields_eq fun fields _ => rfl
  | builtin index => exact renderFields_eq fun fields h => builtinText_eq index h
  | substitute =>
    have hlt := Nat.lt_of_le_of_lt (utf8Length_codeText_pieces_le format.code) hcode
    simp only [DateRoute.ofRoute, renderDate, pieces_eq, Option.bind_eq_bind, Option.bind_some]
    exact renderFields_eq fun fields h =>
      substitute_eq format.code hlt hwidth h.weekday_pos h.weekday_le

end Routes

end CellDisplay.Checked
