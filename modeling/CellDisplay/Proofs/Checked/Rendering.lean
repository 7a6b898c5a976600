import CellDisplay.Checked.Rendering
import CellDisplay.Proofs.Checked.Digits
import CellDisplay.Proofs.Checked.NumberPattern

/-! # Rendering stays within bounds

A number pattern takes at most twice the bytes of the code it is lowered from, and one more, so
that it has offsets as the code has. Every operation of a rendering succeeds, as long as the
number of places and the widths of elapsed times are widths of padded text.
-/

namespace CellDisplay.Checked

open NumberCode NumberPattern

section Numerals

variable {code : Text}

theorem numeralsOfCode_eq (h : code.utf8Length < 2 ^ 63) :
    (numeralsOfCode code).run = some (Numerals.ofCode code) := by
  rw [numeralsOfCode]
  refine (run_lift_bind (find_eq Numerals.marker (Nat.lt_trans h (by decide))) _).trans ?_
  rw [Text.find?, Numerals.ofCode]
  cases hb : Text.breakOn Numerals.marker code with
  | none => rfl
  | some found =>
    obtain ⟨before, rest⟩ := found
    obtain ⟨rfl, hs⟩ := Text.append_of_breakAt hb
    rw [Text.utf8Length_append] at h
    have hmarker : Numerals.marker.utf8Length = 5 := rfl
    have hstop : (before.utf8Length + Numerals.marker.utf8Length : U64).value? =
        some (before.utf8Length + Numerals.marker.utf8Length) :=
      Unsigned.value?_ofNat_add (by omega)
    have hslice : sliceFrom (before.utf8Length + Numerals.marker.utf8Length) (before ++ rest) =
        some (rest.drop Numerals.marker.length) := by
      have hbehind := sliceFrom_append (before ++ rest.take Numerals.marker.length)
        (rest.drop Numerals.marker.length)
      rwa [Text.utf8Length_append, utf8Length_take_of_startsWith hs, List.append_assoc,
        List.take_append_drop] at hbehind
    refine (run_lift_bind hstop _).trans ((run_lift_bind hslice _).trans ?_)
    dsimp only
    split <;> simp_all

theorem numeralsOf_eq {format : ResolvedFormat} (h : format.code.utf8Length < 2 ^ 63) :
    (numeralsOf format).run = some (NumberCode.numeralsOf format) := by
  rw [numeralsOf, NumberCode.numeralsOf]
  split
  · rfl
  · exact numeralsOfCode_eq h

theorem glyph_eq (numerals : Numerals) (c : Char) :
    glyph numerals c = some (numerals.glyph c) := by
  rw [glyph, Numerals.glyph]
  split
  · rename_i hc
    have hlt : c.toNat - '0'.toNat < numerals.glyphs.length := by
      rw [show numerals.glyphs.length = 10 by cases numerals <;> rfl]
      simp only [Char.isDigit, Bool.and_eq_true, decide_eq_true_eq] at hc
      have hle : c.toNat ≤ 57 := UInt32.le_iff_toNat_le.mp hc.2
      have hzero : '0'.toNat = 48 := rfl
      omega
    rw [List.getD_eq_getElem?_getD, List.getElem?_eq_getElem hlt, Option.getD_some]
  · rfl

end Numerals

section Lowering

open FormatCode (Piece sectionPieces)

/-- The bytes that a piece can take in a number pattern. -/
def pieceBytes : Piece → Nat
  | .code t => 2 * t.utf8Length
  | .literal t => 2 * t.utf8Length + 1
  | .elapsed _ _ => 0

def bytesOf (pieces : List Piece) : Nat := pieces.foldr (pieceBytes · + ·) 0

@[simp] theorem bytesOf_nil : bytesOf [] = 0 := rfl

@[simp] theorem bytesOf_cons (piece : Piece) (pieces : List Piece) :
    bytesOf (piece :: pieces) = pieceBytes piece + bytesOf pieces := rfl

theorem bytesOf_consCode_le (c : Char) (pieces : List Piece) :
    bytesOf (Piece.consCode c pieces) ≤ 2 * c.utf8Size + bytesOf pieces := by
  unfold Piece.consCode
  split <;> simp only [bytesOf_cons, pieceBytes, Text.utf8Length_cons, Text.utf8Length_nil] <;>
    omega

theorem bytesOf_consLiteral_le (t : Text) (pieces : List Piece) :
    bytesOf (Piece.consLiteral t pieces) ≤ 2 * t.utf8Length + 1 + bytesOf pieces := by
  unfold Piece.consLiteral
  split
  · omega
  · split <;> simp only [bytesOf_cons, pieceBytes, Text.utf8Length_append] <;> omega

theorem bytesOf_consTag_le (tag : Text) (pieces : List Piece) :
    bytesOf (FormatCode.consTag tag pieces) ≤ 2 * tag.utf8Length + 1 + bytesOf pieces := by
  unfold FormatCode.consTag
  split
  · rename_i currency
    have hlit := bytesOf_consLiteral_le (currency.takeWhile (· ≠ '-')) pieces
    have hle := utf8Length_le_of_sublist (List.takeWhile_sublist (l := currency) (· ≠ '-'))
    rw [Text.utf8Length_cons]
    omega
  · split
    · rename_i htag
      obtain ⟨unit, width, rfl⟩ := FormatCode.exists_elapsed_of_elapsedTag? htag
      simp only [bytesOf_cons, pieceBytes]
      omega
    · omega

theorem utf8Length_splitAtStop_le (stop : Char) (t : Text) :
    (FormatCode.splitAtStop stop t).1.utf8Length + (FormatCode.splitAtStop stop t).2.utf8Length ≤
      t.utf8Length := by
  have hsplit : t.utf8Length =
      Text.utf8Length (t.takeWhile (· ≠ stop)) + Text.utf8Length (t.dropWhile (· ≠ stop)) := by
    rw [← Text.utf8Length_append, List.takeWhile_append_dropWhile]
  rw [hsplit]
  exact Nat.add_le_add_left (utf8Length_le_of_sublist (List.drop_sublist 1 _)) _

theorem bytesOf_sectionPieces_le (t : Text) :
    bytesOf (sectionPieces t) ≤ 2 * t.utf8Length + 1 := by
  fun_induction sectionPieces t with
  | case1 => exact Nat.zero_le _
  | case2 rest ih =>
    have hlit := bytesOf_consLiteral_le (FormatCode.splitAtStop '"' rest).1
      (sectionPieces (FormatCode.splitAtStop '"' rest).2)
    have hsplit := utf8Length_splitAtStop_le '"' rest
    have hsize : '"'.utf8Size = 1 := rfl
    rw [Text.utf8Length_cons]
    omega
  | case3 rest ih =>
    have htag := bytesOf_consTag_le (FormatCode.splitAtStop ']' rest).1
      (sectionPieces (FormatCode.splitAtStop ']' rest).2)
    have hsplit := utf8Length_splitAtStop_le ']' rest
    have hsize : '['.utf8Size = 1 := rfl
    rw [Text.utf8Length_cons]
    omega
  | case4 rest ih =>
    have hlit := bytesOf_consLiteral_le (rest.take 1) (sectionPieces (rest.drop 1))
    have hsize : '\\'.utf8Size = 1 := rfl
    have hsplit := congrArg Text.utf8Length (List.take_append_drop 1 rest)
    rw [Text.utf8Length_append] at hsplit
    rw [Text.utf8Length_cons]
    omega
  | case5 rest ih =>
    have hlit := bytesOf_consLiteral_le [' '] (sectionPieces (rest.drop 1))
    have hblank : Text.utf8Length [' '] = 1 := rfl
    have hsize : '_'.utf8Size = 1 := rfl
    cases rest with
    | nil =>
      rw [List.drop_nil, sectionPieces] at hlit ⊢
      rw [Text.utf8Length_cons, Text.utf8Length_nil]
      simp only [bytesOf_nil] at hlit
      omega
    | cons d rest =>
      have hpos := d.utf8Size_pos
      rw [List.drop_one, List.tail_cons] at hlit ih ⊢
      rw [Text.utf8Length_cons, Text.utf8Length_cons]
      omega
  | case6 rest ih =>
    have hsplit := congrArg Text.utf8Length (List.take_append_drop 1 rest)
    rw [Text.utf8Length_append] at hsplit
    rw [Text.utf8Length_cons]
    omega
  | case7 c rest _ _ _ _ _ ih =>
    have hcode := bytesOf_consCode_le c (sectionPieces rest)
    rw [Text.utf8Length_cons]
    omega

theorem utf8Length_doubled_le (t : Text) : (doubled t).utf8Length ≤ 2 * t.utf8Length := by
  induction t with
  | nil => exact Nat.le_refl _
  | cons c t ih =>
    have hc : Text.utf8Length (if c = apostrophe then [apostrophe, apostrophe] else [c]) ≤
        2 * c.utf8Size := by
      split
      · subst c
        decide
      · rw [Text.utf8Length_cons, Text.utf8Length_nil]
        omega
    rw [doubled, List.flatMap_cons, Text.utf8Length_append, ← doubled, Text.utf8Length_cons]
    omega

theorem takeWhile_apostrophe_eq (t : Text) :
    t.takeWhile (· = apostrophe) =
      List.replicate (t.takeWhile (· = apostrophe)).length apostrophe :=
  List.eq_replicate_of_mem fun c hc => by simpa using List.mem_takeWhile_imp hc

theorem doubled_replicate (n : Nat) :
    doubled (List.replicate n apostrophe) = List.replicate (2 * n) apostrophe := by
  induction n with
  | zero => rfl
  | succ n ih =>
    rw [List.replicate_succ, doubled_cons_apostrophe, ih]
    rfl

theorem utf8Length_replicate_apostrophe (n : Nat) :
    Text.utf8Length (List.replicate n apostrophe) = n := by
  rw [utf8Length_of_isAscii fun c hc => by rw [List.eq_of_mem_replicate hc]; rfl,
    List.length_replicate]

theorem utf8Length_eq_leading (t : Text) :
    t.utf8Length = (t.takeWhile (· = apostrophe)).length +
      Text.utf8Length (t.dropWhile (· = apostrophe)) := by
  rw [← utf8Length_replicate_apostrophe (t.takeWhile (· = apostrophe)).length,
    ← takeWhile_apostrophe_eq, ← Text.utf8Length_append, List.takeWhile_append_dropWhile]

theorem quote_eq {t : Text} (h : t.utf8Length < 2 ^ 64) :
    quote t = some (NumberPattern.quote t) := by
  have hsplit := utf8Length_eq_leading t
  rw [quote, NumberPattern.quote, takeWhile_apostrophe_eq, doubled_replicate,
    Unsigned.value?_ofNat_sub h (by omega), hsplit, Nat.add_sub_cancel]
  cases t.dropWhile (· = apostrophe) <;> rfl

theorem utf8Length_quote_le (t : Text) :
    (NumberPattern.quote t).utf8Length ≤ 2 * t.utf8Length + 1 := by
  have hsplit := utf8Length_eq_leading t
  have hhead := List.head?_dropWhile_not (· = apostrophe) t
  rw [NumberPattern.quote, takeWhile_apostrophe_eq, doubled_replicate, Text.utf8Length_append,
    utf8Length_replicate_apostrophe]
  cases hrest : t.dropWhile (· = apostrophe) with
  | nil =>
    rw [Text.utf8Length_nil]
    omega
  | cons c rest =>
    -- The first character of a run is not doubled, which makes room for the apostrophes around it.
    have hc : c ≠ apostrophe := by simpa [hrest] using hhead
    have hpos := c.utf8Size_pos
    have hdoubled := utf8Length_doubled_le rest
    have hsize : apostrophe.utf8Size = 1 := rfl
    rw [hrest, Text.utf8Length_cons] at hsplit
    simp only [Token.written, doubled_cons hc, List.cons_append, Text.utf8Length_cons,
      Text.utf8Length_append, Text.utf8Length_nil]
    omega

theorem utf8Length_flatMap_lowerChar_le (t : Text) :
    Text.utf8Length (t.flatMap lowerChar) ≤ 2 * t.utf8Length := by
  induction t with
  | nil => exact Nat.le_refl _
  | cons c t ih =>
    have hc : (lowerChar c).utf8Length ≤ 2 * c.utf8Size := by
      have hpos := c.utf8Size_pos
      rw [lowerChar]
      split
      · have hsize : Text.utf8Length ['#'] = 1 := rfl
        omega
      · split
        · exact Nat.zero_le _
        · simpa using utf8Length_doubled_le [c]
    rw [List.flatMap_cons, Text.utf8Length_append, Text.utf8Length_cons]
    omega

theorem utf8Length_lowerCode_le (t : Text) :
    Text.utf8Length ((Text.replace generalWord generalPattern t).flatMap lowerChar) ≤
      2 * t.utf8Length := by
  have hw : ∀ word ∈ [generalWord], id word ≠ [] := by decide
  rw [Text.replace, List.flatMap_assoc]
  refine utf8Length_flatMap_cut_le fun run hrun => ?_
  cases run with
  | plain s => exact utf8Length_flatMap_lowerChar_le s
  | word found written =>
    obtain ⟨hmem, hs, -⟩ := Text.written_of_mem_cut hw hrun
    have hle := utf8Length_le_of_startsWith hs
    have hword : (id found).utf8Length = 7 := by rw [List.mem_singleton.mp hmem]; rfl
    have hpattern : Text.utf8Length (generalPattern.flatMap lowerChar) = 12 := by decide
    dsimp only [Text.Run.written]
    omega

theorem utf8Length_lowerPiece_le (piece : Piece) :
    (NumberCode.lowerPiece piece).utf8Length ≤ pieceBytes piece := by
  cases piece with
  | code t => exact utf8Length_lowerCode_le t
  | literal t => exact utf8Length_quote_le t
  | elapsed unit width => exact Nat.le_refl _

theorem utf8Length_flatMap_lowerPiece_le (pieces : List Piece) :
    Text.utf8Length (pieces.flatMap NumberCode.lowerPiece) ≤ bytesOf pieces := by
  induction pieces with
  | nil => exact Nat.le_refl _
  | cons piece pieces ih =>
    have hpiece := utf8Length_lowerPiece_le piece
    rw [List.flatMap_cons, Text.utf8Length_append, bytesOf_cons]
    omega

theorem bytesOf_pieces_le (code : Text) :
    bytesOf (FormatCode.pieces code) ≤ 2 * code.utf8Length + 1 := by
  have hsection := bytesOf_sectionPieces_le (FormatCode.firstSection code)
  have hle := utf8Length_le_of_sublist (FormatCode.firstSection_prefix_self code).sublist
  rw [FormatCode.pieces]
  omega

theorem utf8Length_lower_lt {code : Text} (h : code.utf8Length < 2 ^ 63) :
    (NumberCode.lower code).utf8Length < 2 ^ 64 := by
  have hbytes := bytesOf_pieces_le code
  have hle := utf8Length_flatMap_lowerPiece_le (FormatCode.pieces code)
  rw [NumberCode.lower]
  split
  · decide
  · split
    · decide
    · omega

theorem le_bytesOf {piece : Piece} {pieces : List Piece} (h : piece ∈ pieces) :
    pieceBytes piece ≤ bytesOf pieces := by
  induction h with
  | head => exact Nat.le_add_right _ _
  | tail _ _ ih => exact Nat.le_trans ih (Nat.le_add_left _ _)

theorem lowerPiece_eq {code : Text} (h : code.utf8Length < 2 ^ 63) {piece : Piece}
    (hp : piece ∈ FormatCode.pieces code) :
    lowerPiece piece = some (NumberCode.lowerPiece piece) := by
  have hbytes := Nat.le_trans (le_bytesOf hp) (bytesOf_pieces_le code)
  cases piece with
  | code t =>
    rw [pieceBytes] at hbytes
    rw [lowerPiece, replace_eq (by decide) generalPattern (by omega)]
    rfl
  | literal t =>
    rw [pieceBytes] at hbytes
    exact quote_eq (by omega)
  | elapsed unit width => rfl

theorem lower_eq {code : Text} (h : code.utf8Length < 2 ^ 63) :
    lower code = some (NumberCode.lower code) := by
  rw [lower, NumberCode.lower, pieces_eq, Option.bind_eq_bind, Option.bind_some,
    mapM_eq_some fun piece hp => lowerPiece_eq h hp]
  split
  · rfl
  · split <;> rfl

theorem patternOf_eq {format : ResolvedFormat} (h : format.code.utf8Length < 2 ^ 63) :
    (patternOf format).run = some (NumberCode.patternOf format) := by
  rw [patternOf, NumberCode.patternOf]
  cases fixedPattern? format.index with
  | some pattern => rfl
  | none =>
    dsimp only
    refine run_bind_eq (numeralsOfCode_eq h) fun numerals _ => ?_
    cases numerals with
    | none => exact run_lift (lower_eq h)
    | some numerals =>
      exact run_lift_bind (contains_eq generalWord (Nat.lt_trans h (by decide))) _

theorem utf8Length_fixedPattern?_lt {index : Nat} {text : Text}
    (h : fixedPattern? index = some text) : text.utf8Length < 2 ^ 64 := by
  have hall : ∀ entry ∈ fixedPatterns, Text.utf8Length entry.2.toList < 2 ^ 64 := by
    decide
  obtain ⟨s, hs, rfl⟩ := Option.map_eq_some_iff.mp h
  obtain ⟨front, back, hfixed, -⟩ := List.lookup_eq_some_iff.mp hs
  exact hall (index, s) (by simp [hfixed])

theorem utf8Length_patternOf_lt {format : ResolvedFormat} {text : Text}
    (h : format.code.utf8Length < 2 ^ 63) (hp : NumberCode.patternOf format = .ok text) :
    text.utf8Length < 2 ^ 64 := by
  rw [NumberCode.patternOf] at hp
  cases hf : fixedPattern? format.index with
  | some pattern =>
    rw [hf] at hp
    obtain rfl := Except.ok.inj hp
    exact utf8Length_fixedPattern?_lt hf
  | none =>
    rw [hf] at hp
    obtain ⟨numerals, -, hp⟩ := bind_eq_ok.mp hp
    cases numerals with
    | none =>
      obtain rfl := pure_eq_ok.mp hp
      exact utf8Length_lower_lt h
    | some numerals =>
      obtain rfl := pure_eq_ok.mp hp
      split <;> decide

end Lowering

section Numbers

/-- The number of places of a layout, with those of its exponent. -/
def places (layout : Layout) : Nat :=
  layout.integer.length + layout.fraction.length + layout.exponent.elim 0 Exponent.minDigits

/-- The number of letters of a tag for elapsed time. -/
def tagLength : FormatCode.Piece → Nat
  | .elapsed _ width => width
  | _ => 0

/-- The code of a format is a text in memory, and has no more places and letters in a tag than
padded text has characters. -/
structure InLimits (format : ResolvedFormat) : Prop where
  code_lt : format.code.utf8Length < 2 ^ 63
  places_le : ∀ text pattern, NumberCode.patternOf format = .ok text →
    NumberPattern.parse text = .ok pattern → places pattern.layout ≤ 65535
  tagLength_le : ∀ piece ∈ FormatCode.pieces format.code, tagLength piece ≤ 65535

variable {format : ResolvedFormat}

theorem withGlyphs_eq (numerals : Option Numerals) (t : Text) :
    withGlyphs numerals t =
      some (match numerals with
        | some numerals => t.map numerals.glyph
        | none => t) := by
  cases numerals with
  | none => rfl
  | some numerals => exact mapM_eq_some fun c _ => glyph_eq numerals c

theorem readPattern_eq {text : Text} (h : text.utf8Length < 2 ^ 64) :
    (readPattern text).run = some (NumberCode.readPattern text) :=
  congrArg (Option.map (Except.mapError RenderError.pattern)) (run_parse h)

theorem parse_of_readPattern {text : Text} {pattern : NumberPattern}
    (h : NumberCode.readPattern text = .ok pattern) : NumberPattern.parse text = .ok pattern := by
  rw [NumberCode.readPattern] at h
  cases hp : NumberPattern.parse text with
  | ok found =>
    rw [hp] at h
    exact congrArg _ (Except.ok.inj h)
  | error fault =>
    rw [hp] at h
    cases h

theorem renderNumber_eq (h : InLimits format) (value : Binary64) (locale : Locale) :
    (renderNumber value format locale).run = some (NumberCode.render value format locale) := by
  rw [renderNumber, NumberCode.render]
  refine run_bind_eq (patternOf_eq h.code_lt) fun text htext => ?_
  have hoffsets := utf8Length_patternOf_lt h.code_lt htext
  refine run_bind_eq (readPattern_eq hoffsets) fun pattern hread => ?_
  have hparse := parse_of_readPattern hread
  have hfits : LayoutFits pattern.layout :=
    ⟨h.places_le text pattern htext hparse, fun _ => groupSize_of_parse hparse⟩
  refine (run_lift_bind (apply_eq hfits) _).trans ?_
  refine run_bind_eq (numeralsOf_eq h.code_lt) fun numerals _ => ?_
  refine (run_lift_bind (withGlyphs_eq numerals _) _).trans ?_
  cases numerals <;> rfl

theorem renderNumeric_eq (h : InLimits format) (value : Binary64) (options : Options) :
    renderNumeric value format options =
      some (CellDisplay.renderNumber value format options).text := by
  have hcode : format.code.utf8Length < 2 ^ 64 := Nat.lt_trans h.code_lt (by decide)
  rw [renderNumeric, CellDisplay.renderNumber, route?_eq format hcode, Option.bind_eq_bind,
    Option.bind_some]
  cases DateCode.route? format with
  | some route =>
    rw [Option.map_some]
    dsimp only
    rw [renderDate_eq route hcode fun _ _ hp => Nat.lt_succ_of_le (h.tagLength_le _ hp),
      Option.bind_eq_bind, Option.bind_some]
    cases DateCode.render value format route options <;> rfl
  | none =>
    rw [Option.map_none]
    dsimp only
    rw [renderNumber_eq h, Option.bind_eq_bind, Option.bind_some]
    cases NumberCode.render value format options.locale <;> rfl

/-- Rendering never fails: every operation on offsets, tables, differences, integers of a fixed
width and divisors succeeds, and together they give the text of the rendering. -/
theorem render_eq_some (request : Request) (h : InLimits request.format) :
    render request = some request.render.text := by
  obtain ⟨cell, format, options⟩ := request
  cases cell with
  | numeric value => exact renderNumeric_eq h value options
  | formula result =>
    cases result with
    | number value => exact renderNumeric_eq h value options
    | text t => rfl
  | _ => rfl

theorem inLimits_of_parse {text : Text} {pattern : NumberPattern}
    (hcode : format.code.utf8Length < 2 ^ 63) (ht : NumberCode.patternOf format = .ok text)
    (hp : NumberPattern.parse text = .ok pattern) (hplaces : places pattern.layout ≤ 65535)
    (htags : ∀ piece ∈ FormatCode.pieces format.code, tagLength piece ≤ 65535) :
    InLimits format := by
  refine ⟨hcode, fun text' pattern' ht' hp' => ?_, htags⟩
  obtain rfl := Except.ok.inj (ht.symm.trans ht')
  obtain rfl := Except.ok.inj (hp.symm.trans hp')
  exact hplaces

theorem render_eq_some_scientific_elapsed :
    (InLimits ⟨164, 164, "\"¥\"#,##0.0?E+00;[Red]0".toList⟩ ∧
      render ⟨.formula (.number (.ofInt (-1234))),
        ⟨164, 164, "\"¥\"#,##0.0?E+00;[Red]0".toList⟩, .ofLocale .deDE⟩ =
          some "-\\1234,0E+00".toList) ∧
    InLimits ⟨164, 164, "[hhh]:mm:ss.0".toList⟩ ∧
      render ⟨.numeric (.ofRatio 362853 8), ⟨164, 164, "[hhh]:mm:ss.0".toList⟩,
        .ofLocale .jaJP⟩ = some "1088559:00:00.0".toList := by
  have hscientific : InLimits ⟨164, 164, "\"¥\"#,##0.0?E+00;[Red]0".toList⟩ := by
    have ht : NumberCode.patternOf ⟨164, 164, "\"¥\"#,##0.0?E+00;[Red]0".toList⟩ =
        .ok "'¥'#,##0.0#E+00".toList := by decide +kernel
    have hp : NumberPattern.parse "'¥'#,##0.0#E+00".toList =
        .ok ⟨⟨[.optional, .optional, .optional, .required], [.required, .optional], some 3,
          some ⟨2, true⟩⟩, ⟨[.literal "¥".toList], []⟩, none⟩ := by decide +kernel
    exact inLimits_of_parse (by decide) ht hp (by decide) (by decide +kernel)
  have helapsed : InLimits ⟨164, 164, "[hhh]:mm:ss.0".toList⟩ := by
    have ht : NumberCode.patternOf ⟨164, 164, "[hhh]:mm:ss.0".toList⟩ =
        .ok ":mm:ss.0".toList := by decide +kernel
    have hp : NumberPattern.parse ":mm:ss.0".toList =
        .ok ⟨⟨[], [.required], none, none⟩, ⟨[.literal ":mm:ss".toList], []⟩, none⟩ := by
      decide +kernel
    exact inLimits_of_parse (by decide) ht hp (by decide) (by decide +kernel)
  exact ⟨⟨hscientific, (render_eq_some _ hscientific).trans (by decide +kernel)⟩,
    helapsed, (render_eq_some _ helapsed).trans (by decide +kernel)⟩

end Numbers

end CellDisplay.Checked
