import CellDisplay.DateCode.Route
import CellDisplay.NumberCode.Rendering
import CellDisplay.Proofs.Format.Section
import CellDisplay.Proofs.NumberPattern.Field
import CellDisplay.Proofs.Text.Search

/-! # What stands behind the first section

The pieces of a code are those of its first section, and so are its locale tag and its clock. Only
the marker for the digits of another script, and the general keyword next to it, are looked for in
the whole code, so that behind the first section they change how numbers are rendered.
-/

namespace CellDisplay

open FormatCode

/-- The format with its code cut down to the first section. -/
def ResolvedFormat.firstSection (format : ResolvedFormat) : ResolvedFormat :=
  { format with code := FormatCode.firstSection format.code }

namespace DateCode

theorem clockOf_firstSection (code : Text) (segments : List Segment) :
    clockOf (firstSection code) segments = clockOf code segments := by
  rw [clockOf, clockOf, isPrefixOf_firstSection (by decide) (by decide)]

theorem taggedOptions_firstSection (code : Text) (options : Options) :
    taggedOptions (firstSection code) options = taggedOptions code options := by
  rw [taggedOptions, taggedOptions, isPrefixOf_firstSection (by decide) (by decide)]

theorem substitute_firstSection (pieces : List Piece) (code : Text) (fields : DateFields) :
    substitute pieces (firstSection code) fields = substitute pieces code fields := by
  simp only [substitute, clockOf_firstSection]

/-- Replacing the tokens of a code shows a date by the first section alone. -/
theorem render_substitute_firstSection (serial : Binary64) (format : ResolvedFormat)
    (options : Options) :
    render serial format .substitute options =
      render serial format.firstSection .substitute options := by
  simp only [render, ResolvedFormat.firstSection, pieces_firstSection,
    taggedOptions_firstSection, substitute_firstSection]

end DateCode

namespace NumberCode

variable {value : Binary64} {format : ResolvedFormat} {locale : Locale} {code t : Text} {c : Char}

section Plan

/-- The pattern of a code, by the digits that it asks for. -/
def patternFor (code : Text) : Option Numerals → Text
  | some _ => if Text.contains generalWord code then fractionPattern else ['0']
  | none => lower code

/-- The text of a number in the digits that a code asks for. -/
def inNumerals (t : Text) : Option Numerals → Text
  | some numerals => t.map numerals.glyph
  | none => t

/-- The text of a number under a pattern, in the digits that a code asks for. -/
def shown? (value : Binary64) (locale : Locale) (numerals : Option Numerals) (pattern : Text) :
    Option Text :=
  (readPattern pattern).toOption.map fun pattern =>
    finish (inNumerals (pattern.apply locale value) numerals)

theorem toOption_render_of_some {pattern : Text} (h : fixedPattern? format.index = some pattern) :
    (render value format locale).toOption = shown? value locale none pattern := by
  have hpattern : patternOf format = .ok pattern := by simp [patternOf, h, pure, Except.pure]
  have hnumerals : numeralsOf format = .ok none := by simp [numeralsOf, h]
  rw [render, hpattern, hnumerals, shown?]
  change (readPattern pattern >>= _).toOption = _
  cases readPattern pattern <;> rfl

theorem toOption_render_of_none (h : fixedPattern? format.index = none) :
    (render value format locale).toOption =
      (Numerals.ofCode format.code).toOption.bind fun numerals =>
        shown? value locale numerals (patternFor format.code numerals) := by
  have hnumerals : numeralsOf format = Numerals.ofCode format.code := by simp [numeralsOf, h]
  have hpattern : patternOf format = Numerals.ofCode format.code >>= fun numerals =>
      .ok (patternFor format.code numerals) := by
    rw [patternOf, h]
    refine congrArg (Numerals.ofCode format.code >>= ·) (funext fun numerals => ?_)
    cases numerals <;> rfl
  rw [render, hpattern, hnumerals]
  cases Numerals.ofCode format.code with
  | error error => rfl
  | ok numerals =>
    change (readPattern (patternFor format.code numerals) >>= _).toOption = shown? _ _ _ _
    rw [shown?]
    cases readPattern (patternFor format.code numerals) with
    | error error => rfl
    | ok pattern => cases numerals <;> rfl

end Plan

section Marker

theorem contains_of_firstSection {word : Text} (h : Text.contains word (firstSection code)) :
    Text.contains word code :=
  Text.contains_of_isInfix (firstSection_prefix_self code).isInfix h

theorem ofCode_of_not_contains (h : Text.contains Numerals.marker code = false) :
    Numerals.ofCode code = .ok none := by
  rw [Text.contains, Option.isSome_eq_false_iff, Option.isNone_iff_eq_none] at h
  rw [Numerals.ofCode, h]

theorem toOption_ofCode_ne (h : Text.contains Numerals.marker code) :
    (Numerals.ofCode code).toOption ≠ some none := by
  obtain ⟨⟨before, rest⟩, hb⟩ := Option.isSome_iff_exists.mp h
  rw [Numerals.ofCode, hb]
  dsimp only
  split <;> simp [Except.toOption]

/-- A number behind the marker stands in the section of the marker. -/
theorem toOption_ofCode_append (h : Text.contains Numerals.marker t) (rest : Text) :
    (Numerals.ofCode (t ++ ';' :: rest)).toOption = (Numerals.ofCode t).toOption := by
  obtain ⟨⟨before, behind⟩, hb⟩ := Option.isSome_iff_exists.mp h
  have hlength := Text.length_le_of_startsWith (Text.startsWith_of_breakOn hb)
  rw [Numerals.ofCode, Numerals.ofCode, hb, Text.breakOn_append hb]
  dsimp only
  rw [List.drop_append_of_le_length hlength]
  cases behind.drop Numerals.marker.length with
  | nil => rfl -- the semicolon names no digits, and neither does the end of the code
  | cons c behind =>
    rw [List.cons_append]
    split <;> split <;> simp_all [Except.toOption]

theorem toOption_ofCode_firstSection (h : Text.contains Numerals.marker (firstSection code)) :
    (Numerals.ofCode code).toOption = (Numerals.ofCode (firstSection code)).toOption := by
  by_cases hw : firstSection code = code
  · rw [hw]
  · obtain ⟨rest, hr⟩ := exists_of_firstSection_ne hw
    rw [← toOption_ofCode_append h rest, ← hr]

end Marker

section Glyphs

variable {numerals : Numerals} {pattern : Text}

theorem mem_finish (hc : c ∈ t) (h : c.isAlphanum) : c ∈ finish t := by
  have hspace : decide (c = ' ') = false := by
    rw [decide_eq_false_iff_not]
    rintro rfl
    exact absurd h (by decide)
  have hyen : c ∉ ['¥', '￥'] := by
    intro hm
    rcases List.mem_pair.mp hm with rfl | rfl
    · exact absurd h (by decide)
    · exact absurd h (by decide)
  exact List.mem_map.mpr ⟨c, Text.mem_trimEnd hc hspace, if_neg hyen⟩

theorem patternFor_some_mem (code : Text) (numerals : Numerals) :
    patternFor code (some numerals) ∈ [fractionPattern, ['0']] := by
  rw [patternFor]
  split <;> simp

theorem shown?_one (h : pattern ∈ [fractionPattern, ['0']]) :
    shown? 1 .enUS (some numerals) pattern = some [numerals.glyph '1'] := by
  rcases List.mem_pair.mp h with rfl | rfl
  · cases numerals <;> decide +kernel
  · cases numerals <;> decide +kernel

theorem exists_mem_of_shown? (h : shown? value locale none pattern = some t) :
    ∃ c ∈ t, c.isAlphanum := by
  obtain ⟨read, -, rfl⟩ := Option.map_eq_some_iff.mp h
  obtain ⟨c, hc, hd⟩ := NumberPattern.exists_mem_apply read locale value
  exact ⟨c, mem_finish hc hd, hd⟩

/-- A number shown by a glyph alone is not shown alike without the glyphs. -/
theorem shown?_one_ne (h : pattern ∈ [fractionPattern, ['0']]) (other : Text) :
    shown? 1 .enUS (some numerals) pattern ≠ shown? 1 .enUS none other := by
  rw [shown?_one h]
  intro heq
  obtain ⟨c, hc, hd⟩ := exists_mem_of_shown? heq.symm
  rw [List.mem_singleton.mp hc] at hd
  cases numerals <;> exact absurd hd (by decide)

/-- One and a half is rounded under the one pattern and not under the other. -/
theorem shown?_fraction_ne (numerals : Numerals) :
    shown? (.ofRatio 3 2) .enUS (some numerals) fractionPattern ≠
      shown? (.ofRatio 3 2) .enUS (some numerals) ['0'] := by
  cases numerals <;> decide +kernel

end Glyphs

section Cut

theorem lower_firstSection (code : Text) : lower (firstSection code) = lower code := by
  simp only [lower, pieces_firstSection]

/-- What a code says by its marker, it says in its first section. -/
def MarksFirst (code : Text) : Prop :=
  Text.contains Numerals.marker code →
    Text.contains Numerals.marker (firstSection code) ∧
      (Text.contains generalWord code → Text.contains generalWord (firstSection code))

/-- The marker names no digits, and the first section alone does not render numbers either. -/
def FailsCut (code : Text) : Prop :=
  (Numerals.ofCode code).toOption = none ∧
    (Text.contains Numerals.marker (firstSection code) ∨ (readPattern (lower code)).toOption = none)

theorem patternFor_firstSection
    (h : Text.contains generalWord code → Text.contains generalWord (firstSection code))
    (numerals : Option Numerals) :
    patternFor (firstSection code) numerals = patternFor code numerals := by
  cases numerals with
  | none => exact lower_firstSection code
  | some numerals =>
    have hword : Text.contains generalWord (firstSection code) = Text.contains generalWord code :=
      Bool.eq_iff_iff.mpr ⟨contains_of_firstSection, h⟩
    rw [patternFor, patternFor, hword]

theorem toOption_render_firstSection (h : fixedPattern? format.index = none) :
    (render value format.firstSection locale).toOption =
      (Numerals.ofCode (firstSection format.code)).toOption.bind fun numerals =>
        shown? value locale numerals (patternFor (firstSection format.code) numerals) :=
  toOption_render_of_none h

theorem toOption_render_unmarked (hi : fixedPattern? format.index = none)
    (hm : ¬ Text.contains Numerals.marker (firstSection format.code)) :
    (render value format.firstSection locale).toOption =
      shown? value locale none (lower format.code) := by
  rw [toOption_render_firstSection hi, ofCode_of_not_contains (by simpa using hm)]
  exact congrArg (shown? value locale none) (lower_firstSection format.code)

theorem render_firstSection_of_isSome (h : (fixedPattern? format.index).isSome) :
    (render value format locale).toOption =
      (render value format.firstSection locale).toOption := by
  obtain ⟨pattern, hp⟩ := Option.isSome_iff_exists.mp h
  have hfirst : fixedPattern? format.firstSection.index = some pattern := hp
  rw [toOption_render_of_some hp, toOption_render_of_some hfirst]

theorem render_firstSection_of_marksFirst (hi : fixedPattern? format.index = none)
    (h : MarksFirst format.code) :
    (render value format locale).toOption =
      (render value format.firstSection locale).toOption := by
  rw [toOption_render_of_none hi]
  by_cases hm : Text.contains Numerals.marker format.code
  · obtain ⟨hfirst, hword⟩ := h hm
    simp only [toOption_render_firstSection hi, toOption_ofCode_firstSection hfirst,
      patternFor_firstSection hword]
  · rw [toOption_render_unmarked hi fun hfirst => hm (contains_of_firstSection hfirst),
      ofCode_of_not_contains (by simpa using hm)]
    rfl

theorem render_firstSection_of_failsCut (hi : fixedPattern? format.index = none)
    (h : FailsCut format.code) :
    (render value format locale).toOption =
      (render value format.firstSection locale).toOption := by
  obtain ⟨hnone, h⟩ := h
  rw [toOption_render_of_none hi, hnone, Option.bind_none]
  by_cases hm : Text.contains Numerals.marker (firstSection format.code)
  · rw [toOption_render_firstSection hi, ← toOption_ofCode_firstSection hm, hnone,
      Option.bind_none]
  · rw [toOption_render_unmarked hi hm, shown?, h.resolve_left hm, Option.map_none]

/-- If the section renders numbers alike, then the marker has named its digits there or no
number is rendered. The numbers one and one and a half tell the other codes apart. -/
theorem marksFirst_or_failsCut (hi : fixedPattern? format.index = none)
    (h : ∀ value locale, (render value format locale).toOption =
      (render value format.firstSection locale).toOption) :
    MarksFirst format.code ∨ FailsCut format.code := by
  simp only [toOption_render_of_none hi] at h
  by_cases hm : Text.contains Numerals.marker format.code
  · rcases hc : (Numerals.ofCode format.code).toOption with _ | (_ | numerals)
    · refine Or.inr ⟨hc, or_iff_not_imp_left.mpr fun hfirst => ?_⟩
      have hone := h 1 .enUS
      rw [toOption_render_unmarked hi hfirst, hc, Option.bind_none, eq_comm, shown?,
        Option.map_eq_none_iff] at hone
      exact hone
    · exact absurd hc (toOption_ofCode_ne hm)
    · refine Or.inl fun _ => ?_
      have hfirst : Text.contains Numerals.marker (firstSection format.code) := by
        by_contra hfirst
        have hone := h 1 .enUS
        rw [toOption_render_unmarked hi hfirst, hc, Option.bind_some] at hone
        exact shown?_one_ne (patternFor_some_mem _ _) _ hone
      refine ⟨hfirst, fun hword => ?_⟩
      by_contra hw
      have hhalf := h (.ofRatio 3 2) .enUS
      rw [toOption_render_firstSection hi, ← toOption_ofCode_firstSection hfirst, hc,
        Option.bind_some, Option.bind_some, patternFor, if_pos hword, patternFor, if_neg hw]
        at hhalf
      exact shown?_fraction_ne numerals hhalf
  · exact Or.inl fun h => absurd h hm

end Cut

end NumberCode

/-- The first section alone renders every number alike exactly if the index has a pattern of its
own, the section holds what the code says by its marker, or no number is rendered; and it shows
every date alike where the tokens of the code are replaced. -/
theorem ResolvedFormat.render_firstSection_iff (format : ResolvedFormat) :
    ((∀ value locale, (NumberCode.render value format locale).toOption =
        (NumberCode.render value format.firstSection locale).toOption) ↔
      (NumberCode.fixedPattern? format.index).isSome ∨ NumberCode.MarksFirst format.code ∨
        NumberCode.FailsCut format.code) ∧
    ∀ serial options, DateCode.render serial format .substitute options =
      DateCode.render serial format.firstSection .substitute options := by
  refine ⟨?_, fun serial options => DateCode.render_substitute_firstSection serial format options⟩
  rcases hi : NumberCode.fixedPattern? format.index with _ | pattern
  · constructor
    · exact fun h => Or.inr (NumberCode.marksFirst_or_failsCut hi h)
    · rintro (h | h | h) value locale
      · exact absurd h (by decide)
      · exact NumberCode.render_firstSection_of_marksFirst hi h
      · exact NumberCode.render_firstSection_of_failsCut hi h
  · refine iff_of_true (fun value locale => ?_) (Or.inl rfl)
    exact NumberCode.render_firstSection_of_isSome (by rw [hi]; rfl)

/-- A marker in the second section sets the digits of a number that the first section shows. -/
theorem ResolvedFormat.exists_render_firstSection_ne :
    ∃ (format : ResolvedFormat) (value : Binary64) (locale : Locale),
      (NumberCode.render value format locale).toOption ≠
        (NumberCode.render value format.firstSection locale).toOption :=
  ⟨⟨164, 164, "0;[DBNum1]0".toList⟩, 5, .enUS, by decide +kernel⟩

end CellDisplay
