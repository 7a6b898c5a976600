import CellDisplay.Proofs.NumberPattern.Engineering
import CellDisplay.Proofs.NumberPattern.Field

/-! # Numbers and their negatives

A number and its negative have one scaled magnitude, and so the same digits. They are shown alike
if the digits are zeros. Zero has no digits if the factors of the affixes overflow: its scaled
magnitude is not a number then, and letters stand in the place of digits.
-/

namespace CellDisplay

open Text Decimal

namespace NumberPattern

open Checked (roundedFor carried shownMantissa mantissa_of_not_isZero)

variable {layout : Layout} {locale : Locale} {value : Binary64} {pattern : NumberPattern}
  {places size least units : ℕ} {rule : MantissaRule} {whole fraction text : Text} {c : Char}

section Zero

theorem denotes_mantissa_zero (rule : MantissaRule) (places : ℕ) (h : value.isZero) :
    (mantissa rule places value).Denotes places 0 := by
  rw [mantissa, if_pos h]
  refine ⟨isDigits_zeros 1, isDigits_zeros places, List.length_replicate, ?_⟩
  rw [value_zeros, value_singleton]
  simp

/-- The mantissa of a finite number denotes a magnitude, and zero only for zero. -/
theorem exists_denotes_ofLayout (layout : Layout) (h : value.IsFinite) :
    ∃ m, (mantissa (.ofLayout layout) layout.maxFraction value).Denotes layout.maxFraction m ∧
      (m = 0 ↔ value.magnitude = 0) := by
  rcases value.magnitude_nonneg.eq_or_lt with hz | hpos
  · exact ⟨0, denotes_mantissa_zero _ _ (h.isZero_iff.mpr hz.symm),
      iff_of_true rfl hz.symm⟩
  · by_cases hsteps : layout.minInteger < layout.integer.length ∧ 1 < layout.integer.length
    · obtain ⟨m, hdenotes, -, hlow, -⟩ :=
        exists_denotes_engineering layout.maxFraction hsteps.2 hpos
      rw [← ofLayout_eq_engineering hsteps.1 hsteps.2] at hdenotes
      exact ⟨m, hdenotes, iff_of_false (lt_of_lt_of_le one_pos hlow).ne' hpos.ne'⟩
    · have hcount : layout.minInteger ≤ layout.integer.length := List.count_le_length
      obtain ⟨m, hdenotes, -, hlow, -⟩ := exists_denotes_plain
        layout.maxFraction (Nat.le_max_right layout.minInteger 1) hpos
      rw [← ofLayout_eq_plain (by omega)] at hdenotes
      exact ⟨m, hdenotes, iff_of_false (lt_of_lt_of_le (by positivity) hlow).ne' hpos.ne'⟩

/-- The field of a finite number shows a magnitude, which is zero for zero. -/
theorem exists_renders_digitField (locale : Locale) (hsize : layout.groupSize ≠ some 0)
    (h : value.IsFinite) : ∃ m e, 0 ≤ m ∧
      layout.Renders locale m e (digitField layout locale value).text ∧
      ((digitField layout locale value).isZero ↔ m = 0) ∧ (value.magnitude = 0 → m = 0) := by
  cases hspec : layout.exponent with
  | none =>
    obtain ⟨r, hround, hr, hrenders, hzero⟩ :=
      exists_renders_fixedField locale hspec hsize h
    rw [digitField, hspec]
    refine ⟨r, none, hr, hrenders, hzero, fun hz => ?_⟩
    rw [hz] at hround
    exact hround.unique (zpow_pos (by norm_num) _) (isRounding_zero (zpow_pos (by norm_num) _))
  | some spec =>
    obtain ⟨m, hdenotes, hm⟩ := exists_denotes_ofLayout layout h
    obtain ⟨hrenders, hzero⟩ := renders_scientificField locale hspec hdenotes
    rw [digitField, hspec]
    exact ⟨m, _, hdenotes.nonneg, hrenders, hzero, hm.mpr⟩

end Zero

section Letters

theorem mem_wholeDigits (hc : c ≠ '0') : c ∈ wholeDigits least (c :: whole) fraction := by
  have hmem : c ∈ zeroPadded least ((c :: whole).dropWhile (· = '0')) := by
    rw [List.dropWhile_cons_of_neg (by simpa using hc), zeroPadded]
    exact List.mem_append_right _ List.mem_cons_self
  rw [wholeDigits, if_neg fun h => List.ne_nil_of_mem hmem h.1]
  exact hmem

theorem allZeros_cons (hc : c ≠ '0') : allZeros (c :: whole) = false := by
  rw [allZeros, List.all_cons, decide_eq_false hc, Bool.false_and]

/-- The mantissa of no number starts with a letter. -/
theorem exists_mantissa_nan (rule : MantissaRule) (places : ℕ) :
    ∃ rest, (mantissa rule places .nan).whole = 'N' :: rest := by
  have hrounded (first : ℤ) : roundedFor rule places .nan first = ⟨nanText, 0⟩ := rfl
  rw [mantissa_of_not_isZero (by decide), hrounded, shownMantissa]
  dsimp only
  generalize carried rule 0 _ = e
  have hcount : 0 < integerCount 0 e := by
    rw [integerCount]
    omega
  obtain ⟨n, hn⟩ := Nat.exists_eq_add_of_lt hcount
  rw [hn, Nat.zero_add, Nat.add_right_comm]
  exact ⟨_, rfl⟩

/-- No number has letters in the place of its digits, which are no zeros. -/
theorem letter_mem_digitField_nan (layout : Layout) (locale : Locale) :
    'N' ∈ (digitField layout locale .nan).text ∧
      (digitField layout locale .nan).isZero = false := by
  cases hspec : layout.exponent with
  | none =>
    rw [digitField, hspec]
    have hmem : 'N' ∈ wholeDigits layout.minInteger nanText (trimFraction layout.minFraction []) :=
      mem_wholeDigits (by decide)
    refine ⟨List.mem_append_left _ ?_, ?_⟩
    · cases layout.groupSize with
      | none => exact hmem
      | some size => exact mem_grouped size locale.groupSeparator hmem
    · rw [fixedField]
      rfl
  | some spec =>
    obtain ⟨rest, hrest⟩ := exists_mantissa_nan (.ofLayout layout) layout.maxFraction
    rw [digitField, hspec]
    simp only [scientificField, hrest]
    refine ⟨?_, ?_⟩
    · exact List.mem_append_left _ (List.mem_append_left _ (mem_wholeDigits (by decide)))
    · rw [allZeros_cons (by decide), Bool.false_and]

end Letters

section Factors

theorem exists_factor_eq (part : AffixPart) :
    ∃ units hu, part.factor = .finite false units hu ∧ 0 < units := by
  have hfactor {n : ℕ} (hn : n < 2 ^ 53) (hpos : 0 < n) :
      ∃ units hu, Binary64.ofInt n = .finite false units hu ∧ 0 < units :=
    ⟨_, _, Binary64.ofInt_natCast hn, Nat.mul_pos hpos Binary64.unitsPerOne_pos⟩
  cases part with
  | literal t => exact hfactor (n := 1) (by decide) (by decide)
  | percent => exact hfactor (n := 100) (by decide) (by decide)
  | perMille => exact hfactor (n := 1000) (by decide) (by decide)

theorem foldl_factor_ne_nan (parts : List AffixPart) (h : value ≠ .nan) :
    parts.foldl (fun product part => product * part.factor) value ≠ .nan := by
  induction parts generalizing value with
  | nil => exact h
  | cons part parts ih =>
    obtain ⟨units, hu, hfactor, hpos⟩ := exists_factor_eq part
    rw [List.foldl_cons, hfactor]
    exact ih (Binary64.mul_finite_ne_nan h hpos)

theorem multiplier_ne_nan (affixes : Affixes) : affixes.multiplier ≠ .nan :=
  foldl_factor_ne_nan _ (by decide +kernel)

/-- Zero is scaled to zero, unless the factors overflow. -/
theorem scaledMagnitude_zero (pattern : NumberPattern) (negative : Bool) :
    (pattern.positive.multiplier.IsFinite → ∃ negative',
      pattern.scaledMagnitude (.finite negative 0 Binary64.representable_zero) =
        .finite negative' 0 Binary64.representable_zero) ∧
    (¬ pattern.positive.multiplier.IsFinite →
      pattern.scaledMagnitude (.finite negative 0 Binary64.representable_zero) = .nan) := by
  have hnan := multiplier_ne_nan pattern.positive
  rw [scaledMagnitude, Binary64.abs]
  generalize pattern.positive.multiplier = factor at hnan ⊢
  cases factor with
  | nan => exact absurd rfl hnan
  | infinite negative' => exact ⟨fun h => absurd rfl (h.ne_infinite negative'), fun _ => rfl⟩
  | finite negative' units hu =>
    have hzero := Binary64.nearest_mul (false != negative') 0 Binary64.unitsPerOne_pos
    rw [Nat.zero_mul] at hzero
    refine ⟨fun _ => ⟨false != negative', ?_⟩, fun h => absurd ⟨_, _, _, rfl⟩ h⟩
    rw [Binary64.finite_mul_finite, Nat.zero_mul, hzero, Binary64.nearest_of_representable]

end Factors

/-- The field of a magnitude is shown for both signs, and for the negative one as such unless it
shows zeros only. -/
theorem apply_finite {hu : Binary64.Representable units} {scaled : Binary64} (locale : Locale)
    (h : pattern.scaledMagnitude (.finite false units hu) = scaled)
    (hscaled : ∀ negative, scaled ≠ .infinite negative) :
    pattern.apply locale (.finite false units hu) =
        pattern.positive.around (digitField pattern.layout locale scaled).text ∧
      pattern.apply locale (.finite true units hu) =
        if (digitField pattern.layout locale scaled).isZero then
          pattern.positive.around (digitField pattern.layout locale scaled).text
        else pattern.negated (digitField pattern.layout locale scaled).text := by
  have h' : pattern.scaledMagnitude (.finite true units hu) = scaled := h
  constructor
  · rw [apply_of_ne_infinite Binary64.noConfusion (h ▸ hscaled), h]
    rfl
  · rw [apply_of_ne_infinite Binary64.noConfusion (h' ▸ hscaled), h', Binary64.isNegative,
      withAffixes_negative]

/-- A number and its negative are shown by the same digits, and alike if these are zeros. So is
zero, unless the factors of the affixes overflow; it is then shown by letters, and with its sign. -/
theorem apply_sign_symmetric (locale : Locale) (hparse : parse text = .ok pattern) :
    (∀ units hu, 0 < units → (pattern.scaledMagnitude (.finite false units hu)).IsFinite →
      ∃ m whole fraction e digits, 0 ≤ m ∧ pattern.layout.Shows m whole fraction ∧
        pattern.layout.Writes locale whole fraction e digits ∧
        pattern.apply locale (.finite false units hu) = pattern.positive.around digits ∧
        pattern.apply locale (.finite true units hu) =
          if m = 0 then pattern.apply locale (.finite false units hu) else pattern.negated digits) ∧
    (pattern.positive.multiplier.IsFinite →
      pattern.apply locale (.finite true 0 Binary64.representable_zero) =
        pattern.apply locale (.finite false 0 Binary64.representable_zero)) ∧
    (¬ pattern.positive.multiplier.IsFinite → ∃ digits, 'N' ∈ digits ∧
      pattern.apply locale (.finite false 0 Binary64.representable_zero) =
        pattern.positive.around digits ∧
      pattern.apply locale (.finite true 0 Binary64.representable_zero) =
        pattern.negated digits) := by
  have hsize := groupSize_ne_zero_of_parse hparse
  refine ⟨fun units hu _ hfinite => ?_, fun hfactor => ?_, fun hfactor => ?_⟩
  · obtain ⟨m, e, hm, ⟨whole, fraction, hshows, hwrites⟩, hzero, -⟩ :=
      exists_renders_digitField locale hsize hfinite
    obtain ⟨hpositive, hnegative⟩ := apply_finite locale rfl hfinite.ne_infinite
    refine ⟨m, whole, fraction, e, _, hm, hshows, hwrites, hpositive, ?_⟩
    rw [hnegative, hpositive]
    exact if_congr hzero rfl rfl
  · obtain ⟨negative, hscaled⟩ := (scaledMagnitude_zero pattern false).1 hfactor
    obtain ⟨m, e, -, -, hzero, hm⟩ := exists_renders_digitField locale hsize ⟨_, _, _, hscaled⟩
    obtain ⟨hpositive, hnegative⟩ := apply_finite locale hscaled fun _ => Binary64.noConfusion
    rw [hscaled] at hzero hm
    rw [hnegative, hpositive, if_pos (hzero.mpr (hm (Binary64.magnitude_zero _ _)))]
  · obtain ⟨hletter, hzero⟩ := letter_mem_digitField_nan pattern.layout locale
    obtain ⟨hpositive, hnegative⟩ := apply_finite locale
      ((scaledMagnitude_zero pattern false).2 hfactor) fun _ => Binary64.noConfusion
    rw [hzero, if_neg Bool.false_ne_true] at hnegative
    exact ⟨_, hletter, hpositive, hnegative⟩

/-- The pattern `0.0;(0.0)`. -/
def parenthesesPattern : NumberPattern :=
  ⟨⟨[.required], [.required], none, none⟩, ⟨[], []⟩,
    some ⟨[.literal ['(']], [.literal [')']]⟩⟩

theorem apply_sign_symmetric_parentheses :
    parenthesesPattern.apply .enUS (.ofInt (-1) * .ofRatio 5 4) =
      '(' :: parenthesesPattern.apply .enUS (.ofRatio 5 4) ++ [')'] ∧
    parenthesesPattern.apply .enUS (.finite true 0 Binary64.representable_zero) =
      parenthesesPattern.apply .enUS (.finite false 0 Binary64.representable_zero) := by
  have hparse : parse "0.0;(0.0)".toList = .ok parenthesesPattern := by decide +kernel
  have hpositive : Binary64.ofRatio 5 4 =
      .finite false (5 * 2 ^ 1072) (Binary64.representable_mul (by norm_num) (by norm_num)) := by
    decide +kernel
  have hnegative : Binary64.ofInt (-1) * .ofRatio 5 4 =
      .finite true (5 * 2 ^ 1072) (Binary64.representable_mul (by norm_num) (by norm_num)) := by
    decide +kernel
  have hscaled : parenthesesPattern.scaledMagnitude (.ofRatio 5 4) = .ofRatio 5 4 := by
    decide +kernel
  have hfactor : parenthesesPattern.positive.multiplier =
      .finite false (1 * 2 ^ 1074) (Binary64.representable_mul (by norm_num) (by norm_num)) := by
    decide +kernel
  have hdiffer : parenthesesPattern.apply .enUS (.ofInt (-1) * .ofRatio 5 4) ≠
      parenthesesPattern.apply .enUS (.ofRatio 5 4) := by
    decide +kernel
  rw [hpositive] at hscaled
  obtain ⟨hpair, hzero, -⟩ := apply_sign_symmetric .enUS hparse
  obtain ⟨m, whole, fraction, e, digits, -, -, -, happly, happly'⟩ :=
    hpair (5 * 2 ^ 1072) _ (by positivity) ⟨_, _, _, hscaled⟩
  rw [hnegative, hpositive] at hdiffer ⊢
  rw [if_neg fun hm => hdiffer (by rw [happly', if_pos hm])] at happly'
  refine ⟨?_, hzero ⟨_, _, _, hfactor⟩⟩
  rw [happly, happly']
  simp [negated, parenthesesPattern, Affixes.around, AffixPart.text]

/-- The pattern `0%%…`, with `count` percent signs. -/
def percentPattern (count : ℕ) : NumberPattern :=
  ⟨⟨[.required], [], none, none⟩, ⟨[], List.replicate count .percent⟩, none⟩

/-- The factors of so many percent signs overflow, and zero is shown with its sign. -/
theorem apply_negative_zero_ne_percents :
    parse ('0' :: List.replicate 155 '%') = .ok (percentPattern 155) ∧
      (percentPattern 155).apply .enUS (.finite true 0 Binary64.representable_zero) ≠
        (percentPattern 155).apply .enUS (.finite false 0 Binary64.representable_zero) := by
  have hfactor : (percentPattern 155).positive.multiplier = .infinite false := by decide +kernel
  have hscaled := (scaledMagnitude_zero (percentPattern 155) false).2
    fun h => h.ne_infinite false hfactor
  obtain ⟨hpositive, hnegative⟩ := apply_finite .enUS hscaled fun _ => Binary64.noConfusion
  refine ⟨by decide +kernel, ?_⟩
  rw [hpositive, hnegative]
  decide +kernel

end NumberPattern

end CellDisplay
