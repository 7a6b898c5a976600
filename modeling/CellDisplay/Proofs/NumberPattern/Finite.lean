import CellDisplay.Proofs.NumberPattern.Sign

/-! # Texts of finite numbers

A finite number is shown by the name of an infinite value if its scaled magnitude overflows, and
otherwise by a field of digits and separators with the affixes for its sign. Zero is shown by a
field that denotes zero, unless the factors of the affixes overflow and letters stand in its place.
-/

namespace CellDisplay

open Text

namespace NumberPattern

variable {layout : Layout} {locale : Locale} {value : Binary64} {pattern : NumberPattern}
  {m : ℚ} {e : Option ℤ} {whole fraction text digits : Text} {spec : Exponent}

section Fields

/-- Digits and the separators of a locale. -/
def IsPlain (locale : Locale) (text : Text) : Prop :=
  ∀ c ∈ text, c.isDigit ∨ c = locale.groupSeparator ∨ c = locale.decimalSeparator

/-- Digits and separators, and behind them the letter of an exponent, at most one sign and more
digits if the layout has one. -/
def Layout.IsField (layout : Layout) (locale : Locale) (text : Text) : Prop :=
  match layout.exponent with
  | none => IsPlain locale text
  | some _ => ∃ mantissa sign digits, text = mantissa ++ 'E' :: sign ++ digits ∧
      IsPlain locale mantissa ∧ (sign = [] ∨ sign = ['-'] ∨ sign = ['+']) ∧ IsDigits digits

theorem isPlain_of_isDigits (h : IsDigits text) : IsPlain locale text := fun c hc => .inl (h c hc)

theorem isPlain_append {s t : Text} (hs : IsPlain locale s) (ht : IsPlain locale t) :
    IsPlain locale (s ++ t) := fun c hc =>
  (List.mem_append.mp hc).elim (hs c) (ht c)

theorem isPlain_pointed (h : IsDigits fraction) :
    IsPlain locale (if fraction = [] then [] else locale.decimalSeparator :: fraction) := by
  split
  · exact fun c hc => absurd hc List.not_mem_nil
  · rintro c (_ | ⟨_, hc⟩)
    · exact .inr (.inr rfl)
    · exact .inl (h c hc)

theorem isPlain_of_isGrouped (h : IsDigits whole)
    (hg : IsGrouped locale.groupSeparator layout.groupSize whole text) : IsPlain locale text := by
  revert hg
  cases layout.groupSize with
  | none =>
    rintro rfl
    exact isPlain_of_isDigits h
  | some size =>
    rintro ⟨first, rest, rfl, rfl, -, -, -⟩
    refine isPlain_append (fun c hc => .inl (h c (List.mem_append_left _ hc))) fun c hc => ?_
    obtain ⟨group, hgroup, hc⟩ := List.mem_flatMap.mp hc
    rcases List.mem_cons.mp hc with rfl | hc
    · exact .inr (.inl rfl)
    · exact .inl (h c (List.mem_append_right _ (List.mem_flatten.mpr ⟨group, hgroup, hc⟩)))

theorem Layout.Writes.isField (hwhole : IsDigits whole) (hfraction : IsDigits fraction)
    (h : layout.Writes locale whole fraction e text) : layout.IsField locale text := by
  cases h with
  | fixed hspec hg =>
    rw [IsField, hspec]
    exact isPlain_append (isPlain_of_isGrouped hwhole hg) (isPlain_pointed hfraction)
  | scientific hspec he =>
    obtain ⟨digits, hdigits, rfl⟩ := he
    rw [IsField, hspec]
    refine ⟨_, _, digits, (List.append_assoc ..).symm,
      isPlain_append (isPlain_of_isDigits hwhole) (isPlain_pointed hfraction), ?_,
      hdigits.isDigits⟩
    split
    · exact .inr (.inl rfl)
    · split
      · exact .inr (.inr rfl)
      · exact .inl rfl

theorem Layout.Renders.isField (h : layout.Renders locale m e text) :
    layout.IsField locale text := by
  obtain ⟨whole, fraction, hshows, hwrites⟩ := h
  exact hwrites.isField hshows.pads.isDigits hshows.trims.isDigits

/-- No letter but that of an exponent stands in a field, unless it is a separator. -/
theorem not_isField_of_letter (hletter : 'N' ∈ text) (hgroup : locale.groupSeparator ≠ 'N')
    (hpoint : locale.decimalSeparator ≠ 'N') : ¬ layout.IsField locale text := by
  have hplain {t : Text} (h : IsPlain locale t) : 'N' ∉ t := fun hN => by
    rcases h 'N' hN with h | h | h
    · exact absurd h (by decide)
    · exact hgroup h.symm
    · exact hpoint h.symm
  intro h
  rw [Layout.IsField] at h
  split at h
  · exact hplain h hletter
  · obtain ⟨mantissa, sign, digits, rfl, hmantissa, hsign, hdigits⟩ := h
    have hexponent : 'N' ∉ digits := hplain (isPlain_of_isDigits hdigits)
    have hmantissa := hplain hmantissa
    rcases hsign with rfl | rfl | rfl <;> simp_all

end Fields

/-- How a finite number is shown: by the name of an infinite value if it is not zero and its scaled
magnitude overflows, and otherwise by a field with the affixes for its sign. The field of zero
denotes zero. -/
inductive ShowsFinite (pattern : NumberPattern) (locale : Locale) (value : Binary64) : Text → Prop
  | overflow {negative : Bool} (h : pattern.scaledMagnitude value = .infinite negative)
      (hvalue : ¬ value.isZero) :
      pattern.ShowsFinite locale value
        (if value.isNegative then "-Infinity".toList else "Infinity".toList)
  | field {m : ℚ} {e : Option ℤ} {digits : Text} (h : (pattern.scaledMagnitude value).IsFinite)
      (hrenders : pattern.layout.Renders locale m e digits)
      (hfield : pattern.layout.IsField locale digits) (hzero : value.isZero → m = 0) :
      pattern.ShowsFinite locale value
        (if value.isNegative ∧ m ≠ 0 then pattern.negated digits
          else pattern.positive.around digits)

theorem apply_of_infinite {negative : Bool} (hvalue : value ≠ .nan)
    (h : pattern.scaledMagnitude value = .infinite negative) :
    pattern.apply locale value =
      if value.isNegative then "-Infinity".toList else "Infinity".toList := by
  cases value with
  | nan => exact absurd rfl hvalue
  | infinite negative' | finite negative' units hu =>
    simp only [apply, h]
    split <;> rfl

theorem scaledMagnitude_ne_nan (hvalue : value.IsFinite) (hzero : ¬ value.isZero) :
    pattern.scaledMagnitude value ≠ .nan := by
  obtain ⟨negative, units, hu, rfl⟩ := hvalue
  rw [Binary64.isZero, beq_iff_eq] at hzero
  have hnan := multiplier_ne_nan pattern.positive
  rw [scaledMagnitude, Binary64.abs]
  generalize pattern.positive.multiplier = factor at hnan ⊢
  cases factor with
  | nan => exact absurd rfl hnan
  | infinite negative' =>
    change (if units = 0 then _ else _) ≠ _
    rw [if_neg hzero]
    exact Binary64.noConfusion
  | finite negative' units' hu' =>
    rw [Binary64.finite_mul_finite]
    exact Binary64.nearest_ne_nan _ _ _

/-- A finite number with a finite scaled magnitude is shown by a field of digits. -/
theorem showsFinite_of_isFinite (hparse : parse text = .ok pattern)
    (hscaled : (pattern.scaledMagnitude value).IsFinite)
    (hzero : value.isZero → (pattern.scaledMagnitude value).magnitude = 0) :
    pattern.ShowsFinite locale value (pattern.apply locale value) := by
  obtain ⟨m, e, -, hrenders, hfield, hm⟩ :=
    exists_renders_digitField locale (groupSize_ne_zero_of_parse hparse) hscaled
  rw [apply_of_isFinite hscaled, withAffixes_eq,
    if_congr (and_congr_right' (not_congr hfield)) rfl rfl]
  exact .field hscaled hrenders hrenders.isField fun hz => hm (hzero hz)

/-- A finite number is shown by the name of an infinite value or by a field of digits, and zero by
a field that denotes zero, unless the factors of the affixes overflow: then zero is shown by letters
in the place of a field. -/
theorem apply_showsFinite (locale : Locale) (hparse : parse text = .ok pattern)
    (hvalue : value.IsFinite) :
    ((value.isZero → pattern.positive.multiplier.IsFinite) →
      pattern.ShowsFinite locale value (pattern.apply locale value)) ∧
    (value.isZero → ¬ pattern.positive.multiplier.IsFinite → ∃ digits, 'N' ∈ digits ∧
      (locale.groupSeparator ≠ 'N' → locale.decimalSeparator ≠ 'N' →
        ¬ pattern.layout.IsField locale digits) ∧
      pattern.apply locale value =
        if value.isNegative then pattern.negated digits else pattern.positive.around digits) := by
  have hne : value ≠ .nan := fun h => by
    obtain ⟨_, _, _, hv⟩ := hvalue
    cases h.symm.trans hv
  constructor
  · intro hfactor
    by_cases hz : value.isZero
    · obtain ⟨negative, units, hu, rfl⟩ := hvalue
      obtain rfl := beq_iff_eq.mp hz
      obtain ⟨negative', hscaled⟩ := (scaledMagnitude_zero pattern negative).1 (hfactor hz)
      refine showsFinite_of_isFinite hparse ⟨_, _, _, hscaled⟩ fun _ => ?_
      rw [hscaled]
      exact Binary64.magnitude_zero _ _
    · cases hscaled : pattern.scaledMagnitude value with
      | nan => exact absurd hscaled (scaledMagnitude_ne_nan hvalue hz)
      | infinite negative =>
        rw [apply_of_infinite hne hscaled]
        exact .overflow hscaled hz
      | finite negative units hu =>
        exact showsFinite_of_isFinite hparse ⟨_, _, _, hscaled⟩ fun h => absurd h hz
  · intro hz hfactor
    obtain ⟨negative, units, hu, rfl⟩ := hvalue
    obtain rfl := beq_iff_eq.mp hz
    have hscaled := (scaledMagnitude_zero pattern negative).2 hfactor
    obtain ⟨hletter, hfield⟩ := letter_mem_digitField_nan pattern.layout locale
    refine ⟨_, hletter, not_isField_of_letter hletter, ?_⟩
    rw [apply_of_ne_infinite hne fun _ h => Binary64.noConfusion (hscaled.symm.trans h), hscaled,
      withAffixes_eq, hfield]
    exact if_congr (and_iff_left Bool.false_ne_true) rfl rfl

/-- The pattern `##0.0E+0‰`. -/
def engineeringPerMille : NumberPattern :=
  ⟨⟨[.optional, .optional, .required], [.required], none, some ⟨1, true⟩⟩, ⟨[], [.perMille]⟩,
    none⟩

theorem apply_showsFinite_zero :
    engineeringPerMille.ShowsFinite .enUS (.finite true 0 Binary64.representable_zero)
      "0.0E+0‰".toList := by
  have hparse : parse "##0.0E+0‰".toList = .ok engineeringPerMille := by decide +kernel
  have hfactor : engineeringPerMille.positive.multiplier =
      .finite false (1000 * 2 ^ 1074) (Binary64.representable_mul (by norm_num) (by norm_num)) := by
    decide +kernel
  have htext : engineeringPerMille.apply .enUS (.finite true 0 Binary64.representable_zero) =
      "0.0E+0‰".toList := by
    decide +kernel
  rw [← htext]
  exact (apply_showsFinite .enUS hparse ⟨_, _, _, rfl⟩).1 fun _ => ⟨_, _, _, hfactor⟩

/-- The pattern `0‰‰…`, with `count` per-mille signs. -/
def perMillePattern (count : ℕ) : NumberPattern :=
  ⟨⟨[.required], [], none, none⟩, ⟨[], List.replicate count .perMille⟩, none⟩

/-- The factors of so many per-mille signs overflow, and zero is shown by letters. -/
theorem not_showsFinite_perMilles :
    parse ('0' :: List.replicate 103 '‰') = .ok (perMillePattern 103) ∧
      ¬ (perMillePattern 103).ShowsFinite .enUS (.finite false 0 Binary64.representable_zero)
        ((perMillePattern 103).apply .enUS (.finite false 0 Binary64.representable_zero)) := by
  have htext : (perMillePattern 103).apply .enUS (.finite false 0 Binary64.representable_zero) =
      (perMillePattern 103).positive.around ['N', 'a', 'N'] := by
    decide +kernel
  refine ⟨by decide +kernel, fun h => ?_⟩
  rw [htext] at h
  generalize hshown : (perMillePattern 103).positive.around ['N', 'a', 'N'] = shown at h
  cases h with
  | overflow h hvalue => exact hvalue rfl
  | field _ _ hfield =>
    rw [if_neg fun h => Bool.false_ne_true h.1] at hshown
    have hdigits := List.append_cancel_left (List.append_cancel_right hshown)
    rw [← hdigits] at hfield
    exact not_isField_of_letter List.mem_cons_self (by decide) (by decide) hfield

end NumberPattern

end CellDisplay
