import CellDisplay.Proofs.NumberPattern.Sign

/-! # Required places

A number shows at least as many digits as its layout has required places, on either side of the
point. So a digit stands at each required place if the required places are the ones next to the
point, and otherwise only if the number has enough digits of its own.
-/

namespace CellDisplay

open Text

namespace NumberPattern

variable {layout : Layout} {locale : Locale} {value : Binary64} {pattern : NumberPattern}
  {places : List Placeholder} {m r : ℚ} {whole fraction text : Text} {i : ℕ}

section Order

/-- Every required place stands before every optional one. -/
def RequiredFirst (places : List Placeholder) : Prop :=
  places.Pairwise fun p q => q = .required → p = .required

instance (places : List Placeholder) : Decidable (RequiredFirst places) :=
  inferInstanceAs (Decidable (List.Pairwise _ _))

/-- The last required place has all the others before it. -/
theorem exists_count_required_le (h : .required ∈ places) :
    ∃ i, places[i]? = some .required ∧ places.count .required ≤ i + 1 := by
  induction places with
  | nil => exact absurd h List.not_mem_nil
  | cons p places ih =>
    by_cases hmem : .required ∈ places
    · obtain ⟨i, hi, hcount⟩ := ih hmem
      refine ⟨i + 1, hi, ?_⟩
      rw [List.count_cons]
      split <;> omega
    · obtain rfl := (List.mem_cons.mp h).resolve_right hmem
      refine ⟨0, rfl, ?_⟩
      rw [List.count_cons_self, List.count_eq_zero.mpr hmem]

/-- The required places come first if each of them has a number below their count. -/
theorem requiredFirst_iff (places : List Placeholder) :
    RequiredFirst places ↔ ∀ i, places[i]? = some .required → i < places.count .required := by
  induction places with
  | nil => exact iff_of_true List.Pairwise.nil fun i hi => by simp at hi
  | cons p places ih =>
    rw [RequiredFirst, List.pairwise_cons]
    cases p with
    | required =>
      rw [List.count_cons_self]
      constructor
      · rintro ⟨-, h⟩ (_ | i) hi
        · exact Nat.succ_pos _
        · exact Nat.succ_lt_succ (ih.mp h i hi)
      · intro h
        exact ⟨fun q _ _ => rfl, ih.mpr fun i hi => Nat.lt_of_succ_lt_succ (h (i + 1) hi)⟩
    | optional =>
      rw [List.count_cons_of_ne (by decide)]
      constructor
      · rintro ⟨h, -⟩ (_ | i) hi
        · simp at hi
        · exact absurd (h .required (List.mem_of_getElem? hi) rfl) (by decide)
      · intro h
        have hnone : .required ∉ places := fun hmem => by
          obtain ⟨i, hi, hcount⟩ := exists_count_required_le hmem
          have := h (i + 1) hi
          omega
        exact ⟨fun q hq hr => absurd (hr ▸ hq) hnone,
          ih.mpr fun i hi => absurd (List.mem_of_getElem? hi) hnone⟩

end Order

section Shown

/-- A digit stands at each required place. -/
def Layout.FillsRequired (layout : Layout) (whole fraction : Text) : Prop :=
  (∀ i, layout.fraction[i]? = some .required → i < fraction.length) ∧
    ∀ i, layout.integer.reverse[i]? = some .required → i < whole.length

theorem Layout.Shows.lt_length_fraction_iff (h : layout.Shows m whole fraction) :
    i < fraction.length ↔ i < layout.minFraction ∨ ¬ ∃ n : ℕ, Int.fract m * 10 ^ i = n := by
  rw [← Nat.not_le, h.trims.length_le_iff, not_and_or, Nat.not_le]

theorem Layout.Shows.lt_length_whole_iff (h : layout.Shows m whole fraction)
    (hmin : 0 < layout.minInteger) :
    i < whole.length ↔ i < layout.minInteger ∨ 10 ^ i ≤ ⌊m⌋₊ := by
  have hpads := h.pads
  rw [Nat.max_eq_left hmin, ite_self] at hpads
  rw [← Nat.not_le, hpads.length_le_iff, not_and_or, Nat.not_le, Nat.not_lt]

theorem Layout.Shows.min_le_length (h : layout.Shows m whole fraction) :
    layout.minFraction ≤ fraction.length ∧ layout.minInteger ≤ whole.length := by
  refine ⟨h.trims.least_le, le_trans ?_ h.pads.least_le⟩
  split
  · exact le_max_left _ _
  · exact le_rfl

theorem minInteger_pos (h : layout.integer.reverse[i]? = some .required) :
    0 < layout.minInteger :=
  List.count_pos_iff.mpr (List.mem_reverse.mp (List.mem_of_getElem? h))

/-- Beyond the number of required places, a digit stands at a place only if the number has a digit
there or further out. -/
theorem Layout.Shows.fillsRequired_iff (h : layout.Shows m whole fraction) :
    layout.FillsRequired whole fraction ↔
      (∀ i, layout.fraction[i]? = some .required →
        i < layout.minFraction ∨ ¬ ∃ n : ℕ, Int.fract m * 10 ^ i = n) ∧
      ∀ i, layout.integer.reverse[i]? = some .required →
        i < layout.minInteger ∨ 10 ^ i ≤ ⌊m⌋₊ := by
  refine and_congr ?_ ?_
  · simp only [h.lt_length_fraction_iff]
  · exact forall_congr' fun i => imp_congr_right fun hi =>
      h.lt_length_whole_iff (minInteger_pos hi)

theorem Layout.Shows.fillsRequired_of_requiredFirst (h : layout.Shows m whole fraction)
    (hfraction : RequiredFirst layout.fraction) (hinteger : RequiredFirst layout.integer.reverse) :
    layout.FillsRequired whole fraction := by
  rw [requiredFirst_iff] at hfraction hinteger
  rw [List.count_reverse] at hinteger
  exact h.fillsRequired_iff.mpr
    ⟨fun i hi => .inl (hfraction i hi), fun i hi => .inl (hinteger i hi)⟩

/-- Zero has no digits of its own. -/
theorem Layout.Shows.requiredFirst_of_zero (h : layout.Shows 0 whole fraction)
    (hfills : layout.FillsRequired whole fraction) :
    RequiredFirst layout.fraction ∧ RequiredFirst layout.integer.reverse := by
  obtain ⟨hfraction, hinteger⟩ := h.fillsRequired_iff.mp hfills
  rw [requiredFirst_iff, requiredFirst_iff, List.count_reverse]
  refine ⟨fun i hi => (hfraction i hi).resolve_right (not_not.mpr ⟨0, by simp⟩), fun i hi =>
    (hinteger i hi).resolve_right ?_⟩
  simp

end Shown

/-- The digits before and behind the point in the text of a number without an exponent, which is
rounded to the places of its fraction. -/
structure ShowsDigits (pattern : NumberPattern) (locale : Locale) (value : Binary64) (r : ℚ)
    (whole fraction : Text) : Prop where
  rounds : Decimal.IsRounding (10 ^ (-pattern.layout.maxFraction : ℤ))
    (pattern.scaledMagnitude value).magnitude r
  shows : pattern.layout.Shows r whole fraction
  writes : ∃ digits, pattern.layout.Writes locale whole fraction none digits ∧
    pattern.apply locale value =
      if value.isNegative ∧ r ≠ 0 then pattern.negated digits else pattern.positive.around digits

theorem exists_showsDigits (locale : Locale) (hparse : parse text = .ok pattern)
    (hexponent : pattern.layout.exponent = none)
    (hfinite : (pattern.scaledMagnitude value).IsFinite) :
    ∃ r whole fraction, pattern.ShowsDigits locale value r whole fraction := by
  obtain ⟨r, hround, -, ⟨whole, fraction, hshows, hwrites⟩, hzero⟩ :=
    exists_renders_fixedField locale hexponent (groupSize_ne_zero_of_parse hparse) hfinite
  refine ⟨r, whole, fraction, hround, hshows, _, hwrites, ?_⟩
  rw [apply_of_isFinite hfinite, digitField, hexponent, withAffixes_eq,
    if_congr (and_congr_right' (not_congr hzero)) rfl rfl]

/-- Zero is shown by the digits of zero. -/
theorem ShowsDigits.eq_zero (h : pattern.ShowsDigits locale value r whole fraction)
    (hzero : (pattern.scaledMagnitude value).magnitude = 0) : r = 0 := by
  have hstep : (0 : ℚ) < 10 ^ (-pattern.layout.maxFraction : ℤ) := zpow_pos (by norm_num) _
  have hround := h.rounds
  rw [hzero] at hround
  exact hround.unique hstep (Decimal.isRounding_zero hstep)

/-- A number without an exponent shows at least as many digits as there are required places, and a
digit at each of them unless one lies further out than their number and all digits of the number.
That no number leaves a required place empty is so exactly if the required places are the ones next
to the point. -/
theorem fillsRequired_iff_requiredFirst (locale : Locale) (hparse : parse text = .ok pattern)
    (hexponent : pattern.layout.exponent = none) :
    (∀ value, (pattern.scaledMagnitude value).IsFinite →
      ∃ r whole fraction, pattern.ShowsDigits locale value r whole fraction) ∧
    (∀ value r whole fraction, pattern.ShowsDigits locale value r whole fraction →
      pattern.layout.minFraction ≤ fraction.length ∧ pattern.layout.minInteger ≤ whole.length ∧
        (pattern.layout.FillsRequired whole fraction ↔
          (∀ i, pattern.layout.fraction[i]? = some .required →
            i < pattern.layout.minFraction ∨ ¬ ∃ n : ℕ, Int.fract r * 10 ^ i = n) ∧
          ∀ i, pattern.layout.integer.reverse[i]? = some .required →
            i < pattern.layout.minInteger ∨ 10 ^ i ≤ ⌊r⌋₊)) ∧
    (pattern.positive.multiplier.IsFinite →
      ((∀ value r whole fraction, (pattern.scaledMagnitude value).IsFinite →
        pattern.ShowsDigits locale value r whole fraction →
          pattern.layout.FillsRequired whole fraction) ↔
        RequiredFirst pattern.layout.fraction ∧ RequiredFirst pattern.layout.integer.reverse)) := by
  refine ⟨fun value => exists_showsDigits locale hparse hexponent,
    fun value r whole fraction h => ?_, fun hfactor => ⟨fun hall => ?_, ?_⟩⟩
  · obtain ⟨hfraction, hinteger⟩ := h.shows.min_le_length
    exact ⟨hfraction, hinteger, h.shows.fillsRequired_iff⟩
  · obtain ⟨negative, hscaled⟩ := (scaledMagnitude_zero pattern false).1 hfactor
    obtain ⟨r, whole, fraction, h⟩ :=
      exists_showsDigits locale hparse hexponent ⟨_, _, _, hscaled⟩
    obtain rfl := h.eq_zero (by rw [hscaled, Binary64.magnitude_zero])
    exact h.shows.requiredFirst_of_zero (hall _ _ _ _ ⟨_, _, _, hscaled⟩ h)
  · rintro ⟨hfraction, hinteger⟩ value r whole fraction - h
    exact h.shows.fillsRequired_of_requiredFirst hfraction hinteger

theorem fillsRequired_iff_requiredFirst_grouped :
    ∃ r whole fraction,
      groupedPattern.ShowsDigits .enUS (.ofRatio 9876537 8) r whole fraction ∧
        groupedPattern.layout.FillsRequired whole fraction := by
  have hparse : parse "#,##0.0#".toList = .ok groupedPattern := by decide +kernel
  have hfactor : groupedPattern.positive.multiplier =
      .finite false (1 * 2 ^ 1074) (Binary64.representable_mul (by norm_num) (by norm_num)) := by
    decide +kernel
  have hscaled : groupedPattern.scaledMagnitude (.ofRatio 9876537 8) =
      .finite false (9876537 * 2 ^ 1071)
        (Binary64.representable_mul (by norm_num) (by norm_num)) := by
    decide +kernel
  obtain ⟨hexists, -, hall⟩ := fillsRequired_iff_requiredFirst .enUS hparse rfl
  obtain ⟨r, whole, fraction, h⟩ := hexists _ ⟨_, _, _, hscaled⟩
  exact ⟨r, whole, fraction, h,
    (hall ⟨_, _, _, hfactor⟩).mpr ⟨by decide, by decide⟩ _ _ _ _ ⟨_, _, _, hscaled⟩ h⟩

/-- The pattern `0.#0`. -/
def optionalFirstPattern : NumberPattern :=
  ⟨⟨[.required], [.optional, .required], none, none⟩, ⟨[], []⟩, none⟩

/-- One is shown with one digit behind the point, where the second place is required. -/
theorem exists_not_fillsRequired :
    parse "0.#0".toList = .ok optionalFirstPattern ∧
      optionalFirstPattern.apply .enUS 1 = "1.0".toList ∧
      ∃ r whole fraction, optionalFirstPattern.ShowsDigits .enUS 1 r whole fraction ∧
        optionalFirstPattern.layout.fraction[1]? = some .required ∧ ¬ 1 < fraction.length := by
  have hparse : parse "0.#0".toList = .ok optionalFirstPattern := by decide +kernel
  have hscaled : optionalFirstPattern.scaledMagnitude 1 =
      .finite false (1 * 2 ^ 1074) (Binary64.representable_mul (by norm_num) (by norm_num)) := by
    decide +kernel
  obtain ⟨r, whole, fraction, h⟩ :=
    exists_showsDigits .enUS hparse rfl ⟨_, _, _, hscaled⟩
  have hone : Decimal.IsRounding (10 ^ (-2 : ℤ)) 1 1 := ⟨100, by norm_num, by norm_num, by norm_num⟩
  have hr : r = 1 := by
    have hround := h.rounds
    rw [Binary64.magnitude_eq_div (k := 1) (e := 1074) (j := 0) hscaled rfl, Nat.cast_one,
      pow_zero, div_one] at hround
    exact hround.unique (by norm_num) hone
  refine ⟨hparse, by decide +kernel, r, whole, fraction, h, rfl, ?_⟩
  rw [h.shows.lt_length_fraction_iff, hr]
  rintro (hlt | hdigits)
  · exact absurd hlt (by decide)
  · exact hdigits ⟨0, by simp⟩

end NumberPattern

end CellDisplay
