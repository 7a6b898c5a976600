import CellDisplay.Proofs.NumberPattern.Scientific

/-! # Exponents in steps

With optional places before the point, exponents are multiples of the number of places. Most
numbers are rounded under their canonical exponent. A number whose shortest digits are the power of
ten where the next step starts is rounded there, to fewer digits than its own exponent asks for.
-/

namespace CellDisplay

open Text Decimal

namespace NumberPattern

open Checked (roundedFor settledFirst carried shownMantissa mantissa_of_not_isZero div_mul_mem)

variable {value : Binary64} {places count k n : ℕ} {m : ℚ} {e first low : ℤ} {s : Scientific}
  {layout : Layout} {spec : Exponent} {pattern : NumberPattern}

/-- The greatest multiple of `k` whose power of ten is at most `x`. -/
def canonicalExponent (k : ℕ) (x : ℚ) : ℤ := Int.log 10 x / k * k

/-- The shortest digits of a number are the power of ten `10 ^ next` above it, to which it rounds
with `places` digits after the first one. -/
def RoundsUpTo (value : Binary64) (places : ℕ) (next : ℤ) : Prop :=
  (shortest value).exponent = next ∧
    IsRounding (10 ^ (next - 1 - places)) value.magnitude (10 ^ next)

theorem succ_div_mul (first : ℤ) {k : ℤ} (hk : 0 < k) :
    first + 1 < first / k * k + k ∧ (first + 1) / k * k = first / k * k ∨
      first + 1 = first / k * k + k ∧ (first + 1) / k * k = first / k * k + k := by
  have hsum := Int.ediv_mul_add_emod first k
  have hlow := Int.emod_nonneg first hk.ne'
  have hhigh := Int.emod_lt_of_pos first hk
  have hdiv : (first + 1) / k = (first % k + 1) / k + first / k := by
    rw [← Int.add_mul_ediv_right _ _ hk.ne']
    congr 1
    omega
  rcases Int.lt_or_eq_of_le (show first % k + 1 ≤ k by omega) with hlt | heq
  · left
    rw [hdiv, Int.ediv_eq_zero_of_lt (by omega) hlt, Int.zero_add]
    exact ⟨by omega, rfl⟩
  · right
    rw [hdiv, heq, Int.ediv_self hk.ne', Int.add_mul, Int.one_mul]
    exact ⟨by omega, Int.add_comm _ _⟩

/-- Under an exponent of its step, a mantissa is at least one and has at most `k` digits before the
point. -/
theorem exists_denotes_step (places : ℕ) (hs : s.Rounds count x n) (he : e ≤ s.exponent)
    (hlt : s.exponent < e + k)
    (h : count = integerCount s.exponent e + places ∨ n = 10 ^ (count - 1)) :
    ∃ m : ℚ, (shownMantissa places s e).Denotes places m ∧
      m * 10 ^ e = n * 10 ^ (s.exponent + 1 - count) ∧ 1 ≤ m ∧ m < 10 ^ k := by
  have hinteger := integerCount_of_le he
  obtain ⟨m, hdenotes, hvalue, hlow, hhigh⟩ := exists_denotes_shownMantissa places hs he h
  refine ⟨m, hdenotes, hvalue, (one_le_pow₀ (by norm_num)).trans hlow, hhigh.trans_le ?_⟩
  exact pow_le_pow_right₀ (by norm_num) (by omega)

/-- The mantissa `m` and the exponent `e` of a number in steps of `k`, from its canonical exponent
`low`. The number is rounded under that. If it is too great then, or rounds up to the next step, it
is shown as the power of ten where that step starts. -/
def EngineeringForm (low : ℤ) (k places : ℕ) (value : Binary64) (m : ℚ) (e : ℤ) : Prop :=
  ∃ r, IsRounding (10 ^ (low - places)) value.magnitude r ∧
    (r < 10 ^ (low + k) ∧ ¬ RoundsUpTo value places (low + k) ∧ e = low ∧ m = r / 10 ^ low ∨
      (10 ^ (low + k) ≤ r ∨ RoundsUpTo value places (low + k)) ∧ e = low + k ∧ m = 1)

theorem engineeringForm_own {r : ℚ} (hr : IsRounding (10 ^ (low - places)) value.magnitude r)
    (hlt : r < 10 ^ (low + k)) (hup : ¬ RoundsUpTo value places (low + k))
    (hm : m * 10 ^ low = r) : EngineeringForm low k places value m low :=
  ⟨r, hr, .inl ⟨hlt, hup, rfl, (eq_div_iff (zpow_pos (by norm_num) _).ne').mpr hm⟩⟩

theorem engineeringForm_next {r : ℚ} (hr : IsRounding (10 ^ (low - places)) value.magnitude r)
    (h : 10 ^ (low + k) ≤ r ∨ RoundsUpTo value places (low + k))
    (hm : m * 10 ^ (low + k) = 10 ^ (low + k)) :
    EngineeringForm low k places value m (low + k) :=
  ⟨r, hr, .inr ⟨h, rfl,
    mul_right_cancel₀ (zpow_pos (by norm_num) _).ne' (hm.trans (one_mul _).symm)⟩⟩

theorem EngineeringForm.dvd (h : EngineeringForm low k places value m e) (hlow : (k : ℤ) ∣ low) :
    (k : ℤ) ∣ e := by
  obtain ⟨r, -, ⟨-, -, rfl, -⟩ | ⟨-, rfl, -⟩⟩ := h
  · exact hlow
  · exact Int.dvd_add hlow (Int.dvd_refl _)

/-- A number rounds up to the next step if the decade above it starts the step, and is the decade of
its shortest digits and of those rounded for it. -/
theorem roundsUpTo_iff (places : ℕ) (hk : 1 < k) (h : 0 < value.magnitude) :
    RoundsUpTo value places (canonicalExponent k value.magnitude + k) ↔
      Int.log 10 value.magnitude + 1 = canonicalExponent k value.magnitude + k ∧
        (shortest value).exponent = Int.log 10 value.magnitude + 1 ∧
        (roundedFor ⟨true, k⟩ places value (Int.log 10 value.magnitude + 1)).exponent =
          Int.log 10 value.magnitude + 1 := by
  obtain ⟨n, hn⟩ := exists_rounds_roundedFor ⟨true, k⟩ places (Int.log 10 value.magnitude + 1) h
  have hfor : (⟨true, k⟩ : MantissaRule).exponentFor (Int.log 10 value.magnitude + 1) =
      (Int.log 10 value.magnitude + 1) / k * k := rfl
  rcases succ_div_mul (Int.log 10 value.magnitude) (show (0 : ℤ) < k by omega) with
    ⟨hlt, -⟩ | ⟨hnext, hstep⟩
  · have hshort := exponent_shortest h
    rw [← canonicalExponent] at hlt
    constructor
    · rintro ⟨hexponent, -⟩
      omega
    · rintro ⟨hexponent, -⟩
      omega
  · have hcount (next : ℤ) : integerCount next next = 1 := by
      rw [integerCount]
      omega
    rw [hfor, hstep, ← hnext, hcount] at hn
    have hround := hn.isRounding
    rw [Nat.cast_add, Nat.cast_one, ← sub_sub] at hround
    rw [canonicalExponent, ← hnext, RoundsUpTo, and_iff_right rfl]
    refine and_congr_right fun _ => ⟨fun hup => ?_, fun hexponent => ?_⟩
    · have hlt := hn.mul_lt
      rw [Nat.cast_add, Nat.cast_one, ← hup.unique (zpow_pos (by norm_num) _) hround,
        zpow_lt_zpow_iff_right₀ (by norm_num)] at hlt
      have hexponent := hn.exponent
      omega
    · have hvalue := (hn.eq_pow hexponent).2
      rw [Nat.cast_add, Nat.cast_one] at hvalue
      rwa [hvalue, hexponent] at hround

theorem carried_of_lt (hlt : first < e + k) : carried ⟨true, k⟩ first e = e := by
  rw [carried, if_neg]
  dsimp only
  omega

theorem carried_of_eq (heq : first = e + k) : carried ⟨true, k⟩ first e = e + k := by
  rw [carried, if_pos]
  · rfl
  · dsimp only
    omega

/-- Rounded in their own decade, digits carry into the next step if they reach it. -/
theorem exists_engineeringForm_of_rounds (hlow : low ≤ Int.log 10 value.magnitude)
    (hhigh : Int.log 10 value.magnitude < low + k)
    (hs : s.Rounds (integerCount (Int.log 10 value.magnitude) low + places) value.magnitude n)
    (hup : ¬ RoundsUpTo value places (low + k)) :
    ∃ m, (shownMantissa places s (carried ⟨true, k⟩ s.exponent low)).Denotes places m ∧
      EngineeringForm low k places value m (carried ⟨true, k⟩ s.exponent low) ∧
      1 ≤ m ∧ m < 10 ^ k := by
  have hround := hs.isRounding
  have hexponent := hs.exponent
  have hcount := integerCount_of_le hlow
  rw [show Int.log 10 value.magnitude + 1 -
    (integerCount (Int.log 10 value.magnitude) low + places : ℕ) = low - places by omega] at hround
  by_cases hcarry : s.exponent = low + k
  · obtain ⟨hpow, hvalue⟩ := hs.eq_pow (by omega)
    obtain ⟨m, hdenotes, hm, hbounds⟩ := exists_denotes_step (e := low + k) (k := k) places hs
      hcarry.ge (by omega) (.inr hpow)
    rw [hvalue, hcarry] at hm hround
    rw [carried_of_eq hcarry]
    exact ⟨m, hdenotes, engineeringForm_next hround (.inl le_rfl) hm, hbounds⟩
  · have hlt : s.exponent < low + k := by omega
    have hfits : integerCount (Int.log 10 value.magnitude) low + places =
          integerCount s.exponent low + places ∨
        n = 10 ^ (integerCount (Int.log 10 value.magnitude) low + places - 1) :=
      hexponent.imp (fun h => by rw [h]) And.right
    obtain ⟨m, hdenotes, hm, hbounds⟩ :=
      exists_denotes_step (e := low) places hs (by omega) hlt hfits
    have hbelow := hs.mul_lt.trans_le (zpow_le_zpow_right₀ (by norm_num) hlt)
    rw [carried_of_lt hlt]
    exact ⟨m, hdenotes, engineeringForm_own hround hbelow hup hm, hbounds⟩

/-- Rounded in the decade above its own, where its shortest digits are, a number is the power of ten
there. -/
theorem exists_engineeringForm_of_next (h : 0 < value.magnitude)
    (hlow : low ≤ Int.log 10 value.magnitude)
    (hcases : Int.log 10 value.magnitude + 1 < low + k ∧ e = low ∨
      Int.log 10 value.magnitude + 1 = low + k ∧ e = low + k)
    (hs : s.Rounds (integerCount (Int.log 10 value.magnitude + 1) e + places) value.magnitude n)
    (hexponent : s.exponent = Int.log 10 value.magnitude + 1)
    (hup : RoundsUpTo value places (low + k) ↔ s.exponent = low + k) :
    ∃ m, (shownMantissa places s (carried ⟨true, k⟩ s.exponent e)).Denotes places m ∧
      EngineeringForm low k places value m (carried ⟨true, k⟩ s.exponent e) ∧
      1 ≤ m ∧ m < 10 ^ k := by
  have hlt : s.exponent < e + k := by omega
  obtain ⟨hpow, hvalue⟩ := hs.eq_pow hexponent
  obtain ⟨m, hdenotes, hm, hbounds⟩ := exists_denotes_step places hs (by omega) hlt (.inr hpow)
  rw [hvalue, hexponent] at hm
  rw [carried_of_lt hlt]
  refine ⟨m, hdenotes, ?_, hbounds⟩
  rcases hcases with ⟨hbelow, rfl⟩ | ⟨hnext, rfl⟩
  · -- The decade above belongs to the same step, so that the number is rounded there, too.
    have hcount := integerCount_of_le (show e ≤ Int.log 10 value.magnitude + 1 by omega)
    have hround := hs.isRounding
    rw [hvalue, hexponent] at hround
    have hmultiple : (10 : ℚ) ^ (Int.log 10 value.magnitude + 1) =
        (10 ^ (Int.log 10 value.magnitude + 1 - e + places).toNat : ℕ) * 10 ^ (e - places) := by
      rw [natCast_pow_mul_zpow]
      congr 1
      omega
    refine engineeringForm_own (hround.coarsen ?_ hmultiple) ?_ ?_ hm
    · exact zpow_lt_zpow_right₀ (by norm_num) (by omega)
    · exact zpow_lt_zpow_right₀ (by norm_num) hbelow
    · rw [hup, hexponent]
      exact hbelow.ne
  · have hgrid : (0 : ℚ) < 10 ^ (low - places) := zpow_pos (by norm_num) _
    obtain ⟨r, hr⟩ := exists_isRounding hgrid h.le
    rw [hnext] at hm
    exact engineeringForm_next hr (.inr (hup.mpr (hexponent.trans hnext))) hm

/-- In steps of `k`, a mantissa is at least one and has at most `k` digits before the point. -/
theorem exists_denotes_engineering (places : ℕ) (hk : 1 < k) (h : 0 < value.magnitude) :
    ∃ m, (mantissa ⟨true, k⟩ places value).Denotes places m ∧
      EngineeringForm (canonicalExponent k value.magnitude) k places value m
        (mantissa ⟨true, k⟩ places value).exponent ∧
      1 ≤ m ∧ m < 10 ^ k := by
  have hfor (first : ℤ) : (⟨true, k⟩ : MantissaRule).exponentFor first = first / k * k := rfl
  obtain ⟨hmem, hlow⟩ := div_mul_mem (Int.log 10 value.magnitude) (show (1 : ℤ) ≤ k by omega)
  have hcases := succ_div_mul (Int.log 10 value.magnitude) (show (0 : ℤ) < k by omega)
  have hup := roundsUpTo_iff places hk h
  rw [← canonicalExponent] at hmem hlow hcases
  have hhigh : Int.log 10 value.magnitude < canonicalExponent k value.magnitude + k := by omega
  rw [mantissa_of_not_isZero (Binary64.not_isZero_of_magnitude_pos h)]
  rcases settledFirst_cases ⟨true, k⟩ places h with ⟨hfirst, hnot⟩ | ⟨hfirst, hshort, hexponent⟩
  · obtain ⟨n, hn⟩ := exists_rounds_roundedFor ⟨true, k⟩ places (Int.log 10 value.magnitude) h
    rw [hfirst]
    exact exists_engineeringForm_of_rounds hlow hhigh hn fun hr => hnot (hup.mp hr).2
  · obtain ⟨n, hn⟩ := exists_rounds_roundedFor ⟨true, k⟩ places (Int.log 10 value.magnitude + 1) h
    rw [hfirst]
    refine exists_engineeringForm_of_next h hlow hcases hn hexponent ?_
    rw [hup, hexponent]
    exact ⟨And.left, fun hnext => ⟨hnext, hshort, rfl⟩⟩

theorem ofLayout_eq_engineering (hplaces : layout.minInteger < layout.integer.length)
    (hsteps : 1 < layout.integer.length) :
    MantissaRule.ofLayout layout = ⟨true, layout.integer.length⟩ := by
  rw [MantissaRule.ofLayout, if_pos ⟨hplaces, hsteps⟩]

/-- With optional places before the point, a positive number is shown under a multiple of the number
of places: rounded under its canonical exponent, half-way on the exact scaled magnitude to the even
digit, or as the power of ten where the next step starts. -/
theorem apply_shows_engineering_rounding (locale : Locale)
    (hspec : pattern.layout.exponent = some spec)
    (hplaces : pattern.layout.minInteger < pattern.layout.integer.length)
    (hsteps : 1 < pattern.layout.integer.length)
    (hpos : 0 < (pattern.scaledMagnitude value).magnitude) :
    ∃ (m : ℚ) (e : ℤ) (whole fraction digits : Text),
      EngineeringForm
        (canonicalExponent pattern.layout.integer.length (pattern.scaledMagnitude value).magnitude)
        pattern.layout.integer.length pattern.layout.maxFraction (pattern.scaledMagnitude value) m
        e ∧
      (pattern.layout.integer.length : ℤ) ∣ e ∧
      1 ≤ m ∧ m < 10 ^ pattern.layout.integer.length ∧
      pattern.layout.Shows m whole fraction ∧
      pattern.layout.Writes locale whole fraction (some e) digits ∧
      pattern.apply locale value =
        if value.isNegative then pattern.negated digits else pattern.positive.around digits := by
  obtain ⟨m, hdenotes, hform, hlow, hhigh⟩ :=
    exists_denotes_engineering pattern.layout.maxFraction hsteps hpos
  rw [← ofLayout_eq_engineering hplaces hsteps] at hdenotes hform
  obtain ⟨whole, fraction, digits, hshows, hwrites, happly⟩ :=
    exists_field_of_denotes locale hspec hpos hdenotes (lt_of_lt_of_le one_pos hlow)
  exact ⟨m, _, whole, fraction, digits, hform, hform.dvd (Int.dvd_mul_left _ _), hlow, hhigh,
    hshows, hwrites, happly⟩

/-- The pattern `##0.0E+0`, with as many zeros behind the point as `places`. -/
def engineeringPattern (places : ℕ) : NumberPattern :=
  ⟨⟨[.optional, .optional, .required], List.replicate places .required, none, some ⟨1, true⟩⟩,
    ⟨[], []⟩, none⟩

theorem apply_shows_engineering_rounding_carry :
    ∃ (m : ℚ) (e : ℤ),
      EngineeringForm (canonicalExponent 3 (31999 / 32)) 3 1
        ((engineeringPattern 1).scaledMagnitude (.ofRatio 31999 32)) m e ∧
      (engineeringPattern 1).layout.Renders .enUS m (some e) "1.0E+3".toList := by
  have hscaled : (engineeringPattern 1).scaledMagnitude (.ofRatio 31999 32) =
      .finite false (31999 * 2 ^ 1069)
        (Binary64.representable_mul (by norm_num) (by norm_num)) := by
    decide +kernel
  have hmagnitude := Binary64.magnitude_eq_div (k := 31999) (e := 1069) (j := 5) hscaled
    (by norm_num)
  have htext : (engineeringPattern 1).apply .enUS (.ofRatio 31999 32) = "1.0E+3".toList := by
    decide +kernel
  have hsign : (Binary64.ofRatio 31999 32).isNegative = false := by decide +kernel
  obtain ⟨m, e, whole, fraction, digits, hform, -, -, -, hshows, hwrites, happly⟩ :=
    apply_shows_engineering_rounding .enUS rfl (by decide) (by decide)
      (show 0 < ((engineeringPattern 1).scaledMagnitude (.ofRatio 31999 32)).magnitude by
        rw [hmagnitude]; norm_num)
  rw [happly, hsign, if_neg Bool.false_ne_true] at htext
  have hdigits : digits = "1.0E+3".toList := by
    simpa [engineeringPattern, Affixes.around] using htext
  rw [hmagnitude] at hform
  refine ⟨m, e, ?_, whole, fraction, hshows, hdigits ▸ hwrites⟩
  norm_num at hform ⊢
  exact hform

/-- The number nearest to a millionth lies below it, also if it is rounded to fourteen places under
its canonical exponent. With as many places it is shown as a millionth. -/
theorem exists_engineering_ne_canonical :
    parse "##0.00000000000000E+0".toList = .ok (engineeringPattern 14) ∧
      ∃ (x r : ℚ), x = ((engineeringPattern 14).scaledMagnitude (.ofRatio 1 1000000)).magnitude ∧
        IsRounding (10 ^ (canonicalExponent 3 x - 14)) x r ∧
        r < 10 ^ (canonicalExponent 3 x + 3) ∧
        ∀ digits, (engineeringPattern 14).layout.Renders .enUS (r / 10 ^ canonicalExponent 3 x)
            (some (canonicalExponent 3 x)) digits →
          (engineeringPattern 14).apply .enUS (.ofRatio 1 1000000) ≠
            (engineeringPattern 14).positive.around digits := by
  have hscaled : (engineeringPattern 14).scaledMagnitude (.ofRatio 1 1000000) =
      .finite false (4722366482869645 * 2 ^ 1002)
        (Binary64.representable_mul (by norm_num) (by norm_num)) := by
    decide +kernel
  have hmagnitude := Binary64.magnitude_eq_div (k := 4722366482869645) (e := 1002) (j := 72) hscaled
    (by norm_num)
  have htext : (engineeringPattern 14).apply .enUS (.ofRatio 1 1000000) =
      "1.00000000000000E-6".toList := by
    decide +kernel
  have hlog : Int.log 10 (4722366482869645 / 2 ^ 72 : ℚ) = -7 :=
    (log_eq_iff (by norm_num)).mpr (by norm_num)
  have hcanonical : canonicalExponent 3 (4722366482869645 / 2 ^ 72 : ℚ) = -9 := by
    rw [canonicalExponent, hlog]
    rfl
  refine ⟨by decide +kernel, 4722366482869645 / 2 ^ 72, 99999999999999995 / 10 ^ 23, ?_⟩
  rw [hcanonical, hmagnitude]
  refine ⟨by norm_num, ⟨99999999999999995, by norm_num, ?_, fun htie => ?_⟩, by norm_num, ?_⟩
  · rw [abs_of_pos (by norm_num)]
    norm_num
  · rw [abs_of_pos (by norm_num)] at htie
    norm_num at htie
  · rintro digits ⟨whole, fraction, hshows, hwrites⟩ happly
    have hfloor : ⌊(99999999999999995 / 10 ^ 23 / 10 ^ (-9 : ℤ) : ℚ)⌋₊ = 999 :=
      (Nat.floor_eq_iff (by norm_num)).mpr (by norm_num)
    have hpads := hshows.pads
    rw [hfloor, show (engineeringPattern 14).layout.minInteger = 1 from rfl, Nat.max_self,
      ite_self] at hpads
    obtain rfl : whole = "999".toList :=
      (hpads.unique (pads_padded 1 999)).trans (by decide +kernel)
    rw [htext] at happly
    cases hwrites with
    | scientific => simp [engineeringPattern, Affixes.around] at happly

end NumberPattern

end CellDisplay
