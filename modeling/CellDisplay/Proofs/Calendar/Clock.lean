import CellDisplay.Proofs.Calendar.Split

/-! # The instant of a date and a time

The date of a serial comes from its milliseconds and the time from the seconds of its fraction, and
the two are rounded apart. Together they are at most a second away from the serial, except at the
end of a day: if the seconds fill up the day and the milliseconds do not, the time is midnight and
the date is not yet that of the next day.
-/

namespace CellDisplay.Serial

open DateSystem

variable {serial : Binary64} {system : DateSystem} {date : Date} {seconds day millis : ℕ}

/-- The seconds of the fraction of a serial, which can be those of a whole day. -/
def seconds? (serial : Binary64) : Option ℕ :=
  (serial.fraction * Binary64.ofInt 86400).roundedMagnitude?

/-- The second of a date and a time, from the start of day 0. -/
def instant (system : DateSystem) (date : Date) (time : TimeOfDay) : ℤ :=
  system.dayOf date * 86400 + time.toSeconds

/-- The seconds fill up the day, and the milliseconds do not. -/
def DropsCarry (serial : Binary64) : Prop :=
  seconds? serial = some 86400 ∧ ∃ millis, split? serial = some (⌊serial.magnitude⌋₊, millis)

theorem toSeconds_time (h : seconds? serial = some seconds) :
    (time serial).toSeconds = seconds % 86400 := by
  rw [seconds?] at h
  simp only [time, h, Option.getD_some, TimeOfDay.ofSeconds, TimeOfDay.toSeconds]
  omega

theorem magnitude_fraction (h : serial.IsFinite) :
    serial.fraction.IsFinite ∧ serial.fraction.magnitude = Int.fract serial.magnitude := by
  obtain ⟨negative, units, hu, rfl⟩ := h
  exact ⟨⟨_, _, _, rfl⟩, (Int.fract_div_natCast_eq_div_natCast_mod ..).symm⟩

/-- The seconds are those of the fraction, off by little more than a half. -/
theorem exists_seconds? (h : serial.IsFinite) :
    ∃ seconds ≤ 86400, seconds? serial = some seconds ∧
      |seconds - Int.fract serial.magnitude * 86400| ≤ 9 / 16 := by
  obtain ⟨hfinite, hmagnitude⟩ := magnitude_fraction h
  have hlt := Int.fract_lt_one serial.magnitude
  obtain ⟨seconds, hseconds, herror⟩ := Binary64.exists_roundedMagnitude?_mul hfinite
    (n := 86400) (by norm_num) (by rw [hmagnitude, Nat.cast_ofNat]; linarith)
  rw [hmagnitude, Nat.cast_ofNat] at herror
  refine ⟨seconds, ?_, hseconds, herror⟩
  have hseconds : (seconds : ℚ) < (86401 : ℕ) := by
    rw [Nat.cast_ofNat]
    linarith [(abs_le.mp herror).2]
  exact Nat.le_of_lt_succ (Nat.cast_lt.mp hseconds)

theorem exists_split?_of_date? (h : date? serial system = some date) :
    ∃ day millis, split? serial = some (day, millis) ∧ day ≤ system.lastDay ∧
      system.dayOf date = day := by
  obtain ⟨⟨day, millis⟩, hsplit, hdate⟩ := Option.bind_eq_some_iff.mp h
  change system.date? day = some date at hdate
  have hday : day ≤ system.lastDay := Nat.le_of_not_lt fun hlt => by
    rw [system.date?_of_lt hlt] at hdate
    cases hdate
  rw [system.date?_of_le hday] at hdate
  cases hdate
  exact ⟨day, millis, hsplit, hday, system.dayOf_dateOf day⟩

/-- In the range of the calendar the milliseconds are off by little more than a half. -/
theorem exists_total (hsplit : split? serial = some (day, millis)) (hday : day < 2 ^ 22) :
    serial.IsFinite ∧ ∃ total : ℕ, day = total / 86400000 ∧
      |total - serial.magnitude * 86400000| ≤ 9 / 16 := by
  obtain ⟨total, htotal, hquotient, -⟩ := exists_of_split?_eq_some hsplit
  obtain ⟨hproduct, hround⟩ := Binary64.roundedMagnitude?_eq_some_iff.mp htotal
  have hfinite : serial.IsFinite := hproduct.of_mul
  simp only [millisPerDay, maxMillis] at hquotient
  -- Even if only half of the product were left, it would stay below `2 ^ 50`.
  have hsmall : serial.magnitude * millisPerDay < 2 ^ 50 := by
    have hlt : (total : ℚ) < 2 ^ 22 * 86400000 := by
      exact_mod_cast (by omega : total < 2 ^ 22 * 86400000)
    have hhalf := Binary64.magnitude_mul_le_two_mul (n := millisPerDay) (by decide) hproduct
    have herror := (abs_le.mp (abs_sub_round (product serial).magnitude)).2
    rw [hround, Int.cast_natCast, product] at herror
    linarith
  obtain ⟨total', htotal', herror⟩ :=
    Binary64.exists_roundedMagnitude?_mul hfinite (n := millisPerDay) (by decide) hsmall
  obtain rfl : total = total' := Option.some.inj (htotal.symm.trans htotal')
  rw [millisPerDay, Nat.cast_ofNat] at herror
  exact ⟨hfinite, total, by omega, herror⟩

/-- The day is that of the whole part or the next one, and the next one only in the last second. -/
theorem day_eq_floor_or {m : ℚ} {total : ℕ} (h : |total - m * 86400000| ≤ 9 / 16) :
    ((total / 86400000 : ℕ) : ℤ) = ⌊m⌋ ∨
      ((total / 86400000 : ℕ) : ℤ) = ⌊m⌋ + 1 ∧ 86399 + 9 / 16 < Int.fract m * 86400 := by
  have hsum := Int.floor_add_fract m
  have hfract := Int.fract_lt_one m
  have hnonneg := Int.fract_nonneg m
  rw [abs_le] at h
  have hlow : ⌊m⌋ * 86400000 - 1 < (total : ℤ) := by
    have : (⌊m⌋ * 86400000 - 1 : ℚ) < total := by linarith
    exact_mod_cast this
  have hhigh : (total : ℤ) < (⌊m⌋ + 1) * 86400000 + 1 := by
    have : (total : ℚ) < (⌊m⌋ + 1) * 86400000 + 1 := by linarith
    exact_mod_cast this
  rcases le_or_gt (Int.fract m * 86400) (86399 + 9 / 16) with hle | hgt
  · have hlt : (total : ℤ) < (⌊m⌋ + 1) * 86400000 := by
      have : (total : ℚ) < (⌊m⌋ + 1) * 86400000 := by linarith
      exact_mod_cast this
    left
    omega
  · rcases lt_or_ge (total : ℤ) ((⌊m⌋ + 1) * 86400000) with hlt | hge
    · left
      omega
    · right
      exact ⟨by omega, hgt⟩

theorem dropsCarry_iff (hseconds : seconds? serial = some seconds)
    (hsplit : split? serial = some (day, millis)) :
    DropsCarry serial ↔ seconds = 86400 ∧ (day : ℤ) = ⌊serial.magnitude⌋ := by
  rw [← Int.natCast_floor_eq_floor serial.magnitude_nonneg, Nat.cast_inj]
  constructor
  · rintro ⟨hfull, millis', hday⟩
    rw [hseconds] at hfull
    rw [hsplit] at hday
    exact ⟨Option.some.inj hfull, (Prod.mk.inj (Option.some.inj hday)).1⟩
  · rintro ⟨rfl, rfl⟩
    exact ⟨hseconds, millis, hsplit⟩

/-- The day and the seconds that a date and a time of one serial are made of. -/
theorem exists_day_seconds (h : date? serial system = some date) :
    ∃ day seconds : ℕ, seconds ≤ 86400 ∧
      (instant system date (time serial) : ℚ) = day * 86400 + (seconds % 86400 : ℕ) ∧
      |seconds - Int.fract serial.magnitude * 86400| ≤ 9 / 16 ∧
      ((day : ℤ) = ⌊serial.magnitude⌋ ∨ (day : ℤ) = ⌊serial.magnitude⌋ + 1 ∧
        86399 + 9 / 16 < Int.fract serial.magnitude * 86400) ∧
      (DropsCarry serial ↔ seconds = 86400 ∧ (day : ℤ) = ⌊serial.magnitude⌋) := by
  obtain ⟨day, millis, hsplit, hday, hdate⟩ := exists_split?_of_date? h
  have hlast : system.lastDay < 2 ^ 22 := by cases system <;> decide
  obtain ⟨hfinite, total, hquotient, htotal⟩ := exists_total hsplit (by omega)
  obtain ⟨seconds, hle, hseconds, herror⟩ := exists_seconds? hfinite
  refine ⟨day, seconds, hle, ?_, herror, hquotient ▸ day_eq_floor_or htotal,
    dropsCarry_iff hseconds hsplit⟩
  rw [instant, hdate, toSeconds_time hseconds]
  norm_cast

/-- The instant of the date and the time of a serial is at most a second away from the serial,
unless the seconds of its fraction fill up a day that its milliseconds do not. This is only so in
the last second of a day, and the instant is then a whole day behind. -/
theorem abs_instant_sub_le_one_iff (h : date? serial system = some date) :
    (|(instant system date (time serial) : ℚ) - serial.magnitude * 86400| ≤ 1 ↔
      ¬ DropsCarry serial) ∧
    (DropsCarry serial → 86399 < Int.fract serial.magnitude * 86400 ∧
      |(instant system date (time serial) : ℚ) + 86400 - serial.magnitude * 86400| ≤ 1) := by
  obtain ⟨day, seconds, hle, hinstant, herror, hday, hcarry⟩ := exists_day_seconds h
  have hsum := Int.floor_add_fract serial.magnitude
  have hfract := Int.fract_lt_one serial.magnitude
  rw [hcarry, hinstant, abs_le, abs_le]
  rw [abs_le] at herror
  rcases hle.lt_or_eq with hlt | rfl
  · -- The time counts the seconds in full, and the milliseconds are far from the next day.
    have hbound : (seconds : ℚ) ≤ 86399 := by exact_mod_cast Nat.le_of_lt_succ hlt
    have hfloor := hday.resolve_right fun hnext => by linarith [hnext.2]
    have hfloor : (day : ℚ) = ⌊serial.magnitude⌋ := by exact_mod_cast hfloor
    rw [Nat.mod_eq_of_lt hlt]
    refine ⟨iff_of_true ?_ fun hfull => hlt.ne hfull.1, fun hfull => absurd hfull.1 hlt.ne⟩
    constructor <;> linarith
  · -- The time is midnight, of the day that ends or of the next one.
    rw [Nat.mod_self, Nat.cast_zero, add_zero]
    rw [Nat.cast_ofNat] at herror
    rcases hday with hfloor | ⟨hnext, -⟩
    · have hfloor' : (day : ℚ) = ⌊serial.magnitude⌋ := by exact_mod_cast hfloor
      refine ⟨iff_of_false (fun hclose => ?_) (not_not.mpr ⟨rfl, hfloor⟩), fun _ => ⟨?_, ?_, ?_⟩⟩
      all_goals linarith
    · have hnext' : (day : ℚ) = ⌊serial.magnitude⌋ + 1 := by exact_mod_cast hnext
      have hlate : ¬ (86400 = 86400 ∧ (day : ℤ) = ⌊serial.magnitude⌋) := fun hfull => by
        omega
      refine ⟨iff_of_true ?_ hlate, fun hfull => absurd hfull hlate⟩
      constructor <;> linarith

/-- Less than the tenth part of a millisecond before midnight. -/
def almostOne : Binary64 := .ofRatio (2 ^ 30 - 1) (2 ^ 30)

theorem abs_instant_sub_le_one_almostOne :
    date? almostOne .from1900 = some ⟨1900, 1, 1⟩ ∧
      |(instant .from1900 ⟨1900, 1, 1⟩ ⟨0, 0, 0⟩ : ℚ) - almostOne.magnitude * 86400| ≤ 1 := by
  have hdate : date? almostOne .from1900 = some ⟨1900, 1, 1⟩ := by decide +kernel
  have htime : time almostOne = ⟨0, 0, 0⟩ := by decide +kernel
  have hseconds : seconds? almostOne = some 86400 := by decide +kernel
  have hsplit : split? almostOne = some (1, 0) := by decide +kernel
  have hserial : almostOne = .finite false ((2 ^ 30 - 1) * 2 ^ 1044)
      (Binary64.representable_mul (by norm_num) (by norm_num)) := by
    decide +kernel
  have hcarry : ¬ DropsCarry almostOne := by
    rw [dropsCarry_iff hseconds hsplit, Binary64.magnitude_eq_div (j := 30) hserial (by norm_num)]
    norm_num
  exact ⟨hdate, htime ▸ (abs_instant_sub_le_one_iff hdate).1.mpr hcarry⟩

/-- A third of a second before midnight, the time is midnight and the date that of the day. -/
theorem exists_instant_day_behind :
    ∃ serial date, date? serial .from1900 = some date ∧
      ¬ |(instant .from1900 date (time serial) : ℚ) - serial.magnitude * 86400| ≤ 1 := by
  have hserial : Binary64.ofRatio (2 ^ 19 - 1) (2 ^ 18) = .finite false ((2 ^ 19 - 1) * 2 ^ 1056)
      (Binary64.representable_mul (by norm_num) (by norm_num)) := by
    decide +kernel
  have hinstant : instant .from1900 ⟨1900, 1, 1⟩ (time (.ofRatio (2 ^ 19 - 1) (2 ^ 18))) =
      86400 := by
    decide +kernel
  refine ⟨.ofRatio (2 ^ 19 - 1) (2 ^ 18), ⟨1900, 1, 1⟩, by decide +kernel, ?_⟩
  rw [hinstant, Binary64.magnitude_eq_div (j := 18) hserial (by norm_num)]
  norm_num [abs_le]

end CellDisplay.Serial
