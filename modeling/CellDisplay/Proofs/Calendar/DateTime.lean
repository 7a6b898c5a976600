import CellDisplay.Proofs.Calendar.DateFields

/-! # Dates and times as serials

The serial of a date and time is rounded twice, when its milliseconds are divided by those of a
day and when the day is added, and once more when it is read. In the range of the calendar the
three errors stay far below half a millisecond, so that the instant is read as it was written.
-/

namespace CellDisplay

/-- The numbers that a clock shows in a day. -/
def TimeOfDay.IsValid (time : TimeOfDay) : Prop :=
  time.hour < 24 ∧ time.minute < 60 ∧ time.second < 60

instance (time : TimeOfDay) : Decidable time.IsValid := inferInstanceAs (Decidable (_ ∧ _))

theorem TimeOfDay.ofSeconds_toSeconds {time : TimeOfDay} (h : time.IsValid) :
    TimeOfDay.ofSeconds time.toSeconds = time := by
  obtain ⟨hour, minute, second⟩ := time
  simp only [IsValid] at h
  simp only [toSeconds, ofSeconds, TimeOfDay.mk.injEq]
  omega

namespace Serial

open Binary64

/-- The time of day to the whole millisecond. -/
def millisOf (time : TimeOfDay) (nanosecond : Nat) : Nat :=
  time.toSeconds * 1000 + nanosecond / 1000000

theorem millisOf_lt {time : TimeOfDay} {nanosecond : Nat} (h : time.IsValid)
    (hn : nanosecond < 10 ^ 9) : millisOf time nanosecond < 86400000 := by
  obtain ⟨hh, hm, hs⟩ := h
  simp only [millisOf, TimeOfDay.toSeconds]
  omega

/-- A number of units is read as a number of milliseconds if the quotient `b`, the sum `s` and
the product `p` are each off by at most half a step of their rounding. The number one has
`u * 2 ^ 53` units. -/
theorem roundHalfUp_of_errors {u day millis b s p : Nat} (hu : 0 < u)
    (hb : 2 * (b * 86400000) ≤ 2 * (millis * (u * 2 ^ 53)) + 86400000 * u ∧
      2 * (millis * (u * 2 ^ 53)) ≤ 2 * (b * 86400000) + 86400000 * u)
    (hs : 2 * s ≤ 2 * (day * (u * 2 ^ 53) + b) + u * 2 ^ 22 ∧
      2 * (day * (u * 2 ^ 53) + b) ≤ 2 * s + u * 2 ^ 22)
    (hp : 2 * p ≤ 2 * (s * 86400000) + u * 2 ^ 49 ∧
      2 * (s * 86400000) ≤ 2 * p + u * 2 ^ 49) :
    Decimal.roundHalfUp p (u * 2 ^ 53) = day * 86400000 + millis := by
  have htotal : (day * 86400000 + millis) * (u * 2 ^ 53) =
      86400000 * (day * (u * 2 ^ 53)) + millis * (u * 2 ^ 53) := by
    rw [Nat.add_mul, Nat.mul_right_comm, Nat.mul_comm]
  generalize day * (u * 2 ^ 53) = x at *
  generalize millis * (u * 2 ^ 53) = y at *
  apply Decimal.roundHalfUp_eq <;> rw [htotal] <;> omega

/-- The serial of a day and a number of milliseconds is split into them. -/
theorem split?_ofInt_add_ofRatio {day millis : Nat} (hday : day < 2 ^ 22 - 1)
    (hmillis : millis < 86400000) :
    split? (ofInt day + ofRatio millis millisPerDay) = some (day, millis) := by
  obtain ⟨e, he⟩ : ∃ e, e + 53 = 1074 := ⟨1021, rfl⟩
  have hone : unitsPerOne = 2 ^ e * 2 ^ 53 := by rw [← Nat.pow_add, he, unitsPerOne]
  have hu := Nat.two_pow_pos e
  have hmillis' : millis * (2 ^ e * 2 ^ 53) < 86400000 * (2 ^ e * 2 ^ 53) :=
    Nat.mul_lt_mul_of_pos_right hmillis (by omega)
  have hday' : day * (2 ^ e * 2 ^ 53) ≤ (2 ^ 22 - 2) * (2 ^ e * 2 ^ 53) :=
    Nat.mul_le_mul_right _ (by omega)
  obtain ⟨b, hb, hquotient, hbounds⟩ := exists_nearest_eq false (millis * unitsPerOne) e
    (show 0 < 86400000 by decide) (by omega) (by rw [hone, Nat.pow_add]; omega)
  obtain ⟨s, hs, hsum, hsbounds⟩ := exists_nearest_eq false (day * unitsPerOne + b) (e + 22)
    Nat.one_pos (by omega) (by simp only [hone, Nat.pow_add] at *; omega)
  obtain ⟨p, hp, hproduct, hpbounds⟩ := exists_nearest_eq false (s * 86400000) (e + 49)
    Nat.one_pos (by omega) (by simp only [hone, Nat.pow_add] at *; omega)
  simp only [hone, Nat.pow_add, Nat.mul_one, Nat.one_mul] at hbounds hsbounds hpbounds
  have hserial : ofInt day + ofRatio millis millisPerDay = finite false s hs := by
    rw [ofInt_natCast (by omega), ofRatio, millisPerDay, hquotient, finite_add_finite, hsum]
  have htotal : (finite false s hs * ofInt millisPerDay).roundedMagnitude? =
      some (day * 86400000 + millis) := by
    rw [finite_mul_ofInt false hs (by decide), millisPerDay, hproduct, roundedMagnitude?, hone,
      roundHalfUp_of_errors hu hbounds hsbounds hpbounds]
  rw [hserial, split?_of_total rfl htotal (by simp only [maxMillis]; omega)]
  simp only [millisPerDay, Option.some.injEq, Prod.mk.injEq]
  omega

end Serial

namespace DateFields

open DateSystem

/-- A date and time of the calendar, written as a serial of the 1900 system, is read as the same
date and time, to the whole millisecond. -/
theorem ofSerial_ofDateTime (date : Date) (time : TimeOfDay) (nanosecond : Nat)
    (calendar : Calendar) (options : Options) (hdate : date.IsReal)
    (hfirst : ⟨1899, 12, 31⟩ ≤ date) (hlast : date ≤ ⟨9999, 12, 31⟩) (htime : time.IsValid)
    (hnano : nanosecond < 10 ^ 9) (hsystem : options.dateSystem = .from1900) :
    ∃ fields,
      ofSerial (Serial.ofDateTime date time nanosecond) calendar options = .ok fields ∧
      fields.year = date.year ∧ fields.month = date.month ∧ fields.day = date.day ∧
      fields.hour24 = time.hour ∧ fields.minute = time.minute ∧ fields.second = time.second ∧
      fields.millisecond = nanosecond / 1000000 := by
  obtain ⟨day, hday, rfl⟩ :=
    exists_dateOf_eq (show from1900.HasDate date from .inl ⟨hdate, hfirst, hlast⟩)
  have hmillis := Serial.millisOf_lt htime hnano
  have hday' : day < 2 ^ 22 - 1 := Nat.lt_of_le_of_lt hday (by decide)
  have hsplit : Serial.split? (Serial.ofDateTime (from1900.dateOf day) time nanosecond) =
      some (day, Serial.millisOf time nanosecond) := by
    rw [← Serial.split?_ofInt_add_ofRatio hday' hmillis, Serial.ofDateTime, Serial.ofDate,
      dayOf_dateOf, Serial.millisOf]
  have hseconds : Serial.millisOf time nanosecond / 1000 = time.toSeconds := by
    simp only [Serial.millisOf]
    omega
  have hclock := TimeOfDay.ofSeconds_toSeconds htime
  rw [← hseconds] at hclock
  refine ⟨_, (ofSerial_of_split calendar options hsplit).trans (if_pos (hsystem ▸ hday)), ?_⟩
  simp only [ofDate, hclock, hsystem, true_and]
  simp only [Serial.millisOf]
  omega

theorem ofSerial_ofDateTime_last_second :
    ∃ fields, ofSerial (Serial.ofDateTime ⟨9999, 12, 31⟩ ⟨23, 59, 59⟩ 999000000) .imperial
        (.ofLocale .jaJP) = .ok fields ∧
      fields.year = 9999 ∧ fields.month = 12 ∧ fields.day = 31 ∧
      fields.hour24 = 23 ∧ fields.minute = 59 ∧ fields.second = 59 ∧
      fields.millisecond = 999 :=
  ofSerial_ofDateTime ⟨9999, 12, 31⟩ ⟨23, 59, 59⟩ 999000000 .imperial (.ofLocale .jaJP)
    (by decide) (by decide) (by decide) (by decide) (by decide) rfl

end DateFields

end CellDisplay
