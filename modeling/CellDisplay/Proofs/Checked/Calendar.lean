import CellDisplay.Checked.Calendar
import CellDisplay.Proofs.Calendar.DateFields

/-! # Dates fit their integers

Every day that a serial can have is far from the limits of 64 bits, and its year fits into 32
bits. Months and weekdays are counted from one, so that their tables are read within bounds.
-/

namespace CellDisplay.Checked

section Calendar

theorem toDays_start (day : Nat) :
    toDays ⟨1899, 12, if day < 60 then 31 else 30⟩ =
      some (Date.toDays ⟨1899, 12, if day < 60 then 31 else 30⟩) := by
  split <;> decide

theorem toDays_start1904 : toDays ⟨1904, 1, 1⟩ = some (Date.toDays ⟨1904, 1, 1⟩) := by decide

variable {d y r m : Nat}

theorem value?_yearOfCycle (h : d < 146097) :
    (yearOfCycle d).value? =
      some (((d - d / 1460 + d / 36524 - d / 146096) / 365 : Nat) : Int) := by
  rw [yearOfCycle]
  simp (disch := omega) only [Signed.literal_eq, Signed.ofInt_add_ofInt, Signed.ofInt_sub_ofInt,
    Signed.ofInt_div_ofInt, Signed.value?_ofInt]
  congr 1
  omega

theorem value?_dayOfYear (hy : y < 400) (hr : r ≤ 365) :
    (dayOfYear (365 * y + y / 4 - y / 100 + r : Nat) y).value? = some (r : Int) := by
  rw [dayOfYear]
  simp (disch := omega) only [Signed.literal_eq, Signed.ofInt_add_ofInt, Signed.ofInt_sub_ofInt,
    Signed.ofInt_mul_ofInt, Signed.ofInt_div_ofInt, Signed.value?_ofInt]
  congr 1
  omega

theorem value?_marchMonth (hr : r ≤ 365) :
    (marchMonth r).value? = some (Date.monthOfDay r : Int) := by
  rw [marchMonth, Date.monthOfDay]
  simp (disch := omega) only [Signed.literal_eq, Signed.ofInt_add_ofInt, Signed.ofInt_mul_ofInt,
    Signed.ofInt_div_ofInt, Signed.value?_ofInt]
  congr 1

theorem value?_dayOfMonth (hr : r ≤ 365) (hm : m ≤ 11) (h : Date.daysToMonth m ≤ r) :
    (dayOfMonth r m).value? = some ((r - Date.daysToMonth m + 1 : Nat) : Int) := by
  rw [Date.daysToMonth] at h
  rw [dayOfMonth, Date.daysToMonth]
  simp (disch := omega) only [Signed.literal_eq, Signed.ofInt_add_ofInt, Signed.ofInt_sub_ofInt,
    Signed.ofInt_mul_ofInt, Signed.ofInt_div_ofInt, Signed.value?_ofInt]
  congr 1
  omega

theorem value?_monthNumber (hm : m ≤ 11) :
    (monthNumber m).value? = some (Date.monthNumber m : Int) := by
  rw [monthNumber, Date.monthNumber]
  by_cases h : m < 10
  · rw [if_pos (by omega), if_pos h]
    simp (disch := omega) only [Signed.literal_eq, Signed.ofInt_add_ofInt, Signed.value?_ofInt]
    rfl
  · rw [if_neg (by omega), if_neg h]
    simp (disch := omega) only [Signed.literal_eq, Signed.ofInt_sub_ofInt, Signed.value?_ofInt]
    congr 1
    omega

theorem lowUnsigned_natCast (h : m < 2 ^ 32) : lowUnsigned m = m := by
  rw [lowUnsigned]
  omega

theorem lowSigned_of_mem {n : Int} (h : -2 ^ 31 ≤ n) (h' : n < 2 ^ 31) : lowSigned n = n := by
  rw [lowSigned]
  apply Int.bmod_eq_of_le <;> omega

section Cycle

variable {cycle : Int} (hcycle : -2 ^ 23 ≤ cycle ∧ cycle < 2 ^ 23) (hd : d < 146097)

include hcycle hd

theorem value?_sinceEpoch :
    (Signed.ofInt (cycle * Date.cycleDays + d + Date.marchEpoch) + 719468 : I64).value? =
      some (cycle * 146097 + d) := by
  rw [Date.marchEpoch, Date.cycleDays]
  simp (disch := omega) only [Signed.literal_eq, Signed.ofInt_add_ofInt, Signed.value?_ofInt]
  congr 1
  omega

theorem value?_cycle :
    (Signed.ediv (Signed.ofInt (cycle * 146097 + d)) 146097 : I64).value? = some cycle := by
  simp (disch := omega) only [Signed.literal_eq, Signed.ediv_ofInt, Signed.value?_ofInt]
  congr 1
  omega

theorem value?_dayOfCycle :
    (Signed.ofInt (cycle * 146097 + d) - Signed.ofInt cycle * 146097 : I64).value? =
      some (d : Int) := by
  simp (disch := omega) only [Signed.literal_eq, Signed.ofInt_mul_ofInt,
    Signed.ofInt_sub_ofInt, Signed.value?_ofInt]
  congr 1
  omega

omit hd in
/-- A year that begins in March ends in the next one. -/
theorem value?_yearOf (hy : y < 400) (m : Nat) :
    (Signed.ofInt y + Signed.ofInt cycle * 400 +
      Signed.ofInt (if (m : Int) ≤ 2 then 1 else 0 : Int) : I64).value? =
        some (y + cycle * 400 + if m ≤ 2 then 1 else 0) := by
  have hbit : (if (m : Int) ≤ 2 then 1 else 0 : Int) = if m ≤ 2 then 1 else 0 := by
    split <;> split <;> omega
  rw [hbit]
  split <;> simp (disch := omega) only [Signed.literal_eq, Signed.ofInt_mul_ofInt,
    Signed.ofInt_add_ofInt, Signed.value?_ofInt]

end Cycle

/-- The values of the steps are those of the cycle of 400 years in which the day falls. -/
theorem ofDays_eq {n : Int} (hyear : Signed.InRange (2 ^ 31) (Date.ofDays n).year) :
    ofDays n = some (Date.ofDays n) := by
  obtain ⟨cycle, c, rfl⟩ := Date.exists_cycleDay n
  have hlt := c.dayOfCycle_lt
  have hyearOfCycle := c.yearOfCycle_lt
  have hday := c.day_le
  have hmonth := Date.monthOfDay_le hday
  have hfirst := Date.daysToMonth_monthOfDay_le c.day
  have hreal := Date.isReal_ofDays (cycle * Date.cycleDays + c.dayOfCycle + Date.marchEpoch)
  rw [Date.ofDays_eq] at hyear hreal
  have hcycle : -2 ^ 23 ≤ cycle ∧ cycle < 2 ^ 23 := by
    obtain ⟨hlow, hhigh⟩ := hyear
    dsimp only at hlow hhigh
    constructor
    · split at hlow <;> omega
    · split at hhigh <;> omega
  have hyearOf := value?_yearOfCycle hlt
  have hdayOf := value?_dayOfYear hyearOfCycle hday
  rw [c.quotient_dayOfCycle] at hyearOf
  rw [← c.dayOfCycle_eq] at hdayOf
  rw [Date.ofDays_eq, ofDays]
  simp only [Option.bind_eq_bind]
  rw [value?_sinceEpoch hcycle hlt, Option.bind_some, value?_cycle hcycle hlt, Option.bind_some,
    value?_dayOfCycle hcycle hlt, Option.bind_some, hyearOf, Option.bind_some, hdayOf,
    Option.bind_some, value?_marchMonth hday, Option.bind_some,
    value?_dayOfMonth hday hmonth hfirst, Option.bind_some, value?_monthNumber hmonth,
    Option.bind_some, value?_yearOf hcycle hyearOfCycle, Option.bind_some]
  rw [lowSigned_of_mem hyear.1 hyear.2,
    lowUnsigned_natCast (Nat.lt_of_le_of_lt hreal.2.1 (by decide)), lowUnsigned_natCast (by omega)]
  rfl

/-- The years of the days since the year 0 fit into 32 bits for more than 600 million years. -/
theorem inRange_year_ofDays {n : Int} (hlow : Date.marchEpoch ≤ n) (hhigh : n < 2 ^ 38) :
    Signed.InRange (2 ^ 31) (Date.ofDays n).year := by
  obtain ⟨cycle, c, rfl⟩ := Date.exists_cycleDay n
  have hlt := c.dayOfCycle_lt
  have hyear := c.yearOfCycle_lt
  have hcycle : 0 ≤ cycle ∧ cycle < 2 ^ 21 := by
    simp only [Date.marchEpoch, Date.cycleDays] at hlow hhigh
    omega
  rw [Date.ofDays_eq]
  constructor <;> dsimp only <;> split <;> omega

section ToDays

variable {date : Date} {year : Int}

theorem value?_marchYear (hyear : Signed.InRange (2 ^ 31) date.year) :
    (Signed.ofInt date.year - Signed.ofInt (if date.month ≤ 2 then 1 else 0 : Int) : I64).value? =
      some date.marchYear := by
  rw [Date.marchYear]
  split <;> simp (disch := omega) only [Signed.ofInt_sub_ofInt, Signed.value?_ofInt]

theorem value?_monthOf (hmonth : date.month < 2 ^ 32) :
    (if date.month > 2 then Signed.ofInt date.month - 3 else Signed.ofInt date.month + 9 :
      I64).value? = some (Date.marchMonth date.month : Int) := by
  rw [Date.marchMonth]
  by_cases h : date.month ≤ 2
  · rw [if_neg (by omega), if_pos h]
    simp (disch := omega) only [Signed.literal_eq, Signed.ofInt_add_ofInt, Signed.value?_ofInt]
    rfl
  · rw [if_pos (by omega), if_neg h]
    simp (disch := omega) only [Signed.literal_eq, Signed.ofInt_sub_ofInt, Signed.value?_ofInt]
    congr 1
    omega

theorem value?_cycleOf (hyear : Signed.InRange (2 ^ 32) year) :
    (Signed.ediv (Signed.ofInt year) 400 : I64).value? = some (year / 400) := by
  simp (disch := omega) only [Signed.literal_eq, Signed.ediv_ofInt, Signed.value?_ofInt]

theorem value?_yearInCycle (hyear : Signed.InRange (2 ^ 32) year) :
    (Signed.ofInt year - Signed.ofInt (year / 400) * 400 : I64).value? = some (year % 400) := by
  simp (disch := omega) only [Signed.literal_eq, Signed.ofInt_mul_ofInt, Signed.ofInt_sub_ofInt,
    Signed.value?_ofInt]
  congr 1
  omega

theorem value?_dayInYear {month day : Nat} (hmonth : month ≤ 2 ^ 33) (hday : day < 2 ^ 32) :
    ((153 * Signed.ofInt month + 2) / 5 + Signed.ofInt day - 1 : I64).value? =
      some (Date.daysToMonth month + day - 1 : Int) := by
  rw [Date.daysToMonth]
  simp (disch := omega) only [Signed.literal_eq, Signed.ofInt_add_ofInt, Signed.ofInt_sub_ofInt,
    Signed.ofInt_mul_ofInt, Signed.ofInt_div_ofInt, Signed.value?_ofInt]
  rfl

theorem value?_dayInCycle {day : Int} (hday : Signed.InRange (2 ^ 40) day) :
    (Signed.ofInt (year % 400) * 365 + Signed.ofInt (year % 400) / 4 -
      Signed.ofInt (year % 400) / 100 + Signed.ofInt day : I64).value? =
      some (year % 400 * 365 + year % 400 / 4 - year % 400 / 100 + day) := by
  simp (disch := omega) only [Signed.literal_eq, Signed.ofInt_add_ofInt, Signed.ofInt_sub_ofInt,
    Signed.ofInt_mul_ofInt, Signed.ofInt_div_ofInt, Signed.value?_ofInt]

theorem value?_dayNumber {day : Int} (hyear : Signed.InRange (2 ^ 32) year)
    (hday : Signed.InRange (2 ^ 40) day) :
    (Signed.ofInt (year / 400) * 146097 + Signed.ofInt (year % 400 * 365 + year % 400 / 4 -
      year % 400 / 100 + day) - 719468 : I64).value? =
      some (Date.daysToYear year + day + Date.marchEpoch) := by
  rw [Date.daysToYear, Date.marchEpoch]
  simp (disch := omega) only [Signed.literal_eq, Signed.ofInt_add_ofInt, Signed.ofInt_sub_ofInt,
    Signed.ofInt_mul_ofInt, Signed.value?_ofInt]
  congr 1
  omega

/-- Every month and day of 32 bits, real or not, counts on from its year. -/
theorem toDays_eq (hyear : Signed.InRange (2 ^ 31) date.year) (hmonth : date.month < 2 ^ 32)
    (hday : date.day < 2 ^ 32) : toDays date = some date.toDays := by
  have hmarch : Signed.InRange (2 ^ 32) date.marchYear := by
    rw [Date.marchYear]
    split <;> omega
  have hmonth' : Date.marchMonth date.month ≤ 2 ^ 33 := by
    rw [Date.marchMonth]
    split <;> omega
  have hdays : Signed.InRange (2 ^ 40)
      (Date.daysToMonth (Date.marchMonth date.month) + date.day - 1 : Int) := by
    rw [Date.daysToMonth]
    omega
  rw [toDays, Date.toDays_eq]
  simp only [Option.bind_eq_bind]
  rw [value?_marchYear hyear, Option.bind_some, value?_cycleOf hmarch, Option.bind_some,
    value?_yearInCycle hmarch, Option.bind_some, value?_monthOf hmonth, Option.bind_some,
    value?_dayInYear hmonth' hday, Option.bind_some, value?_dayInCycle hdays, Option.bind_some,
    value?_dayNumber hmarch hdays]
  congr 1
  omega

end ToDays

theorem dateAfter_eq {start : Date} {day : Nat} (hs : toDays start = some start.toDays)
    (hlow : Date.marchEpoch ≤ start.toDays) (hhigh : start.toDays < 2 ^ 37) (h : day < 2 ^ 37) :
    dateAfter start day = some (Date.ofDays (start.toDays + day)) := by
  have hn : (start.toDays + day : I64).value? = some (start.toDays + day) := by
    rw [Date.marchEpoch] at hlow
    rw [Signed.ofInt_add_ofInt ⟨by omega, by omega⟩ ⟨by omega, by omega⟩,
      Signed.value?_ofInt ⟨by omega, by omega⟩]
  rw [dateAfter, hs, Option.bind_eq_bind, Option.bind_some, hn]
  exact ofDays_eq (inRange_year_ofDays (by omega) (by omega))

theorem dateOf_eq (system : DateSystem) {day : Nat} (h : day < 2 ^ 37) :
    dateOf system day = some (system.dateOf day) := by
  cases system with
  | from1900 =>
    rw [dateOf, DateSystem.dateOf]
    split
    · rfl
    · exact dateAfter_eq (toDays_start day) (by split <;> decide) (by split <;> decide) h
  | from1904 => exact dateAfter_eq toDays_start1904 (by decide) (by decide) h

theorem date?_eq (system : DateSystem) {day : Nat} (h : day < 2 ^ 37) :
    date? system day = some (system.date? day) := by
  rw [date?, dateOf_eq system h, Option.map_some, DateSystem.date?]

theorem value?_weekdayIndex (system : DateSystem) {day : Nat} (h : day < 2 ^ 37) :
    (weekdayIndex system day).value? = some ((system.weekday day - 1 : Nat) : Int) := by
  cases system with
  | from1900 =>
    rw [weekdayIndex, DateSystem.weekday]
    simp (disch := omega) only [Signed.literal_eq, Signed.ofInt_sub_ofInt, Signed.emod_ofInt,
      Signed.value?_ofInt]
    congr 1
    omega
  | from1904 =>
    rw [weekdayIndex, DateSystem.weekday]
    simp (disch := omega) only [Signed.literal_eq, Signed.ofInt_add_ofInt, Signed.emod_ofInt,
      Signed.value?_ofInt]
    congr 1

theorem weekday_eq (system : DateSystem) {day : Nat} (h : day < 2 ^ 37) :
    weekday system day = some (system.weekday day) := by
  obtain ⟨hlow, hhigh⟩ := DateFields.weekday_mem system day
  rw [weekday, value?_weekdayIndex system h, Option.bind_eq_bind, Option.bind_some,
    lowUnsigned_natCast (by omega), Unsigned.literal_eq, Unsigned.value?_ofNat_add (by omega),
    Nat.sub_add_cancel hlow]

theorem splitMillis_eq {total : Nat} (h : total < 2 ^ 63) :
    splitMillis total = some (total / Serial.millisPerDay, total % Serial.millisPerDay) := by
  have hday : (Signed.ediv (Signed.ofInt total) (Signed.ofInt Serial.millisPerDay) :
      I64).value? = some ((total / Serial.millisPerDay : Nat) : Int) := by
    rw [Serial.millisPerDay]
    simp (disch := omega) only [Signed.ediv_ofInt, Signed.value?_ofInt]
    rfl
  have hmillis : (Signed.emod (Signed.ofInt total) (Signed.ofInt Serial.millisPerDay) :
      I64).value? = some ((total % Serial.millisPerDay : Nat) : Int) := by
    rw [Serial.millisPerDay]
    simp (disch := omega) only [Signed.emod_ofInt, Signed.value?_ofInt]
    rfl
  have hlt : total % Serial.millisPerDay < 2 ^ 32 :=
    Nat.lt_trans (Nat.mod_lt _ (by decide)) (by decide)
  rw [splitMillis, hday, hmillis]
  simp only [Option.bind_eq_bind, Option.bind_some, Int.toNat_natCast, lowUnsigned_natCast hlt,
    Option.pure_def]

theorem split?_eq (serial : Binary64) : split? serial = some (Serial.split? serial) := by
  rw [split?, Serial.split?]
  split
  · rfl
  · cases (serial * Binary64.ofInt Serial.millisPerDay).roundedMagnitude? with
    | none => rfl
    | some total =>
      dsimp only
      split
      · have hle : min total Serial.maxMillis < 2 ^ 63 :=
          Nat.lt_of_le_of_lt (Nat.min_le_right _ _) (by decide)
        rw [splitMillis_eq hle, Option.map_some]
      · rfl

end Calendar

section Fields

theorem entry_eq {n number : Nat} (names : Vector Text n) (hlow : 1 ≤ number) (hhigh : number ≤ n)
    (hn : n < 2 ^ 32) : entry names number = some (Locale.nameOf names number) := by
  have hget : names[number - 1]? = some names[number - 1] := Vector.getElem?_eq_getElem (by omega)
  rw [entry, Unsigned.literal_eq, Unsigned.value?_ofNat_sub (by omega) hlow, Option.bind_eq_bind,
    Option.bind_some, hget, Locale.nameOf, if_neg (by omega), hget, Option.getD_some]

theorem twelveHour_eq {hour : Nat} (h : hour < 24) :
    twelveHour hour = some (DateFields.twelveHour hour) := by
  rw [twelveHour, DateFields.twelveHour]
  split
  · rfl
  · split
    · rfl
    · rw [Unsigned.literal_eq, Unsigned.value?_ofNat_sub (by omega) (by omega)]

theorem eraFields_eq (calendar : Calendar) {date : Date}
    (hyear : Signed.InRange (2 ^ 31) date.year) :
    eraFields calendar date = some (DateFields.eraFields calendar date) := by
  cases calendar with
  | gregorian => rfl
  | imperial =>
    rw [eraFields, DateFields.eraFields]
    cases hera : Era.of? date with
    | none => rfl
    | some era =>
      dsimp only
      rw [Era.value?_yearOf hera hyear]
      rfl

theorem fieldsOf_eq (options : Options) (calendar : Calendar) {day millis : Nat}
    (hday : day < 2 ^ 37) (hmillis : millis < Serial.millisPerDay)
    (hyear : (options.dateSystem.dateOf day).year ≤ DateSystem.lastYear) :
    fieldsOf (options.dateSystem.dateOf day) day millis calendar options =
      some (DateFields.ofDate (options.dateSystem.dateOf day) day millis calendar options) := by
  rw [Serial.millisPerDay] at hmillis
  obtain ⟨hmonth, hmonth'⟩ := DateFields.month_dateOf_mem options.dateSystem day
  obtain ⟨hweekday, hweekday'⟩ := DateFields.weekday_mem options.dateSystem day
  have hseconds : (Unsigned.ofNat millis / 1000 : U32).value? = some (millis / 1000) :=
    Unsigned.value?_ofNat_div (by omega) (by decide) (by decide)
  have hmillisecond : (Unsigned.ofNat millis % 1000 : U32).value? = some (millis % 1000) :=
    Unsigned.value?_ofNat_mod (by omega) (by decide) (by decide)
  obtain ⟨seconds, hs, hlt⟩ : ∃ seconds, millis / 1000 = seconds ∧ seconds < 86400 :=
    ⟨_, rfl, by omega⟩
  have hhour : (Unsigned.ofNat seconds / 3600 : U32).value? = some (seconds / 3600) :=
    Unsigned.value?_ofNat_div (by omega) (by decide) (by decide)
  have hminute : (Unsigned.ofNat seconds % 3600 / 60 : U32).value? =
      some (seconds % 3600 / 60) := by
    simp (disch := omega) only [Unsigned.literal_eq, Unsigned.ofNat_mod_ofNat,
      Unsigned.ofNat_div_ofNat, Unsigned.value?_ofNat]
  have hsecond : (Unsigned.ofNat seconds % 60 : U32).value? = some (seconds % 60) :=
    Unsigned.value?_ofNat_mod (by omega) (by decide) (by decide)
  have helapsed : (Signed.ofInt day * 86400 + Signed.ofInt seconds : I64).value? =
      some ((day * 86400 + seconds : Nat) : Int) := by
    simp (disch := omega) only [Signed.literal_eq, Signed.ofInt_mul_ofInt,
      Signed.ofInt_add_ofInt, Signed.value?_ofInt]
    rfl
  have hbound : day * 86400 + seconds < 2 ^ 62 := by omega
  generalize he : day * 86400 + seconds = elapsed at *
  have hhours : (Signed.ofInt elapsed / 3600 : I64).value? =
      some ((elapsed / 3600 : Nat) : Int) := by
    simp (disch := omega) only [Signed.literal_eq, Signed.ofInt_div_ofInt, Signed.value?_ofInt]
    rfl
  have hminutes : (Signed.ofInt elapsed / 60 : I64).value? = some ((elapsed / 60 : Nat) : Int) := by
    simp (disch := omega) only [Signed.literal_eq, Signed.ofInt_div_ofInt, Signed.value?_ofInt]
    rfl
  rw [fieldsOf]
  simp -implicitDefEqProofs only [Option.bind_eq_bind, hseconds, hs, Option.bind_some, hhour,
    hminute, hsecond, hmillisecond, twelveHour_eq (show seconds / 3600 < 24 by omega),
    weekday_eq options.dateSystem hday, entry_eq _ hweekday hweekday' (by decide),
    entry_eq _ hmonth hmonth' (by decide), helapsed, hhours, hminutes]
  have hlow := options.dateSystem.one_le_year_dateOf day
  rw [eraFields_eq calendar ⟨by omega, Int.lt_of_le_of_lt hyear (by decide)⟩]
  simp -implicitDefEqProofs only [Option.bind_some, Int.toNat_natCast, Option.pure_def,
    DateFields.ofDate, TimeOfDay.ofSeconds, hs, he]

theorem ofSerial_eq (serial : Binary64) (calendar : Calendar) (options : Options) :
    ofSerial serial calendar options = some (DateFields.ofSerial serial calendar options) := by
  rw [ofSerial, split?_eq, DateFields.ofSerial]
  cases hs : Serial.split? serial with
  | none => rfl
  | some found =>
    obtain ⟨day, millis⟩ := found
    have hday := Serial.day_le_of_split? hs
    have hmillis := Serial.millis_lt_of_split? hs
    have hlt : day < 2 ^ 37 := Nat.lt_of_le_of_lt hday (by decide)
    simp only [Option.bind_eq_bind, Option.bind_some, date?_eq options.dateSystem hlt]
    cases hd : options.dateSystem.date? day with
    | none => rfl
    | some date =>
      rw [DateSystem.date?, Option.ite_none_right_eq_some] at hd
      obtain ⟨hyear, he⟩ := hd
      obtain rfl := Option.some.inj he
      simp only [fieldsOf_eq options calendar hlt hmillis hyear]
      rfl

end Fields

end CellDisplay.Checked
