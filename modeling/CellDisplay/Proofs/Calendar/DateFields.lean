import CellDisplay.Calendar.DateFields
import CellDisplay.Proofs.Calendar.Era
import CellDisplay.Proofs.Calendar.Serial

/-! # The fields of a serial

All fields of a date and time are those of one day and one millisecond of that day. A serial
has them exactly if it can be split and its day has a date.
-/

namespace CellDisplay

theorem Locale.nameOf_succ {n : Nat} (names : Vector Text n) (i : Fin n) :
    Locale.nameOf names (i + 1) = names[i] := by
  simp [nameOf]

namespace DateFields

def date (fields : DateFields) : Date := ⟨fields.year, fields.month, fields.day⟩

/-- The second of the day. -/
def secondOfDay (fields : DateFields) : Nat :=
  (fields.hour24 * 60 + fields.minute) * 60 + fields.second

/-- The names of a month are the entries of the locale for one and the same month. -/
structure NamesMonth (fields : DateFields) (locale : Locale) (i : Fin 12) : Prop where
  month : fields.month = i + 1
  short : fields.monthShort = locale.monthsShort[i]
  long : fields.monthLong = locale.monthsLong[i]

/-- The names of a weekday are the entries of the locale for one and the same weekday. -/
structure NamesWeekday (fields : DateFields) (locale : Locale) (i : Fin 7) : Prop where
  weekday : fields.weekday = i + 1
  short : fields.weekdayShort = locale.weekdaysShort[i]
  long : fields.weekdayLong = locale.weekdaysLong[i]

/-- The fields show one day of a date system and one millisecond of it, in one locale. -/
structure Shows (fields : DateFields) (options : Options) (day millis : Nat) : Prop where
  dayOf_date : options.dateSystem.dayOf fields.date = day
  isReal_date : fields.date.IsReal ∨
    options.dateSystem = .from1900 ∧ day = 60 ∧ fields.date = DateSystem.phantomDay
  hour24_lt : fields.hour24 < 24
  minute_lt : fields.minute < 60
  second_lt : fields.second < 60
  millisecond_lt : fields.millisecond < 1000
  millis_eq : fields.secondOfDay * 1000 + fields.millisecond = millis
  hour12_pos : 1 ≤ fields.hour12
  hour12_le : fields.hour12 ≤ 12
  hour12_mod : fields.hour12 % 12 = fields.hour24 % 12
  halfDay_eq :
    fields.halfDay = if 12 ≤ fields.hour24 then options.locale.pm else options.locale.am
  halfDay_eq_pm_iff : options.locale.am ≠ options.locale.pm →
    (fields.halfDay = options.locale.pm ↔ 12 ≤ fields.hour24)
  elapsedSeconds_eq : fields.elapsedSeconds = day * 86400 + fields.secondOfDay
  elapsedMinutes_eq : fields.elapsedMinutes = fields.elapsedSeconds / 60
  elapsedHours_eq : fields.elapsedHours = fields.elapsedSeconds / 3600
  elapsed_sum :
    fields.elapsedHours * 3600 + fields.minute * 60 + fields.second = fields.elapsedSeconds
  names_month : ∃ i, fields.NamesMonth options.locale i
  names_weekday : ∃ i, fields.NamesWeekday options.locale i
  eraYear_pos : 1 ≤ fields.eraYear

section OfDate

variable {date : Date} {day millis : Nat} {calendar : Calendar} {options : Options}

theorem one_le_eraYear (calendar : Calendar) (h : 1 ≤ date.year) :
    1 ≤ (eraFields calendar date).2.2.2 := by
  cases calendar with
  | gregorian => exact h
  | imperial =>
    rw [eraFields]
    split
    · rename_i era hera
      exact Era.one_le_yearOf hera
    · exact h

theorem twelveHour_mem {hour : Nat} (h : hour < 24) :
    1 ≤ twelveHour hour ∧ twelveHour hour ≤ 12 ∧ twelveHour hour % 12 = hour % 12 := by
  unfold twelveHour
  split
  · omega
  · split <;> omega

theorem names_month_ofDate (hlow : 1 ≤ date.month) (hhigh : date.month ≤ 12) :
    ∃ i, (ofDate date day millis calendar options).NamesMonth options.locale i := by
  obtain ⟨i, hi⟩ : ∃ i : Fin 12, date.month = i + 1 :=
    ⟨⟨date.month - 1, by omega⟩, by dsimp only; omega⟩
  refine ⟨i, hi, ?_, ?_⟩
  · rw [← Locale.nameOf_succ, ← hi]
    rfl
  · rw [← Locale.nameOf_succ, ← hi]
    rfl

theorem weekday_mem (system : DateSystem) (day : Nat) :
    1 ≤ system.weekday day ∧ system.weekday day ≤ 7 := by
  cases system <;> simp only [DateSystem.weekday] <;> omega

theorem names_weekday_ofDate (date : Date) (day millis : Nat) (calendar : Calendar)
    (options : Options) :
    ∃ i, (ofDate date day millis calendar options).NamesWeekday options.locale i := by
  obtain ⟨hlow, hhigh⟩ := weekday_mem options.dateSystem day
  obtain ⟨i, hi⟩ : ∃ i : Fin 7, options.dateSystem.weekday day = i + 1 :=
    ⟨⟨options.dateSystem.weekday day - 1, by omega⟩, by dsimp only; omega⟩
  refine ⟨i, hi, ?_, ?_⟩
  · rw [← Locale.nameOf_succ, ← hi]
    rfl
  · rw [← Locale.nameOf_succ, ← hi]
    rfl

theorem month_dateOf_mem (system : DateSystem) (day : Nat) :
    1 ≤ (system.dateOf day).month ∧ (system.dateOf day).month ≤ 12 := by
  obtain h | ⟨-, -, h⟩ := system.isReal_dateOf day
  · exact ⟨h.1, h.2.1⟩
  · rw [h]
    decide

theorem shows_ofDate (options : Options) (calendar : Calendar) {day millis : Nat}
    (hmillis : millis < Serial.millisPerDay) :
    (ofDate (options.dateSystem.dateOf day) day millis calendar options).Shows
      options day millis := by
  simp only [Serial.millisPerDay] at hmillis
  have hhour : millis / 1000 / 3600 < 24 := by omega
  obtain ⟨hpos, hle, hmod⟩ := twelveHour_mem hhour
  obtain ⟨hlow, hhigh⟩ := month_dateOf_mem options.dateSystem day
  have hyear := options.dateSystem.one_le_year_dateOf day
  have hseconds : (millis / 1000 / 3600 * 60 + millis / 1000 % 3600 / 60) * 60 +
      millis / 1000 % 60 = millis / 1000 := by omega
  constructor
  case dayOf_date => exact options.dateSystem.dayOf_dateOf day
  case isReal_date => exact options.dateSystem.isReal_dateOf day
  case hour24_lt => exact hhour
  case minute_lt => simp only [ofDate, TimeOfDay.ofSeconds]; omega
  case second_lt => simp only [ofDate, TimeOfDay.ofSeconds]; omega
  case millisecond_lt => simp only [ofDate]; omega
  case millis_eq =>
    simp only [secondOfDay, ofDate, TimeOfDay.ofSeconds, hseconds]
    omega
  case hour12_pos => exact hpos
  case hour12_le => exact hle
  case hour12_mod => exact hmod
  case halfDay_eq => rfl
  case halfDay_eq_pm_iff =>
    intro hne
    simp only [ofDate]
    split <;> simp_all
  case elapsedSeconds_eq =>
    simp only [secondOfDay, ofDate, TimeOfDay.ofSeconds, hseconds]
  case elapsedMinutes_eq => rfl
  case elapsedHours_eq => rfl
  case elapsed_sum =>
    simp only [ofDate, TimeOfDay.ofSeconds]
    omega
  case names_month => exact names_month_ofDate hlow hhigh
  case names_weekday => exact names_weekday_ofDate _ _ _ _ _
  case eraYear_pos => exact one_le_eraYear calendar hyear

end OfDate

section OfSerial

variable {serial : Binary64} {day millis : Nat}

theorem ofSerial_of_split (calendar : Calendar) (options : Options)
    (h : Serial.split? serial = some (day, millis)) :
    ofSerial serial calendar options =
      if day ≤ options.dateSystem.lastDay then
        .ok (ofDate (options.dateSystem.dateOf day) day millis calendar options)
      else .error (.outOfRange serial) := by
  rw [ofSerial, h]
  dsimp only
  by_cases hday : day ≤ options.dateSystem.lastDay
  · rw [options.dateSystem.date?_of_le hday, if_pos hday]
  · rw [options.dateSystem.date?_of_lt (Nat.lt_of_not_le hday), if_neg hday]

/-- The fields of a serial show a day and a millisecond of it, in a positive year. -/
theorem exists_shows_of_ofSerial {calendar : Calendar} {options : Options} {fields : DateFields}
    (h : ofSerial serial calendar options = .ok fields) :
    ∃ day millis, fields.Shows options day millis ∧ 1 ≤ fields.year := by
  cases hs : Serial.split? serial with
  | none =>
    rw [ofSerial, hs] at h
    cases h
  | some split =>
    obtain ⟨day, millis⟩ := split
    rw [ofSerial_of_split calendar options hs] at h
    split at h
    · obtain rfl := Except.ok.inj h
      exact ⟨day, millis, shows_ofDate options calendar (Serial.millis_lt_of_split? hs),
        options.dateSystem.one_le_year_dateOf day⟩
    · cases h

/-- A serial is refused as invalid if it cannot be split, and as out of range if its day comes
after the last one; otherwise the fields show its day and its millisecond of the day. -/
theorem ofSerial_trichotomy (serial : Binary64) (calendar : Calendar) (options : Options) :
    (ofSerial serial calendar options = .error (.invalid serial) ↔
      Serial.split? serial = none) ∧
    (ofSerial serial calendar options = .error (.outOfRange serial) ↔
      ∃ day millis, Serial.split? serial = some (day, millis) ∧
        options.dateSystem.lastDay < day) ∧
    (∀ day millis, Serial.split? serial = some (day, millis) →
      day ≤ options.dateSystem.lastDay →
      ∃ fields, ofSerial serial calendar options = .ok fields ∧
        fields.Shows options day millis) := by
  cases hs : Serial.split? serial with
  | none =>
    have hinvalid : ofSerial serial calendar options = .error (.invalid serial) := by
      rw [ofSerial, hs]
    simp [hinvalid]
  | some split =>
    obtain ⟨day, millis⟩ := split
    have hmillis := Serial.millis_lt_of_split? hs
    rw [ofSerial_of_split calendar options hs]
    by_cases hday : day ≤ options.dateSystem.lastDay
    · rw [if_pos hday]
      refine ⟨by simp, ?_, ?_⟩
      · simp only [reduceCtorEq, false_iff]
        rintro ⟨day', millis', h, hlt⟩
        obtain ⟨rfl, rfl⟩ := Prod.mk.inj (Option.some.inj h)
        omega
      · intro day' millis' h _
        obtain ⟨rfl, rfl⟩ := Prod.mk.inj (Option.some.inj h)
        exact ⟨_, rfl, shows_ofDate options calendar hmillis⟩
    · rw [if_neg hday]
      refine ⟨by simp, ?_, ?_⟩
      · simp only [true_iff]
        exact ⟨day, millis, rfl, Nat.lt_of_not_le hday⟩
      · intro day' millis' h hle
        obtain ⟨rfl, rfl⟩ := Prod.mk.inj (Option.some.inj h)
        exact absurd hle hday

theorem ofSerial_trichotomy_phantomDay :
    ofSerial .nan .imperial (.ofLocale .jaJP) = .error (.invalid .nan) ∧
    ofSerial 2958466 .imperial (.ofLocale .jaJP) = .error (.outOfRange 2958466) ∧
    ∃ fields, ofSerial (Binary64.ofRatio 121 2) .imperial (.ofLocale .jaJP) = .ok fields ∧
      fields.Shows (.ofLocale .jaJP) 60 43200000 :=
  ⟨(ofSerial_trichotomy .nan .imperial (.ofLocale .jaJP)).1.mpr (by decide +kernel),
    (ofSerial_trichotomy 2958466 .imperial (.ofLocale .jaJP)).2.1.mpr
      ⟨2958466, 0, Serial.split?_ofInt (by decide), by decide⟩,
    (ofSerial_trichotomy (Binary64.ofRatio 121 2) .imperial (.ofLocale .jaJP)).2.2 60 43200000
      (by decide +kernel) (by decide)⟩

end OfSerial

end DateFields

end CellDisplay
