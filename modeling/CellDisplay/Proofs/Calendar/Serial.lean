import CellDisplay.Calendar.Serial
import CellDisplay.Proofs.Binary64.Rounding
import CellDisplay.Proofs.Calendar.Date

/-! # Dates of serial numbers

The days of a date system from 0 to the last day of the year 9999 and the dates of the system
stand in a bijection that keeps their order. Whole serials in this range are those days; beyond
it a serial has no date.
-/

namespace CellDisplay

namespace DateSystem

/-- The last day of a system, which falls on the last date. -/
def lastDay : DateSystem → Nat
  | from1900 => 2958465
  | from1904 => 2957003

/-- The date of day 0. -/
def firstDate : DateSystem → Date
  | from1900 => ⟨1899, 12, 31⟩
  | from1904 => ⟨1904, 1, 1⟩

def lastDate : Date := ⟨9999, 12, 31⟩

/-- The dates of a system: those of the calendar in its range, and the day that the 1900 system
inserts. -/
def HasDate (system : DateSystem) (d : Date) : Prop :=
  (d.IsReal ∧ system.firstDate ≤ d ∧ d ≤ lastDate) ∨ (system = from1900 ∧ d = phantomDay)

instance (system : DateSystem) (d : Date) : Decidable (system.HasDate d) :=
  inferInstanceAs (Decidable (_ ∨ _))

section Phantom

variable {d : Date} {day : Nat}

theorem not_isReal_phantomDay : ¬ phantomDay.IsReal := by decide

theorem ne_phantomDay (hd : d.IsReal) : d ≠ phantomDay :=
  fun h => not_isReal_phantomDay (h ▸ hd)

/-- The phantom day stands right before the first of March. -/
theorem lt_phantomDay_iff (hd : d.IsReal) : d < phantomDay ↔ d < ⟨1900, 3, 1⟩ := by
  obtain ⟨y, m, day⟩ := d
  obtain ⟨h₁, h₂, h₃, h₄⟩ := hd
  change Date.lt _ _ ↔ Date.lt _ _
  simp only [Date.lt, phantomDay] at *
  constructor
  · omega
  · rintro (h | ⟨rfl, h | ⟨rfl, h⟩⟩)
    · omega
    · rcases Nat.lt_or_eq_of_le (Nat.le_of_lt_succ h) with hm | rfl
      · omega
      · simp [Date.monthLength, Date.IsLeap] at h₄
        omega
    · omega

theorem dateOf_sixty : from1900.dateOf 60 = phantomDay := rfl

theorem isReal_dateOf_from1900 (h : day ≠ 60) : (from1900.dateOf day).IsReal := by
  rw [dateOf, if_neg h]
  exact Date.isReal_ofDays _

theorem toDays_dateOf_from1900 (h : day ≠ 60) :
    (from1900.dateOf day).toDays =
      Date.toDays ⟨1899, 12, 31⟩ + (if day < 60 then day else day - 1) := by
  rw [dateOf, if_neg h, Date.toDays_ofDays]
  have : Date.toDays ⟨1899, 12, 31⟩ = Date.toDays ⟨1899, 12, 30⟩ + 1 := rfl
  split <;> omega

theorem isReal_dateOf_from1904 (day : Nat) : (from1904.dateOf day).IsReal :=
  Date.isReal_ofDays _

theorem toDays_dateOf_from1904 (day : Nat) :
    (from1904.dateOf day).toDays = Date.toDays ⟨1904, 1, 1⟩ + day :=
  Date.toDays_ofDays _

end Phantom

theorem dayOf_dateOf (system : DateSystem) (day : Nat) :
    system.dayOf (system.dateOf day) = day := by
  cases system with
  | from1900 =>
    by_cases h : day = 60
    · subst h
      rfl
    · rw [dayOf, if_neg (ne_phantomDay (isReal_dateOf_from1900 h)), toDays_dateOf_from1900 h]
      dsimp only
      split <;> split <;> omega
  | from1904 =>
    rw [dayOf, toDays_dateOf_from1904]
    omega

theorem dateOf_lt_of_lt (system : DateSystem) {m n : Nat} (h : m < n) :
    system.dateOf m < system.dateOf n := by
  cases system with
  | from1900 =>
    have hmarch : Date.toDays ⟨1900, 3, 1⟩ = Date.toDays ⟨1899, 12, 31⟩ + 60 := rfl
    by_cases hm : m = 60
    · subst hm
      have hn : (from1900.dateOf n).IsReal := isReal_dateOf_from1900 (by omega)
      rcases Date.lt_trichotomy phantomDay (from1900.dateOf n) with hlt | heq | hlt
      · exact hlt
      · exact absurd heq.symm (ne_phantomDay hn)
      · rw [lt_phantomDay_iff hn, ← Date.toDays_lt_iff hn (by decide),
          toDays_dateOf_from1900 (by omega), hmarch] at hlt
        split at hlt <;> omega
    · have hm' := isReal_dateOf_from1900 hm
      by_cases hn : n = 60
      · subst hn
        rw [dateOf_sixty, lt_phantomDay_iff hm', ← Date.toDays_lt_iff hm' (by decide),
          toDays_dateOf_from1900 hm, hmarch]
        split <;> omega
      · rw [← Date.toDays_lt_iff hm' (isReal_dateOf_from1900 hn), toDays_dateOf_from1900 hm,
          toDays_dateOf_from1900 hn]
        split <;> split <;> omega
  | from1904 =>
    rw [← Date.toDays_lt_iff (isReal_dateOf_from1904 m) (isReal_dateOf_from1904 n),
      toDays_dateOf_from1904, toDays_dateOf_from1904]
    omega

theorem year_dateOf_mono (system : DateSystem) {m n : Nat} (h : m ≤ n) :
    (system.dateOf m).year ≤ (system.dateOf n).year := by
  rcases Nat.lt_or_eq_of_le h with hlt | rfl
  · obtain h | ⟨h, -⟩ := system.dateOf_lt_of_lt hlt <;> omega
  · exact Int.le_refl _

theorem dateOf_lastDay (system : DateSystem) : system.dateOf system.lastDay = lastDate := by
  cases system <;> decide

theorem year_dateOf_lastDay_succ (system : DateSystem) :
    (system.dateOf (system.lastDay + 1)).year = 10000 := by
  cases system <;> decide

/-- The days with a date are those up to the last one. -/
theorem date?_of_le (system : DateSystem) {day : Nat} (h : day ≤ system.lastDay) :
    system.date? day = some (system.dateOf day) := by
  have := system.year_dateOf_mono h
  rw [dateOf_lastDay] at this
  rw [date?]
  exact if_pos this

theorem date?_of_lt (system : DateSystem) {day : Nat} (h : system.lastDay < day) :
    system.date? day = none := by
  have := system.year_dateOf_mono (show system.lastDay + 1 ≤ day from h)
  rw [year_dateOf_lastDay_succ] at this
  rw [date?, if_neg]
  simp only [lastYear]
  omega

theorem isReal_dateOf (system : DateSystem) (day : Nat) :
    (system.dateOf day).IsReal ∨
      system = from1900 ∧ day = 60 ∧ system.dateOf day = phantomDay := by
  cases system with
  | from1900 =>
    by_cases h : day = 60
    · exact .inr ⟨rfl, h, h ▸ rfl⟩
    · exact .inl (isReal_dateOf_from1900 h)
  | from1904 => exact .inl (isReal_dateOf_from1904 day)

theorem one_le_year_dateOf (system : DateSystem) (day : Nat) :
    1 ≤ (system.dateOf day).year := by
  have := system.year_dateOf_mono (Nat.zero_le day)
  have hfirst : 1 ≤ (system.dateOf 0).year := by cases system <;> decide
  omega

/-- Every date of a system is that of a day up to the last one. -/
theorem exists_dateOf_eq {system : DateSystem} {d : Date} (h : system.HasDate d) :
    ∃ day, day ≤ system.lastDay ∧ system.dateOf day = d := by
  obtain ⟨hd, hfirst, hlast⟩ | ⟨rfl, rfl⟩ := h
  · suffices ∃ day, system.dateOf day = d by
      obtain ⟨day, rfl⟩ := this
      refine ⟨day, Nat.le_of_not_lt fun hlt => hlast ?_, rfl⟩
      rw [← system.dateOf_lastDay]
      exact system.dateOf_lt_of_lt hlt
    cases system with
    | from1900 =>
      have hle : ¬ d.toDays < Date.toDays ⟨1899, 12, 31⟩ :=
        fun hlt => hfirst ((Date.toDays_lt_iff hd (by decide)).mp hlt)
      obtain ⟨k, hk⟩ := Int.le.dest (Int.not_lt.mp hle)
      -- The days from the first of March on are counted with the phantom day.
      rcases Nat.lt_or_ge k 60 with h | h
      · have hne : k ≠ 60 := by omega
        refine ⟨k, ?_⟩
        rw [← Date.toDays_inj (isReal_dateOf_from1900 hne) hd, toDays_dateOf_from1900 hne,
          if_pos h, hk]
      · have hne : k + 1 ≠ 60 := by omega
        refine ⟨k + 1, ?_⟩
        rw [← Date.toDays_inj (isReal_dateOf_from1900 hne) hd, toDays_dateOf_from1900 hne,
          if_neg (by omega), Nat.add_sub_cancel, hk]
    | from1904 =>
      have hle : ¬ d.toDays < Date.toDays ⟨1904, 1, 1⟩ :=
        fun hlt => hfirst ((Date.toDays_lt_iff hd (by decide)).mp hlt)
      obtain ⟨k, hk⟩ := Int.le.dest (Int.not_lt.mp hle)
      refine ⟨k, ?_⟩
      rw [← Date.toDays_inj (isReal_dateOf_from1904 k) hd, toDays_dateOf_from1904, hk]
  · exact ⟨60, by decide, rfl⟩

theorem lastDay_lt (system : DateSystem) : system.lastDay < 2 ^ 26 := by
  cases system <;> decide

/-- The year of any day that a serial can have fits into 32 bits. -/
theorem bmod_year_dateOf (system : DateSystem) {day : Nat}
    (h : day ≤ Serial.maxMillis / Serial.millisPerDay) :
    (system.dateOf day).year.bmod (2 ^ 32) = (system.dateOf day).year := by
  have hlow := system.one_le_year_dateOf day
  have hhigh := system.year_dateOf_mono h
  have hmax : (system.dateOf (Serial.maxMillis / Serial.millisPerDay)).year < 2 ^ 31 := by
    cases system <;> decide
  apply Int.bmod_eq_of_le <;> omega

end DateSystem

namespace Serial

open DateSystem

/-- A serial is split by its nearest whole number of milliseconds. -/
theorem split?_of_total {serial : Binary64} {total : Nat} (hsign : serial.isNegative = false)
    (htotal : (serial * Binary64.ofInt millisPerDay).roundedMagnitude? = some total)
    (hmax : total ≤ maxMillis) :
    split? serial = some (total / millisPerDay, total % millisPerDay) := by
  rw [split?, hsign, htotal, Bool.false_and, if_neg Bool.false_ne_true]
  dsimp only
  rw [if_pos (Nat.le_succ_of_le hmax), Nat.min_eq_left hmax]

theorem split?_ofInt {n : Nat} (h : n < 2 ^ 26) : split? (Binary64.ofInt n) = some (n, 0) := by
  have hsign : (Binary64.ofInt n).isNegative = false := by
    rw [Binary64.ofInt_natCast (by omega)]
    rfl
  have htotal : (Binary64.ofInt n * Binary64.ofInt millisPerDay).roundedMagnitude? =
      some (n * millisPerDay) := by
    simp only [millisPerDay]
    rw [Binary64.ofInt_mul_ofInt (by omega) (by omega) (by omega),
      Binary64.roundedMagnitude?_ofInt (by omega)]
  rw [split?_of_total hsign htotal (by simp only [millisPerDay, maxMillis]; omega),
    Nat.mul_div_cancel _ (by decide), Nat.mul_mod_left]

theorem date?_ofInt (system : DateSystem) {n : Nat} (h : n < 2 ^ 26) :
    date? (Binary64.ofInt n) system = system.date? n := by
  rw [date?, split?_ofInt h]
  rfl

theorem exists_total_of_split? {serial : Binary64} {day millis : Nat}
    (h : split? serial = some (day, millis)) :
    ∃ total, total ≤ maxMillis ∧ total / millisPerDay = day ∧ total % millisPerDay = millis := by
  unfold split? at h
  split at h
  · simp at h
  · split at h
    · simp at h
    · split at h
      · exact ⟨_, Nat.min_le_right _ _, Prod.mk.inj (Option.some.inj h)⟩
      · simp at h

theorem day_le_of_split? {serial : Binary64} {day millis : Nat}
    (h : split? serial = some (day, millis)) : day ≤ maxMillis / millisPerDay := by
  obtain ⟨total, hmax, rfl, -⟩ := exists_total_of_split? h
  exact Nat.div_le_div_right hmax

theorem millis_lt_of_split? {serial : Binary64} {day millis : Nat}
    (h : split? serial = some (day, millis)) : millis < millisPerDay := by
  obtain ⟨total, -, -, rfl⟩ := exists_total_of_split? h
  exact Nat.mod_lt _ (by decide)

/-- Whole serials up to the last day and the dates of a system are inverse to each other, and
later days come later in the calendar. The year of every day that a serial can have fits into
32 bits, and a day after the last one has no date. -/
theorem date?_ofDate_inverse (system : DateSystem) :
    system.dayOf lastDate = system.lastDay ∧
    (∀ n : Nat, n ≤ system.lastDay → ∃ d,
      date? (Binary64.ofInt n) system = some d ∧ ofDate d system = Binary64.ofInt n) ∧
    (∀ d, system.HasDate d → date? (ofDate d system) system = some d) ∧
    (∀ (m n : Nat) (d e : Date), m < n → n ≤ system.lastDay →
      date? (Binary64.ofInt m) system = some d → date? (Binary64.ofInt n) system = some e →
      d < e) ∧
    (∀ serial day millis, split? serial = some (day, millis) →
      (system.dateOf day).year.bmod (2 ^ 32) = (system.dateOf day).year ∧
        (system.lastDay < day → date? serial system = none)) := by
  have hbound := system.lastDay_lt
  have hdate : ∀ n : Nat, n ≤ system.lastDay →
      date? (Binary64.ofInt n) system = some (system.dateOf n) := fun n hn => by
    rw [date?_ofInt system (by omega), system.date?_of_le hn]
  refine ⟨?_, ?_, ?_, ?_, ?_⟩
  · rw [← system.dateOf_lastDay, dayOf_dateOf]
  · intro n hn
    exact ⟨_, hdate n hn, by rw [ofDate, dayOf_dateOf]⟩
  · intro d hd
    obtain ⟨day, hday, rfl⟩ := exists_dateOf_eq hd
    rw [ofDate, dayOf_dateOf, hdate day hday]
  · intro m n d e hmn hn hd he
    rw [hdate m (by omega)] at hd
    rw [hdate n hn] at he
    obtain rfl := Option.some.inj hd
    obtain rfl := Option.some.inj he
    exact system.dateOf_lt_of_lt hmn
  · intro serial day millis hs
    refine ⟨system.bmod_year_dateOf (day_le_of_split? hs), fun hday => ?_⟩
    rw [date?, hs]
    exact system.date?_of_lt hday

theorem date?_ofDate_inverse_phantomDay :
    (∃ d, date? (Binary64.ofInt 60) .from1900 = some d ∧
      ofDate d .from1900 = Binary64.ofInt 60) ∧
    date? (ofDate phantomDay .from1900) .from1900 = some phantomDay ∧
    phantomDay < ⟨1900, 3, 1⟩ ∧
    date? (Binary64.ofInt 2958466) .from1900 = none := by
  obtain ⟨-, hday, hdate, hlt, hlast⟩ := date?_ofDate_inverse .from1900
  have hphantom := hdate phantomDay (by decide)
  have hmarch := hdate ⟨1900, 3, 1⟩ (by decide)
  exact ⟨hday 60 (by decide), hphantom,
    hlt 60 61 phantomDay ⟨1900, 3, 1⟩ (by decide) (by decide) hphantom hmarch,
    (hlast _ 2958466 0 (split?_ofInt (by decide))).2 (by decide)⟩

end Serial

end CellDisplay
