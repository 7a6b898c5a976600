import CellDisplay.Proofs.Calendar.Serial
import Mathlib.Data.Int.Init

/-! # Weekdays

In the calendar the weekday advances by one from each date to the next. The weekdays of both date
systems follow the calendar, apart from the days of the 1900 system up to its phantom day, and the
two systems show one calendar with their days counted from starts that lie 1462 days apart.
-/

namespace CellDisplay

namespace Date

/-- The first date of the month after a month. -/
def monthAfter (year : Int) (month : Nat) : Date :=
  if month < 12 then ⟨year, month + 1, 1⟩ else ⟨year + 1, 1, 1⟩

/-- The date after a date of the calendar. -/
def next (d : Date) : Date :=
  if d.day < monthLength d.year d.month then { d with day := d.day + 1 }
  else monthAfter d.year d.month

/-- The date falls on a weekday, from 1 for Sunday to 7 for Saturday: the first of January 1970 is
a Thursday, and weekdays follow one another in both directions. -/
inductive FallsOn : Date → Nat → Prop where
  | thursday : FallsOn ⟨1970, 1, 1⟩ 5
  | next {d : Date} {w : Nat} : FallsOn d w → FallsOn d.next (w % 7 + 1)
  | previous {d : Date} {w : Nat} : d.IsReal → 1 ≤ w → w ≤ 7 → FallsOn d.next (w % 7 + 1) →
      FallsOn d w

/-- The weekday of a date by its day number. -/
def weekday (d : Date) : Nat := ((d.toDays + 4) % 7).toNat + 1

section Next

variable {d : Date}

theorem one_le_monthLength (year : Int) (month : Nat) : 1 ≤ monthLength year month := by
  unfold monthLength
  split
  · split <;> decide
  · split <;> decide

theorem monthLength_le (year : Int) (month : Nat) : monthLength year month ≤ 31 := by
  unfold monthLength
  split
  · split <;> decide
  · split <;> decide

theorem isReal_next (hd : d.IsReal) : d.next.IsReal := by
  obtain ⟨hlow, hhigh, -, -⟩ := hd
  rw [next]
  split
  · rename_i hday
    exact ⟨hlow, hhigh, Nat.le_add_left _ _, hday⟩
  · rw [monthAfter]
    split
    · rename_i hmonth
      exact ⟨Nat.le_add_left _ _, hmonth, Nat.le_refl _, one_le_monthLength _ _⟩
    · exact ⟨Nat.le_refl _, Nat.le_add_left _ 11, Nat.le_refl _, one_le_monthLength _ _⟩

/-- A month ends on the day before the first date of the month after it. -/
theorem toDays_monthAfter (year : Int) {month : Nat} (hlow : 1 ≤ month) (hhigh : month ≤ 12) :
    (monthAfter year month).toDays =
      Date.toDays ⟨year, month, monthLength year month⟩ + 1 := by
  by_cases hfebruary : month = 2
  · -- The year that begins in March ends here, with the leap day if there is one.
    subst hfebruary
    rw [monthAfter, if_pos (by decide), toDays_eq, toDays_eq, monthLength, if_pos rfl]
    simp +decide only [marchYear, marchMonth, daysToMonth, daysToYear, if_true, if_false]
    by_cases hleap : IsLeap year
    · rw [if_pos hleap]
      obtain ⟨hfour, hcentury⟩ := hleap
      omega
    · rw [if_neg hleap]
      simp only [IsLeap] at hleap
      omega
  · have hmarch : marchMonth month < 11 := by
      simp only [marchMonth]
      split <;> omega
    have hstep := daysToMonth_add_monthLength year hmarch
    rw [monthNumber_marchMonth hlow hhigh] at hstep
    obtain ⟨hyear, hmonth, hday⟩ : (monthAfter year month).marchYear =
          marchYear ⟨year, month, monthLength year month⟩ ∧
        marchMonth (monthAfter year month).month = marchMonth month + 1 ∧
        (monthAfter year month).day = 1 := by
      rw [monthAfter]
      split <;> refine ⟨?_, ?_, rfl⟩ <;> simp only [marchYear, marchMonth] <;>
        split <;> split <;> omega
    rw [toDays_eq, toDays_eq, hyear, hmonth, hday]
    dsimp only
    omega

theorem toDays_next (hd : d.IsReal) : d.next.toDays = d.toDays + 1 := by
  obtain ⟨hlow, hhigh, -, hday⟩ := hd
  rw [next]
  split
  · rw [toDays_eq, toDays_eq]
    simp only [marchYear]
    omega
  · have hend : d.day = monthLength d.year d.month := by omega
    rw [toDays_monthAfter d.year hlow hhigh, ← hend]

theorem next_ofDays (n : Int) : (ofDays n).next = ofDays (n + 1) := by
  rw [← toDays_inj (isReal_next (isReal_ofDays n)) (isReal_ofDays _),
    toDays_next (isReal_ofDays n), toDays_ofDays, toDays_ofDays]

end Next

theorem lt_asymm {a b : Date} (h : a < b) : ¬ b < a := by
  obtain h | ⟨hy, h | ⟨hm, h⟩⟩ := h
  all_goals
    rintro (h' | ⟨hy', h' | ⟨hm', h'⟩⟩) <;> omega

section FallsOn

variable {d : Date} {w : Nat}

theorem weekday_mem (d : Date) : 1 ≤ d.weekday ∧ d.weekday ≤ 7 := by
  simp only [weekday]
  omega

theorem weekday_next (hd : d.IsReal) : d.next.weekday = d.weekday % 7 + 1 := by
  simp only [weekday, toDays_next hd]
  omega

theorem weekday_ofDays_succ (n : Int) :
    (ofDays (n + 1)).weekday = (ofDays n).weekday % 7 + 1 := by
  rw [← next_ofDays, weekday_next (isReal_ofDays n)]

theorem fallsOn_ofDays (n : Int) : (ofDays n).FallsOn (ofDays n).weekday := by
  -- Every day lies a number of steps after or before the Thursday.
  induction n with
  | zero => exact .thursday
  | succ n ih =>
    rw [weekday_ofDays_succ, ← next_ofDays]
    exact ih.next
  | pred n ih =>
    obtain ⟨hlow, hhigh⟩ := weekday_mem (ofDays (-n - 1))
    refine .previous (isReal_ofDays _) hlow hhigh ?_
    rw [← weekday_ofDays_succ, next_ofDays, Int.sub_add_cancel]
    exact ih

/-- Every date of the calendar falls on one weekday, and no other dates fall on any. -/
theorem fallsOn_iff : d.FallsOn w ↔ d.IsReal ∧ w = d.weekday := by
  constructor
  · intro h
    induction h with
    | thursday => decide
    | next _ ih => exact ⟨isReal_next ih.1, by rw [weekday_next ih.1, ih.2]⟩
    | @previous d w hd hlow hhigh _ ih =>
      have hnext := ih.2
      rw [weekday_next hd] at hnext
      have := weekday_mem d
      exact ⟨hd, by omega⟩
  · rintro ⟨hd, rfl⟩
    rw [← ofDays_toDays hd]
    exact fallsOn_ofDays _

end FallsOn

end Date

namespace DateSystem

theorem dateOf_from1904_eq (n : Nat) : from1904.dateOf n = from1900.dateOf (n + 1462) := by
  have hstart : Date.toDays ⟨1904, 1, 1⟩ = Date.toDays ⟨1899, 12, 30⟩ + 1462 := rfl
  rw [dateOf, dateOf, if_neg (by omega), if_neg (by omega), hstart]
  exact congrArg Date.ofDays (by omega)

theorem date?_from1904_eq (n : Nat) : from1904.date? n = from1900.date? (n + 1462) := by
  rw [date?, date?, dateOf_from1904_eq]

theorem weekday_from1904_eq (n : Nat) : from1904.weekday n = from1900.weekday (n + 1462) := by
  simp only [weekday]
  omega

/-- A day has a date unless it falls after the last one. -/
theorem isSome_date?_iff (system : DateSystem) (n : Nat) :
    (system.date? n).isSome ↔ system.dateOf n ≤ lastDate := by
  rw [← system.dateOf_lastDay]
  rcases Nat.lt_or_ge system.lastDay n with h | h
  · rw [system.date?_of_lt h]
    exact iff_of_false Bool.false_ne_true fun hle => hle (system.dateOf_lt_of_lt h)
  · rw [system.date?_of_le h]
    refine iff_of_true rfl fun hlt => ?_
    rcases Nat.lt_or_eq_of_le h with h | rfl
    · exact Date.lt_asymm hlt (system.dateOf_lt_of_lt h)
    · exact Date.lt_asymm hlt hlt

theorem weekday_succ (system : DateSystem) (n : Nat) :
    system.weekday (n + 1) = if system.weekday n = 7 then 1 else system.weekday n + 1 := by
  by_cases h : system.weekday n = 7
  · rw [if_pos h]
    cases system <;> simp only [weekday] at h ⊢ <;> omega
  · rw [if_neg h]
    cases system <;> simp only [weekday] at h ⊢ <;> omega

theorem weekday_dateOf (system : DateSystem) {n : Nat} (h : system = from1900 → 61 ≤ n) :
    (system.dateOf n).weekday = system.weekday n := by
  cases system with
  | from1900 =>
    have hn := h rfl
    have hstart : Date.toDays ⟨1899, 12, 31⟩ = -25568 := rfl
    rw [Date.weekday, toDays_dateOf_from1900 (by omega), if_neg (by omega), hstart, weekday]
    omega
  | from1904 =>
    have hstart : Date.toDays ⟨1904, 1, 1⟩ = -24107 := rfl
    rw [Date.weekday, toDays_dateOf_from1904, hstart, weekday]
    omega

/-- The 1904 system counts the days of one calendar from 1462 days after the start of the 1900
system, up to the same last date, and for the days that a serial can have the year fits into 32
bits. In both systems weekdays advance from day to day, and a day falls on the weekday of its date,
except for those up to the phantom day. -/
theorem from1904_eq_from1900_shifted (n : Nat) :
    (from1904.date? n = from1900.date? (n + 1462) ∧
      ((from1904.date? n).isSome ↔ from1904.dateOf n ≤ lastDate) ∧
      (n ≤ Serial.maxMillis / Serial.millisPerDay →
        (from1904.dateOf n).year.bmod (2 ^ 32) = (from1904.dateOf n).year) ∧
      from1904.weekday n = from1900.weekday (n + 1462)) ∧
    (∀ system : DateSystem,
      system.weekday (n + 1) = if system.weekday n = 7 then 1 else system.weekday n + 1) ∧
    ∀ (system : DateSystem) (d : Date), (system = from1900 → 61 ≤ n) →
      system.date? n = some d → ∀ w, d.FallsOn w ↔ w = system.weekday n := by
  refine ⟨⟨date?_from1904_eq n, isSome_date?_iff _ n, bmod_year_dateOf _,
    weekday_from1904_eq n⟩, fun system => system.weekday_succ n, ?_⟩
  intro system d hn hd w
  rw [date?] at hd
  obtain ⟨-, hd⟩ := Option.ite_none_right_eq_some.mp hd
  obtain rfl := Option.some.inj hd
  have hreal : (system.dateOf n).IsReal := by
    rcases system.isReal_dateOf n with h | ⟨hsystem, hsixty, -⟩
    · exact h
    · have := hn hsystem
      omega
  rw [Date.fallsOn_iff, system.weekday_dateOf hn]
  exact and_iff_right hreal

/-- The first of March 1900 comes right after the phantom day and falls on a Thursday. -/
theorem from1904_eq_from1900_shifted_march :
    61 ≤ Serial.maxMillis / Serial.millisPerDay ∧
      (from1904.dateOf 61).year.bmod (2 ^ 32) = (from1904.dateOf 61).year ∧
      from1900.date? 61 = some ⟨1900, 3, 1⟩ ∧ ∀ w, Date.FallsOn ⟨1900, 3, 1⟩ w ↔ w = 5 :=
  have hmax : 61 ≤ Serial.maxMillis / Serial.millisPerDay := by decide
  have hd : from1900.date? 61 = some ⟨1900, 3, 1⟩ := by decide
  ⟨hmax, (from1904_eq_from1900_shifted 61).1.2.2.1 hmax, hd,
    (from1904_eq_from1900_shifted 61).2.2 from1900 ⟨1900, 3, 1⟩ (fun _ => Nat.le_refl 61) hd⟩

end DateSystem

end CellDisplay
