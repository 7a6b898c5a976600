import CellDisplay.Calendar.Era
import CellDisplay.Checked.Machine
import CellDisplay.Proofs.Calendar.Date

/-! # Eras divide the calendar

The eras of a table whose first days ascend follow one another without a gap. The last one that
has begun by a date is the one in which the date falls, and a later date never falls in an earlier
era, nor in an earlier year of the same era.
-/

namespace CellDisplay.Era

variable {eras : List Era} {era era' : Era} {a b d : Date} {i j : Nat}

/-- The eras are listed in the order of their first days. -/
def Ascending (eras : List Era) : Prop := eras.Pairwise (·.start < ·.start)

instance (eras : List Era) : Decidable (Ascending eras) :=
  inferInstanceAs (Decidable (List.Pairwise _ _))

/-- The date falls in the listed era at an index: the era has begun, and the one that follows it, if
there is one, has not. -/
structure Spans (eras : List Era) (d : Date) (i : Nat) (era : Era) : Prop where
  listed : eras[i]? = some era
  begun : era.start ≤ d
  before_next : ∀ next, eras[i + 1]? = some next → d < next.start

section Table

theorem exists_spans_of_find? (h : eras.reverse.find? (·.start ≤ d) = some era) :
    ∃ i, Spans eras d i era := by
  obtain ⟨hbegun, later, earlier, hsplit, hlater⟩ := List.find?_eq_some_iff_append.mp h
  have heras : eras = earlier.reverse ++ era :: later.reverse := by
    rw [← List.reverse_reverse eras, hsplit]
    simp
  refine ⟨earlier.reverse.length, ?_, of_decide_eq_true hbegun, ?_⟩
  · rw [heras]
    simp
  · intro next hnext
    have hmem : next ∈ later := by
      rw [heras, List.getElem?_append_right (Nat.le_succ _), Nat.succ_sub (Nat.le_refl _),
        Nat.sub_self] at hnext
      exact List.mem_reverse.mp (List.mem_of_getElem? hnext)
    exact Date.not_le.mp (by simpa using hlater next hmem)

theorem find?_eq_none_iff (hs : Ascending (era :: eras)) :
    (era :: eras).reverse.find? (·.start ≤ d) = none ↔ d < era.start := by
  rw [List.find?_eq_none]
  constructor
  · intro h
    exact Date.not_le.mp (by simpa using h era (by simp))
  · intro h other hother
    rw [decide_eq_true_eq]
    rcases List.mem_cons.mp (List.mem_reverse.mp hother) with rfl | hother
    · exact Date.not_le.mpr h
    · have hlt := (List.pairwise_cons.mp hs).1 other hother
      exact Date.not_le.mpr (Date.lt_of_lt_of_le h (Date.le_of_lt hlt))

/-- No era behind the one in which a date falls has begun. -/
theorem Spans.index_le (h : Spans eras d i era) (hs : Ascending eras)
    (hj : eras[j]? = some era') (hbegun : era'.start ≤ d) : j ≤ i := by
  refine Nat.le_of_not_lt fun hlt => ?_
  obtain ⟨hjlt, rfl⟩ := List.getElem?_eq_some_iff.mp hj
  have hnext := h.before_next _ (List.getElem?_eq_getElem (show i + 1 < eras.length by omega))
  rcases Nat.lt_or_eq_of_le (show i + 1 ≤ j by omega) with hij | rfl
  · have hstart := List.pairwise_iff_getElem.mp hs (i + 1) j (by omega) hjlt hij
    exact hbegun (Date.lt_of_lt_of_le hnext (Date.le_of_lt hstart))
  · exact hbegun hnext

/-- A later date falls in the same era or in one that begins later. -/
theorem Spans.start_le (ha : Spans eras a i era) (hb : Spans eras b j era') (hs : Ascending eras)
    (hab : a ≤ b) : era.start ≤ era'.start := by
  have hij := hb.index_le hs ha.listed (Date.le_trans ha.begun hab)
  obtain ⟨hi, rfl⟩ := List.getElem?_eq_some_iff.mp ha.listed
  obtain ⟨hj, rfl⟩ := List.getElem?_eq_some_iff.mp hb.listed
  rcases Nat.lt_or_eq_of_le hij with hlt | rfl
  · exact Date.le_of_lt (List.pairwise_iff_getElem.mp hs i j hi hj hlt)
  · exact Date.le_refl _

/-- The last era that has begun is the one in which a date falls. -/
theorem find?_eq_some_iff (hs : Ascending eras) :
    eras.reverse.find? (·.start ≤ d) = some era ↔ ∃ i, Spans eras d i era := by
  refine ⟨exists_spans_of_find?, ?_⟩
  rintro ⟨i, h⟩
  cases hfind : eras.reverse.find? (·.start ≤ d) with
  | none =>
    have hmem := List.mem_reverse.mpr (List.mem_of_getElem? h.listed)
    exact absurd h.begun (by simpa using List.find?_eq_none.mp hfind era hmem)
  | some found =>
    obtain ⟨j, hj⟩ := exists_spans_of_find? hfind
    have hij : i = j :=
      Nat.le_antisymm (hj.index_le hs h.listed h.begun) (h.index_le hs hj.listed hj.begun)
    subst hij
    rw [← h.listed, hj.listed]

end Table

section Years

theorem ascending_all : Ascending all := by decide

theorem of?_eq_some_iff : of? d = some era ↔ ∃ i, Spans all d i era :=
  find?_eq_some_iff ascending_all

theorem start_le_of_of? (h : of? d = some era) : era.start ≤ d := by
  obtain ⟨i, hspans⟩ := of?_eq_some_iff.mp h
  exact hspans.begun

theorem one_le_yearOf (h : of? d = some era) : 1 ≤ era.yearOf d := by
  have := Date.year_le_of_le (start_le_of_of? h)
  rw [yearOf]
  omega

/-- The first year of an era is the calendar year in which it begins. -/
theorem yearOf_eq_one_iff : era.yearOf d = 1 ↔ d.year = era.start.year := by
  rw [yearOf]
  omega

theorem yearOf_mono (era : Era) (h : a ≤ b) : era.yearOf a ≤ era.yearOf b := by
  have := Date.year_le_of_le h
  rw [yearOf, yearOf]
  omega

theorem start_year_mem (h : of? d = some era) :
    1 ≤ era.start.year ∧ era.start.year ≤ 2019 := by
  obtain ⟨i, hspans⟩ := of?_eq_some_iff.mp h
  have hall : ∀ era ∈ all, 1 ≤ era.start.year ∧ era.start.year ≤ 2019 := by decide
  exact hall era (List.mem_of_getElem? hspans.listed)

open Checked in
/-- The year of an era fits into 32 bits with the year of the date. -/
theorem value?_yearOf (h : of? d = some era) (hyear : Signed.InRange (2 ^ 31) d.year) :
    (d.year - era.start.year + 1 : I32).value? = some (era.yearOf d) := by
  obtain ⟨hlow, hhigh⟩ := start_year_mem h
  have hle := Date.year_le_of_le (start_le_of_of? h)
  rw [Signed.literal_eq, Signed.ofInt_sub_ofInt hyear ⟨by omega, by omega⟩,
    Signed.ofInt_add_ofInt ⟨by omega, by omega⟩ ⟨by omega, by omega⟩,
    Signed.value?_ofInt ⟨by omega, by omega⟩]
  rfl

open Checked in
/-- The eras divide the calendar from the first day of the first era on. A date falls in one era,
whose year is at least one and fits into 32 bits with the year of the date, and is one throughout
the calendar year in which the era begins. As dates ascend, eras and their years do not descend. -/
theorem of?_divides (a b : Date) :
    (of? a = none ↔ a < ⟨1868, 9, 8⟩) ∧
      (∀ era, of? a = some era ↔ ∃ i, Spans all a i era) ∧
      (∀ era, of? a = some era →
        1 ≤ era.yearOf a ∧ (era.yearOf a = 1 ↔ a.year = era.start.year) ∧
          (Signed.InRange (2 ^ 31) a.year →
            (a.year - era.start.year + 1 : I32).value? = some (era.yearOf a))) ∧
      ∀ era era', a ≤ b → of? a = some era → of? b = some era' →
        era.start ≤ era'.start ∧ (era = era' → era.yearOf a ≤ era'.yearOf b) := by
  refine ⟨find?_eq_none_iff ascending_all, fun era => of?_eq_some_iff, ?_, ?_⟩
  · intro era hera
    exact ⟨one_le_yearOf hera, yearOf_eq_one_iff, value?_yearOf hera⟩
  · intro era era' hab ha hb
    obtain ⟨i, hi⟩ := of?_eq_some_iff.mp ha
    obtain ⟨j, hj⟩ := of?_eq_some_iff.mp hb
    refine ⟨hi.start_le hj ascending_all hab, ?_⟩
    rintro rfl
    exact yearOf_mono era hab

open Checked in
/-- The last day of one era and the first day of the next one fall in the same calendar year. -/
theorem of?_divides_midyear :
    ∃ taisho showa, of? ⟨1926, 12, 24⟩ = some taisho ∧ of? ⟨1926, 12, 25⟩ = some showa ∧
      taisho.start ≤ showa.start ∧ 1 ≤ taisho.yearOf ⟨1926, 12, 24⟩ ∧
      showa.yearOf ⟨1926, 12, 25⟩ = 1 ∧
      (1926 - showa.start.year + 1 : I32).value? = some (showa.yearOf ⟨1926, 12, 25⟩) := by
  obtain ⟨taisho, htaisho⟩ := Option.isSome_iff_exists.mp
    (show (of? ⟨1926, 12, 24⟩).isSome by decide)
  have hshowa : of? ⟨1926, 12, 25⟩ =
      some ⟨"昭和".toList, "昭".toList, "S".toList, ⟨1926, 12, 25⟩⟩ := by decide
  obtain ⟨-, -, hyears, hmono⟩ := of?_divides ⟨1926, 12, 24⟩ ⟨1926, 12, 25⟩
  obtain ⟨-, -, hyears', -⟩ := of?_divides ⟨1926, 12, 25⟩ ⟨1926, 12, 25⟩
  obtain ⟨-, hone, hvalue⟩ := hyears' _ hshowa
  exact ⟨taisho, _, htaisho, hshowa, (hmono _ _ (by decide) htaisho hshowa).1,
    (hyears _ htaisho).1, hone.mpr rfl, hvalue ⟨by decide, by decide⟩⟩

end Years

end CellDisplay.Era
