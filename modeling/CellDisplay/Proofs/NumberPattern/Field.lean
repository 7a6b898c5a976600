import CellDisplay.NumberPattern.Apply
import Mathlib.Data.List.TakeWhile

/-! # Fields of digits

A field is never empty: a number is shown by at least one digit, and a value without digits by its
name. The affixes and the sign stand around the field and leave it as it is.
-/

namespace CellDisplay

namespace Text

variable {p : Char → Bool} {t : Text} {c : Char}

theorem mem_of_mem_trimEnd (h : c ∈ trimEnd p t) : c ∈ t := by
  rw [trimEnd, List.mem_reverse] at h
  exact List.mem_reverse.mp ((List.dropWhile_sublist p).subset h)

/-- Trimming only drops characters that satisfy the predicate. -/
theorem mem_trimEnd (hc : c ∈ t) (hp : p c = false) : c ∈ trimEnd p t := by
  rw [← List.mem_reverse, ← List.takeWhile_append_dropWhile (p := p) (l := t.reverse),
    List.mem_append] at hc
  rcases hc with h | h
  · rw [List.mem_takeWhile_imp h] at hp
    exact absurd hp (by decide)
  · exact List.mem_reverse.mpr h

theorem isAlphanum_of_mem_decimal {n : Nat} (h : c ∈ decimal n) : c.isAlphanum := by
  rw [Char.isAlphanum, Nat.isDigit_of_mem_toDigits (by decide) (by decide) h, Bool.or_true]

theorem isAlphanum_of_mem_zeroPadded {width : Nat} (ht : ∀ c ∈ t, c.isAlphanum)
    (h : c ∈ zeroPadded width t) : c.isAlphanum := by
  rcases List.mem_append.mp h with h | h
  · rw [List.eq_of_mem_replicate h]
    rfl
  · exact ht c h

end Text

namespace NumberPattern

variable {c : Char} {whole fraction t : Text} {n : Nat}

section Fixed

theorem isAlphanum_fixed (places : Nat) (value : Binary64) :
    (∀ c ∈ (Decimal.fixed places value).whole, c.isAlphanum) ∧
      ∀ c ∈ (Decimal.fixed places value).fraction, c.isAlphanum := by
  have hnil : ∀ c ∈ ([] : Text), c.isAlphanum := fun c hc => absurd hc List.not_mem_nil
  cases value with
  | nan =>
    have hname : Decimal.nanText.all Char.isAlphanum := rfl
    exact ⟨List.all_eq_true.mp hname, hnil⟩
  | infinite negative =>
    have hname : Decimal.infinityText.all Char.isAlphanum := rfl
    exact ⟨List.all_eq_true.mp hname, hnil⟩
  | finite negative units h =>
    refine ⟨fun c hc => Text.isAlphanum_of_mem_decimal hc, fun c hc => ?_⟩
    simp only [Decimal.fixed, Decimal.Fixed.ofScaled] at hc
    split at hc
    · simp at hc
    · exact Text.isAlphanum_of_mem_zeroPadded (fun c => Text.isAlphanum_of_mem_decimal) hc

theorem mem_of_mem_trimFraction (h : c ∈ trimFraction n fraction) : c ∈ fraction := by
  rcases List.mem_append.mp h with h | h
  · exact List.mem_of_mem_take h
  · exact List.mem_of_mem_drop (Text.mem_of_mem_trimEnd h)

/-- Where no fraction is shown, there is a digit before the point. -/
theorem exists_mem_wholeDigits (h : ∀ c ∈ whole, c.isAlphanum) (minDigits : Nat) :
    ∃ c ∈ wholeDigits minDigits whole [], c.isAlphanum := by
  rw [wholeDigits]
  split
  · exact ⟨'0', List.mem_singleton_self _, rfl⟩
  · rename_i hne
    obtain ⟨c, hc⟩ := List.exists_mem_of_ne_nil _ fun h => hne ⟨h, rfl⟩
    exact ⟨c, hc, Text.isAlphanum_of_mem_zeroPadded
      (fun d hd => h d ((List.dropWhile_sublist _).subset hd)) hc⟩

theorem mem_grouped (size : Nat) (separator : Char) (h : c ∈ t) : c ∈ grouped size separator t := by
  fun_induction grouped size separator t with
  | case1 => exact h
  | case2 => exact h
  | case3 d e rest _ ih =>
    rcases List.mem_cons.mp h with rfl | h
    · exact List.mem_cons_self
    · exact List.mem_cons_of_mem _ (List.mem_cons_of_mem _ (ih h))
  | case4 d e rest _ ih =>
    rcases List.mem_cons.mp h with rfl | h
    · exact List.mem_cons_self
    · exact List.mem_cons_of_mem _ (ih h)

theorem exists_mem_fixedField (layout : Layout) (locale : Locale) (value : Binary64) :
    ∃ c ∈ (fixedField layout locale value).text, c.isAlphanum := by
  obtain ⟨hwhole, hfraction⟩ := isAlphanum_fixed layout.maxFraction value
  simp only [fixedField]
  generalize hf : trimFraction layout.minFraction _ = fraction
  cases fraction with
  | cons c rest =>
    refine ⟨c, List.mem_append_right _ (List.mem_cons_of_mem _ List.mem_cons_self), ?_⟩
    exact hfraction c (mem_of_mem_trimFraction (hf ▸ List.mem_cons_self))
  | nil =>
    obtain ⟨c, hc, hd⟩ := exists_mem_wholeDigits hwhole layout.minInteger
    refine ⟨c, List.mem_append_left _ ?_, hd⟩
    split
    · exact mem_grouped _ _ hc
    · exact hc

end Fixed

/-- A field shows at least one letter or digit. -/
theorem exists_mem_digitField (layout : Layout) (locale : Locale) (value : Binary64) :
    ∃ c ∈ (digitField layout locale value).text, c.isAlphanum := by
  rw [digitField]
  split
  · -- The exponent is a number of its own.
    rename_i spec _
    exact ⟨'E', List.mem_append_right _ List.mem_cons_self, rfl⟩
  · exact exists_mem_fixedField layout locale value

theorem mem_around (affixes : Affixes) (h : c ∈ t) : c ∈ affixes.around t :=
  List.mem_append_left _ (List.mem_append_right _ h)

theorem mem_withAffixes (pattern : NumberPattern) (negative : Bool) {field : DigitField}
    (h : c ∈ field.text) : c ∈ pattern.withAffixes negative field := by
  rw [withAffixes]
  split
  · split
    · exact mem_around _ h
    · exact List.mem_cons_of_mem _ (mem_around _ h)
  · exact mem_around _ h

/-- A number is never shown by affixes and separators alone. -/
theorem exists_mem_apply (pattern : NumberPattern) (locale : Locale) (value : Binary64) :
    ∃ c ∈ pattern.apply locale value, c.isAlphanum := by
  unfold apply
  split
  · exact ⟨'N', List.mem_cons_self, rfl⟩
  · split
    · exact ⟨'I', List.mem_append_right _ List.mem_cons_self, rfl⟩
    · obtain ⟨c, hc, hd⟩ :=
        exists_mem_digitField pattern.layout locale (pattern.scaledMagnitude value)
      exact ⟨c, mem_withAffixes _ _ hc, hd⟩

end NumberPattern

end CellDisplay
