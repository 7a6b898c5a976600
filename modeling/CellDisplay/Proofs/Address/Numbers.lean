import CellDisplay.Address
import CellDisplay.Proofs.Decimal.Digits
import Mathlib.Data.Nat.Digits.Defs

/-! # Numbers of columns and rows

Letters count in base 26 without a zero, so that each number has letters of its own. Digits may have
zeros in front; without them, each number has digits of its own as well.
-/

namespace CellDisplay.CellAddress

open Text

variable {t : Text} {c : Char} {k : ℕ}

/-- What holds of the first characters by their numbers holds of each of them. -/
theorem of_toNat_lt {P : Char → Prop} (h : ∀ n < k, P (Char.ofNat n)) (hc : c.toNat < k) : P c := by
  have hn := h c.toNat hc
  rwa [Char.ofNat_toNat] at hn

section Letters

theorem letter_of_lt (h : k < 26) :
    letterNumber (Char.ofNat ('A'.toNat + k)) = k + 1 ∧
      (Char.ofNat ('A'.toNat + k)).isAlpha := by
  revert k
  decide

theorem toNat_letter (h : k < 26) : (Char.ofNat ('A'.toNat + k)).toNat = 'A'.toNat + k := by
  revert k
  decide

theorem toNat_lt_of_isAlpha (h : c.isAlpha) : c.toNat < 128 := by
  rcases Bool.or_eq_true_iff.mp h with hcase | hcase
  · have hupper : c.val ≥ 'A'.val ∧ c.val ≤ 'Z'.val := of_decide_eq_true hcase
    exact Nat.lt_of_le_of_lt (UInt32.le_iff_toNat_le.mp hupper.2) (by decide)
  · have hlower : (c.val ≥ 'a'.val && c.val ≤ 'z'.val) = true := hcase
    have hle : c.val ≤ 'z'.val := of_decide_eq_true (Bool.and_eq_true_iff.mp hlower).2
    exact Nat.lt_of_le_of_lt (UInt32.le_iff_toNat_le.mp hle) (by decide)

/-- A letter is one of 26, in either case. -/
theorem exists_letter (h : c.isAlpha) :
    ∃ k < 26, letterNumber c = k + 1 ∧ c.toUpper = Char.ofNat ('A'.toNat + k) :=
  of_toNat_lt (P := fun c => c.isAlpha →
      ∃ k < 26, letterNumber c = k + 1 ∧ c.toUpper = Char.ofNat ('A'.toNat + k))
    (by decide +kernel) (toNat_lt_of_isAlpha h) h

@[simp] theorem lettersNumber_nil : lettersNumber [] = 0 := rfl

@[simp] theorem lettersNumber_concat (t : Text) (c : Char) :
    lettersNumber (t ++ [c]) = lettersNumber t * 26 + letterNumber c := by
  rw [lettersNumber, List.foldl_append]
  rfl

/-- The number of letters is their value in base 26, where the digits are those from 1 to 26. -/
theorem lettersNumber_eq_ofDigits (t : Text) :
    lettersNumber t = Nat.ofDigits 26 (t.reverse.map letterNumber) := by
  induction t using List.reverseRecOn with
  | nil => rfl
  | append_singleton t c ih =>
    rw [lettersNumber_concat, ih, List.reverse_append, List.reverse_singleton,
      List.singleton_append, List.map_cons, Nat.ofDigits_cons]
    omega

theorem lettersNumber_le_append (s t : Text) : lettersNumber s ≤ lettersNumber (s ++ t) := by
  induction t using List.reverseRecOn with
  | nil => rw [List.append_nil]
  | append_singleton t c ih =>
    rw [← List.append_assoc, lettersNumber_concat]
    omega

theorem lettersNumber_pos (ht : t ≠ []) : 0 < lettersNumber t := by
  obtain ⟨init, c, rfl⟩ := (List.eq_nil_or_concat' t).resolve_left ht
  rw [lettersNumber_concat, letterNumber]
  omega

theorem isAlpha_letters (n : ℕ) : ∀ c ∈ letters n, c.isAlpha := by
  induction n using letters.induct with
  | case1 => simp [letters]
  | case2 n ih =>
    rw [letters]
    intro c hc
    rcases List.mem_append.mp hc with hc | hc
    · exact ih c hc
    · rw [List.mem_singleton.mp hc]
      exact (letter_of_lt (Nat.mod_lt n (by decide))).2

theorem letters_succ_ne_nil (n : ℕ) : letters (n + 1) ≠ [] := by
  rw [letters]
  exact List.append_ne_nil_of_right_ne_nil _ (List.cons_ne_nil _ _)

theorem lettersNumber_letters (n : ℕ) : lettersNumber (letters n) = n := by
  induction n using letters.induct with
  | case1 => rw [letters, lettersNumber_nil]
  | case2 n ih =>
    rw [letters, lettersNumber_concat, ih, (letter_of_lt (Nat.mod_lt n (by decide))).1]
    omega

/-- The letters of a number are those it is read from, in upper case. -/
theorem letters_lettersNumber (h : ∀ c ∈ t, c.isAlpha) :
    letters (lettersNumber t) = t.map Char.toUpper := by
  induction t using List.reverseRecOn with
  | nil => rw [lettersNumber_nil, letters, List.map_nil]
  | append_singleton t c ih =>
    obtain ⟨k, hk, hnumber, hupper⟩ := exists_letter (h c (by simp))
    have hdiv : (lettersNumber t * 26 + k) / 26 = lettersNumber t := by omega
    have hmod : (lettersNumber t * 26 + k) % 26 = k := by omega
    rw [lettersNumber_concat, hnumber, ← Nat.add_assoc, letters, hdiv, hmod,
      ih fun d hd => h d (List.mem_append_left _ hd), List.map_append, List.map_singleton, hupper]

end Letters

section Digits

theorem digitsNumber_eq_value (t : Text) : digitsNumber t = value t := by
  simp only [digitsNumber, value, Nat.ofDigitChars, Nat.mul_comm]

theorem value_concat (t : Text) (c : Char) :
    value (t ++ [c]) = value t * 10 + (c.toNat - '0'.toNat) := by
  rw [value_append, value_singleton, List.length_singleton, Nat.pow_one]

theorem value_le_append (s t : Text) : value s ≤ value (s ++ t) := by
  rw [value_append]
  exact Nat.le_trans (Nat.le_mul_of_pos_right _ (Nat.pow_pos (by decide))) (Nat.le_add_right _ _)

end Digits

end CellDisplay.CellAddress
