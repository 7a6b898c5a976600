import CellDisplay.Checked.Address
import CellDisplay.Proofs.Address.Numbers

/-! # Machine integers hold the numbers of addresses

A number that fits into 32 bits stays far below the limit of 64 bits when one more letter is read,
and reading goes on from such a number only. So a text of any length is read without a failure.
-/

namespace CellDisplay.Checked

open CellAddress Text Unsigned

variable {s t : Text} {c : Char} {n row column : ℕ}

/-- A number that fits into 32 bits. -/
def fitting? (n : ℕ) : Option ℕ := if n < UInt32.size then some n else none

theorem nextColumn_eq (hc : c.isAlpha) (hn : n < UInt32.size) :
    nextColumn n c = some (n * 26 + letterNumber c) := by
  obtain ⟨k, hk, hnumber, hupper⟩ := exists_letter hc
  have hplace : (ofNat c.toUpper.toNat - ofNat 'A'.toNat : Unsigned (2 ^ 8)).value? = some k := by
    have htoNat : c.toUpper.toNat = 'A'.toNat + k := by rw [hupper, toNat_letter hk]
    have hA : 'A'.toNat = 65 := rfl
    rw [value?_ofNat_sub (by omega) (by omega), htoNat, Nat.add_sub_cancel_left]
  have hsize : UInt32.size = 2 ^ 32 := rfl
  rw [nextColumn, hplace, hnumber]
  simp (disch := omega) only [Option.bind_eq_bind, Option.bind_some, literal_eq,
    ofNat_mul_ofNat, ofNat_add_ofNat, value?_ofNat]
  rfl

/-- What is read of the letters before the end is the number of all of them, if it fits. -/
theorem columnFrom_eq (ht : ∀ c ∈ t, c.isAlpha) (hs : lettersNumber s < UInt32.size) :
    columnFrom (lettersNumber s) t = some (fitting? (lettersNumber (s ++ t))) := by
  induction t generalizing s with
  | nil => rw [List.append_nil, columnFrom, fitting?, if_pos hs]
  | cons c t ih =>
    have hnext := nextColumn_eq (ht c List.mem_cons_self) hs
    rw [← lettersNumber_concat] at hnext
    rw [columnFrom, hnext, Option.bind_eq_bind, Option.bind_some, List.append_cons s c t]
    by_cases h : UInt32.size ≤ lettersNumber (s ++ [c])
    · have hall := h.trans (lettersNumber_le_append (s ++ [c]) t)
      rw [if_pos h, fitting?, if_neg (Nat.not_lt.mpr hall)]
      rfl
    · rw [if_neg h]
      exact ih (fun d hd => ht d (List.mem_cons_of_mem _ hd)) (Nat.lt_of_not_le h)

theorem value?_nextRow {digit : ℕ} (hn : n < UInt32.size) :
    (ofNat n * ofNat 10 + ofNat digit : U32).value? = fitting? (n * 10 + digit) := by
  rw [ofNat_mul_ofNat hn (by decide), value?_ofNat_add_eq]
  rfl

theorem rowFrom_eq (ht : IsDigits t) (hs : value s < UInt32.size) :
    rowFrom (value s) t = fitting? (value (s ++ t)) := by
  induction t generalizing s with
  | nil => rw [List.append_nil, rowFrom, fitting?, if_pos hs]
  | cons c t ih =>
    have hdigit := toNat_of_isDigit (ht c List.mem_cons_self)
    have hnext : (ofNat (value s) * ofNat 10 + ofNat (c.toNat - '0'.toNat) : U32).value? =
        fitting? (value (s ++ [c])) := by
      rw [value?_nextRow hs, value_concat]
    rw [rowFrom, literal_eq, hnext, List.append_cons s c t]
    by_cases h : value (s ++ [c]) < UInt32.size
    · rw [fitting?, if_pos h, Option.bind_eq_bind, Option.bind_some]
      exact ih (fun d hd => ht d (List.mem_cons_of_mem _ hd)) h
    · have hall := (Nat.le_of_not_lt h).trans (value_le_append (s ++ [c]) t)
      rw [fitting?, if_neg h, fitting?, if_neg (Nat.not_lt.mpr hall)]
      rfl

theorem addressOf_eq (hrow : row < UInt32.size) (hr : 0 < row) (hcolumn : column < UInt32.size)
    (hc : 0 < column) :
    addressOf row column = some ⟨UInt32.ofNat (row - 1), UInt32.ofNat (column - 1)⟩ := by
  have hsize : UInt32.size = 2 ^ 32 := rfl
  have hrow' : (ofNat row - ofNat 1 : U32).value? = some (row - 1) :=
    value?_ofNat_sub (by omega) hr
  have hcolumn' : (ofNat column - ofNat 1 : U64).value? = some (column - 1) :=
    value?_ofNat_sub (by omega) hc
  rw [addressOf, literal_eq, literal_eq, hrow', hcolumn']
  rfl

/-- No operation fails, however long the text is. -/
theorem addressOfText_eq (t : Text) : addressOfText t = some (ofText t) := by
  rw [addressOfText, ofText, ofText?]
  generalize hl : (dropDollar t).takeWhile Char.isAlpha = letters
  generalize dropDollar ((dropDollar t).dropWhile Char.isAlpha) = digits
  by_cases h : letters ≠ [] ∧ digits ≠ [] ∧ digits.all Char.isDigit
  · rw [if_pos h, if_pos h]
    obtain ⟨hletters, -, hdigits⟩ := h
    have hcolumn := columnFrom_eq (s := []) (t := letters)
      (fun c hc => List.mem_takeWhile_imp (hl ▸ hc)) (by decide)
    have hrow := rowFrom_eq (s := []) (t := digits) (List.all_eq_true.mp hdigits) (by decide)
    rw [lettersNumber_nil, List.nil_append] at hcolumn
    rw [value_nil, List.nil_append] at hrow
    have hpos := lettersNumber_pos hletters
    rw [hcolumn, hrow, digitsNumber_eq_value, Option.bind_eq_bind, Option.bind_some]
    generalize lettersNumber letters = column at hpos ⊢
    generalize value digits = row
    simp only [ordinal?, fitting?, hpos, true_and]
    by_cases hc : column < UInt32.size
    · by_cases hr : row < UInt32.size
      · cases row with
        | zero => simp [hc]
        | succ row =>
          have haddress := addressOf_eq hr row.succ_pos hc hpos
          simp [hc, hr, haddress]
      · simp [hc, hr]
    · simp [hc]
  · rw [if_neg h, if_neg h]

end CellDisplay.Checked
