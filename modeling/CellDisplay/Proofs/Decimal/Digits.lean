import CellDisplay.Decimal.Digits
import Mathlib.Data.List.DropRight
import Mathlib.Data.List.TakeWhile
import Mathlib.Tactic.FieldSimp
import Mathlib.Tactic.Linarith
import Mathlib.Tactic.Positivity

/-! # Texts of digits

A text of digits denotes a number. With a rule for the zeros in front, or for those at the end of a
fraction, a number is denoted by one text only.
-/

namespace CellDisplay.Text

abbrev IsDigits (t : Text) : Prop := ∀ c ∈ t, c.isDigit

/-- The number that a text of digits denotes. -/
def value (t : Text) : ℕ := Nat.ofDigitChars 10 t 0

variable {s t : Text} {c d : Char} {n least : ℕ}

@[simp] theorem value_nil : value [] = 0 := Nat.ofDigitChars_nil

@[simp] theorem value_append (s t : Text) : value (s ++ t) = value s * 10 ^ t.length + value t := by
  rw [value, Nat.ofDigitChars_append, Nat.ofDigitChars_eq_ofDigitChars_zero, Nat.mul_comm]
  rfl

theorem value_singleton (c : Char) : value [c] = c.toNat - '0'.toNat := by
  simp [value, Nat.ofDigitChars_cons]

theorem value_cons (c : Char) (t : Text) :
    value (c :: t) = (c.toNat - '0'.toNat) * 10 ^ t.length + value t := by
  rw [← List.singleton_append, value_append, value_singleton]

@[simp] theorem value_zeros (n : ℕ) : value (List.replicate n '0') = 0 := by
  rw [value, Nat.ofDigitChars_replicate_zero, Nat.mul_zero]

@[simp] theorem value_decimal (n : ℕ) : value (decimal n) = n := Nat.ofDigitChars_ten_toDigits

theorem isDigits_decimal (n : ℕ) : IsDigits (decimal n) := fun _ h =>
  Nat.isDigit_of_mem_toDigits (by decide) (by decide) h

theorem isDigits_zeros (n : ℕ) : IsDigits (List.replicate n '0') := fun c h => by
  rw [List.eq_of_mem_replicate h]
  rfl

theorem isDigits_append (hs : IsDigits s) (ht : IsDigits t) : IsDigits (s ++ t) := fun c hc =>
  (List.mem_append.mp hc).elim (hs c) (ht c)

section Digit

theorem toNat_of_isDigit (h : c.isDigit) : '0'.toNat ≤ c.toNat ∧ c.toNat < '0'.toNat + 10 := by
  rw [Char.isDigit, Bool.and_eq_true, decide_eq_true_eq, decide_eq_true_eq] at h
  obtain ⟨hlow, hhigh⟩ := h
  rw [ge_iff_le, UInt32.le_iff_toNat_le] at hlow
  rw [UInt32.le_iff_toNat_le] at hhigh
  exact ⟨hlow, Nat.lt_succ_of_le hhigh⟩

theorem eq_of_toNat_sub_eq (hc : c.isDigit) (hd : d.isDigit)
    (h : c.toNat - '0'.toNat = d.toNat - '0'.toNat) : c = d := by
  have hc := toNat_of_isDigit hc
  have hd := toNat_of_isDigit hd
  exact Char.toNat_inj.mp (by omega)

theorem toNat_sub_pos (hc : c.isDigit) (h : c ≠ '0') : 0 < c.toNat - '0'.toNat := by
  rw [Nat.pos_iff_ne_zero]
  intro hz
  exact h (eq_of_toNat_sub_eq hc (by decide) (hz.trans (Nat.sub_self _).symm))

theorem value_lt (h : IsDigits t) : value t < 10 ^ t.length := by
  induction t with
  | nil => decide
  | cons c t ih =>
    have hc := (toNat_of_isDigit (h c List.mem_cons_self)).2
    have ht := ih fun d hd => h d (List.mem_cons_of_mem _ hd)
    have hmul : (c.toNat - '0'.toNat) * 10 ^ t.length ≤ 9 * 10 ^ t.length :=
      Nat.mul_le_mul_right _ (by omega)
    rw [value_cons, List.length_cons, Nat.pow_succ]
    omega

/-- A number is at least the place of a first digit that is not zero. -/
theorem le_value (h : IsDigits t) (hne : t ≠ []) (hhead : t.head? ≠ some '0') :
    10 ^ (t.length - 1) ≤ value t := by
  cases t with
  | nil => exact absurd rfl hne
  | cons c t =>
    have hc := toNat_sub_pos (h c List.mem_cons_self) fun hc => hhead (congrArg some hc)
    have hmul := Nat.mul_le_mul_right (10 ^ t.length) hc
    rw [value_cons, List.length_cons, Nat.add_sub_cancel]
    omega

/-- Exactly a number below the place of its first digit has a zero there. -/
theorem head?_eq_zero_iff (h : IsDigits t) (hne : t ≠ []) :
    t.head? = some '0' ↔ value t < 10 ^ (t.length - 1) := by
  constructor
  · intro hhead
    obtain ⟨u, rfl⟩ := List.head?_eq_some_iff.mp hhead
    rw [value_cons, Nat.sub_self, Nat.zero_mul, Nat.zero_add, List.length_cons,
      Nat.add_sub_cancel]
    exact value_lt fun c hc => h c (List.mem_cons_of_mem _ hc)
  · intro hlt
    by_contra hhead
    exact Nat.not_lt.mpr (le_value h hne hhead) hlt

theorem eq_of_value_eq (hs : IsDigits s) (ht : IsDigits t) (hlength : s.length = t.length)
    (h : value s = value t) : s = t := by
  induction s generalizing t with
  | nil => exact (List.eq_nil_of_length_eq_zero hlength.symm).symm
  | cons c s ih =>
    cases t with
    | nil => cases hlength
    | cons d t =>
      have hlength : s.length = t.length := Nat.succ.inj hlength
      have hs' : IsDigits s := fun e he => hs e (List.mem_cons_of_mem _ he)
      have ht' : IsDigits t := fun e he => ht e (List.mem_cons_of_mem _ he)
      have hslt := value_lt hs'
      have htlt := value_lt ht'
      rw [value_cons, value_cons, hlength, Nat.mul_comm, Nat.mul_comm (_ - _)] at h
      rw [hlength] at hslt
      have hdigit := congrArg (· / 10 ^ t.length) h
      have hrest := congrArg (· % 10 ^ t.length) h
      simp only [Nat.mul_add_div (Nat.pow_pos (show 0 < 10 by decide)), Nat.div_eq_of_lt hslt,
        Nat.div_eq_of_lt htlt, Nat.add_zero] at hdigit
      simp only [Nat.mul_add_mod_self_left, Nat.mod_eq_of_lt hslt, Nat.mod_eq_of_lt htlt] at hrest
      rw [eq_of_toNat_sub_eq (hs c List.mem_cons_self) (ht d List.mem_cons_self) hdigit,
        ih hs' ht' hlength hrest]

theorem value_eq_zero_iff (h : IsDigits t) : value t = 0 ↔ ∀ c ∈ t, c = '0' := by
  constructor
  · intro hv
    have hzeros : t = List.replicate t.length '0' :=
      eq_of_value_eq h (isDigits_zeros _) List.length_replicate.symm (by rw [hv, value_zeros])
    exact List.eq_replicate_iff.mp hzeros |>.2
  · intro hall
    rw [List.eq_replicate_iff.mpr ⟨rfl, hall⟩, value_zeros]

end Digit

section Decimal

theorem length_decimal_le_iff {k : ℕ} (hk : 0 < k) : (decimal n).length ≤ k ↔ n < 10 ^ k :=
  Nat.length_toDigits_le_iff (by decide) hk

theorem length_decimal_pos (n : ℕ) : 0 < (decimal n).length := Nat.length_toDigits_pos

theorem length_decimal {size : ℕ} (hsize : 0 < size) (hlow : 10 ^ (size - 1) ≤ n)
    (hhigh : n < 10 ^ size) : (decimal n).length = size := by
  have hpos := length_decimal_pos n
  have hle := (length_decimal_le_iff hsize).mpr hhigh
  by_contra hne
  have hlt : (decimal n).length ≤ size - 1 := by omega
  exact Nat.not_lt.mpr hlow ((length_decimal_le_iff (by omega)).mp hlt)

/-- The number of digits of a positive number tells the powers of ten around it. -/
theorem exists_length_decimal (hn : 0 < n) :
    ∃ k, (decimal n).length = k + 1 ∧ 10 ^ k ≤ n ∧ n < 10 ^ (k + 1) := by
  obtain ⟨k, hk⟩ := Nat.exists_eq_add_of_lt (length_decimal_pos n)
  rw [Nat.zero_add] at hk
  refine ⟨k, hk, ?_, (length_decimal_le_iff k.succ_pos).mp hk.le⟩
  rcases Nat.eq_zero_or_pos k with rfl | hkpos
  · exact hn
  · by_contra hlt
    have := (length_decimal_le_iff hkpos).mpr (Nat.lt_of_not_le hlt)
    omega

theorem decimal_pow (k : ℕ) : decimal (10 ^ k) = '1' :: List.replicate k '0' := by
  have hdigits : IsDigits ('1' :: List.replicate k '0') :=
    isDigits_append (s := ['1']) (fun c hc => by rw [List.mem_singleton.mp hc]; rfl)
      (isDigits_zeros k)
  have hlength : (decimal (10 ^ k)).length = k + 1 :=
    length_decimal k.succ_pos le_rfl (Nat.pow_lt_pow_succ (by decide))
  refine eq_of_value_eq (isDigits_decimal _) hdigits ?_ ?_
  · rw [hlength, List.length_cons, List.length_replicate]
  · rw [value_decimal, value_cons, value_zeros, List.length_replicate, Nat.add_zero]
    exact (Nat.one_mul _).symm

/-- A power of ten stays one, whatever size it is fitted to. -/
theorem fitted_decimal_pow {size : ℕ} (hsize : 0 < size) (k : ℕ) :
    fitted size (decimal (10 ^ k)) = decimal (10 ^ (size - 1)) := by
  obtain ⟨size, rfl⟩ := Nat.exists_eq_add_of_lt hsize
  rw [decimal_pow, decimal_pow, fitted, Nat.zero_add, List.take_succ_cons, List.take_replicate,
    List.cons_append, List.length_cons, List.length_replicate, Nat.add_sub_cancel,
    List.replicate_append_replicate]
  congr 2
  omega

theorem fitted_of_length_eq {size : ℕ} (h : t.length = size) : fitted size t = t := by
  rw [fitted, List.take_of_length_le h.le, h, Nat.sub_self, List.replicate_zero, List.append_nil]

end Decimal

section Pads

/-- The digits of `n`, with zeros in front only to fill up `least` digits. -/
structure Pads (least n : ℕ) (digits : Text) : Prop where
  isDigits : IsDigits digits
  value_eq : value digits = n
  least_le : least ≤ digits.length
  zero_head : digits.head? = some '0' → digits.length = least

/-- A number has the digits that are asked for, and those that it needs. -/
theorem Pads.length_le_iff {k : ℕ} (h : Pads least n t) :
    t.length ≤ k ↔ least ≤ k ∧ n < 10 ^ k := by
  constructor
  · intro hle
    have hlt := value_lt h.isDigits
    rw [h.value_eq] at hlt
    exact ⟨h.least_le.trans hle, hlt.trans_le (Nat.pow_le_pow_right (by decide) hle)⟩
  · rintro ⟨hleast, hlt⟩
    by_contra hk
    have hne : t ≠ [] := List.ne_nil_of_length_pos (by omega)
    have hhead : t.head? ≠ some '0' := fun hhead => by
      have := h.zero_head hhead
      omega
    have hvalue := le_value h.isDigits hne hhead
    rw [h.value_eq] at hvalue
    have : 10 ^ k ≤ 10 ^ (t.length - 1) := Nat.pow_le_pow_right (by decide) (by omega)
    omega

theorem Pads.length_le (h : Pads least n s) (h' : Pads least n t) : s.length ≤ t.length :=
  h.length_le_iff.mpr ⟨h'.least_le, h'.value_eq ▸ value_lt h'.isDigits⟩

theorem Pads.unique (h : Pads least n s) (h' : Pads least n t) : s = t :=
  eq_of_value_eq h.isDigits h'.isDigits (Nat.le_antisymm (h.length_le h') (h'.length_le h))
    (h.value_eq.trans h'.value_eq.symm)

/-- A number of `size` digits is shown by as many, unless more are asked for. -/
theorem Pads.length_eq {size : ℕ} (h : Pads least n t) (hleast : least ≤ size)
    (hlow : 10 ^ (size - 1) ≤ n) (hhigh : n < 10 ^ size) :
    t.length = size ∧ t.head? ≠ some '0' := by
  have hle : t.length ≤ size := h.length_le_iff.mpr ⟨hleast, hhigh⟩
  have hgt : ¬ t.length ≤ size - 1 := fun hle => Nat.not_lt.mpr hlow (h.length_le_iff.mp hle).2
  have hlength : t.length = size := by omega
  refine ⟨hlength, fun hhead => ?_⟩
  rw [head?_eq_zero_iff h.isDigits (List.ne_nil_of_length_pos (by omega)), h.value_eq,
    hlength] at hhead
  omega

theorem value_dropWhile_zero (t : Text) : value (t.dropWhile (· = '0')) = value t := by
  have hzeros : t.takeWhile (· = '0') = List.replicate (t.takeWhile (· = '0')).length '0' :=
    List.eq_replicate_iff.mpr ⟨rfl, fun c hc => by simpa using List.mem_takeWhile_imp hc⟩
  conv_rhs => rw [← List.takeWhile_append_dropWhile (p := (· = '0')) (l := t), hzeros,
    value_append, value_zeros, Nat.zero_mul, Nat.zero_add]

theorem head?_dropWhile_zero (t : Text) : (t.dropWhile (· = '0')).head? ≠ some '0' := by
  intro h
  obtain ⟨u, hu⟩ := List.head?_eq_some_iff.mp h
  have hne : t.dropWhile (· = '0') ≠ [] := by
    rw [hu]
    exact List.cons_ne_nil _ _
  have hhead := List.head_dropWhile_not (· = '0') hne
  simp [hu] at hhead

theorem pads_zeroPadded (least : ℕ) (h : IsDigits t) :
    Pads least (value t) (zeroPadded least (t.dropWhile (· = '0'))) := by
  have hdrop : IsDigits (t.dropWhile (· = '0')) := fun c hc =>
    h c ((List.dropWhile_sublist _).subset hc)
  have hlength := length_zeroPadded least (t.dropWhile (· = '0'))
  refine ⟨isDigits_append (isDigits_zeros _) hdrop, ?_, by omega, ?_⟩
  · rw [zeroPadded, value_append, value_zeros, Nat.zero_mul, Nat.zero_add, value_dropWhile_zero]
  · intro hhead
    rcases Nat.eq_zero_or_pos (least - (t.dropWhile (· = '0')).length) with hz | hpos
    · rw [zeroPadded, hz] at hhead
      exact absurd hhead (head?_dropWhile_zero t)
    · omega

theorem pads_padded (least n : ℕ) : Pads (max least 1) n (padded least n) := by
  have hlength := length_zeroPadded least (decimal n)
  have hpos := length_decimal_pos n
  refine ⟨isDigits_append (isDigits_zeros _) (isDigits_decimal n), ?_, ?_, fun hhead => ?_⟩
  · rw [padded, zeroPadded, value_append, value_zeros, Nat.zero_mul, Nat.zero_add, value_decimal]
  · rw [padded]
    omega
  · rw [padded, hlength]
    rcases Nat.eq_zero_or_pos (least - (decimal n).length) with hz | hfill
    · -- Without padding, the first digit is a zero only if the number is zero.
      rw [padded, zeroPadded, hz, List.replicate_zero, List.nil_append,
        head?_eq_zero_iff (isDigits_decimal n) (List.ne_nil_of_length_pos hpos),
        value_decimal] at hhead
      rcases Nat.eq_zero_or_pos n with rfl | hn
      · rfl
      · obtain ⟨k, hk, hle, -⟩ := exists_length_decimal hn
        rw [hk, Nat.add_sub_cancel] at hhead
        omega
    · omega

/-- Without the zeros in front, digits are those of the number they denote, or none at all. -/
theorem zeroPadded_one_dropWhile_zero (h : IsDigits t) :
    zeroPadded 1 (t.dropWhile (· = '0')) = decimal (value t) := by
  have hdecimal : padded 0 (value t) = decimal (value t) := by
    rw [padded, zeroPadded, Nat.zero_sub, List.replicate_zero, List.nil_append]
  rw [← hdecimal]
  exact (pads_zeroPadded 1 h).unique (pads_padded 0 (value t))

theorem decimal_value (h : IsDigits t) (hpos : 0 < value t) :
    decimal (value t) = t.dropWhile (· = '0') := by
  have hne : t.dropWhile (· = '0') ≠ [] := fun hnil => by
    rw [← value_dropWhile_zero, hnil] at hpos
    exact Nat.lt_irrefl 0 hpos
  have hlength := List.length_pos_of_ne_nil hne
  rw [← zeroPadded_one_dropWhile_zero h, zeroPadded, Nat.sub_eq_zero_of_le hlength,
    List.replicate_zero, List.nil_append]

end Pads

section Trims

/-- The digits of `x` behind the point, with zeros at the end only to fill up `least` digits. -/
structure Trims (least : ℕ) (x : ℚ) (digits : Text) : Prop where
  isDigits : IsDigits digits
  value_eq : (value digits : ℚ) / 10 ^ digits.length = x
  least_le : least ≤ digits.length
  zero_last : digits.getLast? = some '0' → digits.length = least

variable {x : ℚ}

theorem getLast?_of_ten_dvd (h : IsDigits t) (hne : t ≠ []) (hdvd : 10 ∣ value t) :
    t.getLast? = some '0' := by
  obtain ⟨init, c, rfl⟩ := (List.eq_nil_or_concat' t).resolve_left hne
  have hc := h c (by simp)
  have hlt := (toNat_of_isDigit hc).2
  rw [value_append, value_singleton, List.length_singleton, Nat.pow_one] at hdvd
  rw [List.getLast?_append, List.getLast?_singleton, Option.some_or]
  by_contra hz
  have := toNat_sub_pos hc fun hz' => hz (congrArg some hz')
  omega

/-- A fraction has the digits that are asked for, and those that it needs. -/
theorem Trims.length_le_iff {k : ℕ} (h : Trims least x t) :
    t.length ≤ k ↔ least ≤ k ∧ ∃ n : ℕ, x * 10 ^ k = n := by
  have hvalue : (value t : ℚ) = x * 10 ^ t.length := by
    rw [← h.value_eq, div_mul_cancel₀ _ (by positivity)]
  constructor
  · intro hle
    refine ⟨h.least_le.trans hle, value t * 10 ^ (k - t.length), ?_⟩
    rw [Nat.cast_mul, Nat.cast_pow, hvalue, Nat.cast_ofNat, mul_assoc, ← pow_add,
      Nat.add_sub_cancel' hle]
  · rintro ⟨hleast, n, hn⟩
    by_contra hk
    have hne : t ≠ [] := List.ne_nil_of_length_pos (by omega)
    have hsplit : value t = n * 10 ^ (t.length - k) := by
      have : (value t : ℚ) = n * 10 ^ (t.length - k) := by
        rw [hvalue, ← hn, mul_assoc, ← pow_add, Nat.add_sub_cancel' (by omega)]
      exact_mod_cast this
    have hlast := h.zero_last (getLast?_of_ten_dvd h.isDigits hne
      (hsplit ▸ (dvd_pow_self 10 (by omega)).mul_left n))
    omega

theorem Trims.length_le (h : Trims least x s) (h' : Trims least x t) : s.length ≤ t.length := by
  refine h.length_le_iff.mpr ⟨h'.least_le, value t, ?_⟩
  rw [← h'.value_eq, div_mul_cancel₀ _ (by positivity)]

theorem Trims.unique (h : Trims least x s) (h' : Trims least x t) : s = t := by
  have hlength := Nat.le_antisymm (h.length_le h') (h'.length_le h)
  refine eq_of_value_eq h.isDigits h'.isDigits hlength ?_
  have heq := h.value_eq.trans h'.value_eq.symm
  rw [hlength, div_left_inj' (by positivity)] at heq
  exact_mod_cast heq

theorem exists_trimEnd_append (p : Char → Bool) (t : Text) :
    ∃ u : Text, trimEnd p t ++ u = t ∧ ∀ c ∈ u, p c := by
  refine ⟨(t.reverse.takeWhile p).reverse, ?_, fun c hc => ?_⟩
  · rw [trimEnd, ← List.reverse_append, List.takeWhile_append_dropWhile, List.reverse_reverse]
  · exact List.mem_takeWhile_imp (List.mem_reverse.mp hc)

theorem eq_false_of_getLast?_trimEnd {p : Char → Bool} (h : (trimEnd p t).getLast? = some c) :
    p c = false := by
  rw [trimEnd, List.getLast?_reverse] at h
  obtain ⟨u, hu⟩ := List.head?_eq_some_iff.mp h
  have hne : t.reverse.dropWhile p ≠ [] := by
    rw [hu]
    exact List.cons_ne_nil _ _
  have hhead := List.head_dropWhile_not p hne
  simpa [hu] using hhead

end Trims

end CellDisplay.Text
