import CellDisplay.Decimal.Rounding

/-! # Machine integers

A machine integer is a whole number in the range of its type. An operation whose result is out
of range, or a division by zero, has no value, and neither has what is computed from it.
-/

namespace CellDisplay.Checked

/-- An unsigned integer below a limit, or the failure to compute one. -/
structure Unsigned (limit : Nat) where
  value? : Option Nat

namespace Unsigned

variable {limit : Nat}

def ofNat (n : Nat) : Unsigned limit := ⟨if n < limit then some n else none⟩

/-- The value of an operation on two integers. -/
def apply (f : Nat → Nat → Unsigned limit) (a b : Unsigned limit) : Unsigned limit where
  value? := do (f (← a.value?) (← b.value?)).value?

instance : Coe Nat (Unsigned limit) := ⟨ofNat⟩

instance {n : Nat} : OfNat (Unsigned limit) n := ⟨ofNat n⟩

instance : Add (Unsigned limit) := ⟨apply fun a b => ofNat (a + b)⟩

instance : Sub (Unsigned limit) := ⟨apply fun a b => if b ≤ a then ofNat (a - b) else ⟨none⟩⟩

instance : Mul (Unsigned limit) := ⟨apply fun a b => ofNat (a * b)⟩

instance : Div (Unsigned limit) := ⟨apply fun a b => if b = 0 then ⟨none⟩ else ofNat (a / b)⟩

instance : Mod (Unsigned limit) := ⟨apply fun a b => if b = 0 then ⟨none⟩ else ofNat (a % b)⟩

section Values

variable {a b n : Nat}

theorem literal_eq : (OfNat.ofNat n : Unsigned limit) = ofNat (OfNat.ofNat n) := rfl

theorem value?_ofNat (h : n < limit) : (ofNat n : Unsigned limit).value? = some n := if_pos h

theorem apply_ofNat {f : Nat → Nat → Unsigned limit} (ha : a < limit) (hb : b < limit) :
    apply f (ofNat a) (ofNat b) = f a b := by
  simp [apply, value?_ofNat ha, value?_ofNat hb]

theorem ofNat_add_ofNat (h : a + b < limit) :
    (ofNat a + ofNat b : Unsigned limit) = ofNat (a + b) :=
  apply_ofNat (Nat.lt_of_le_of_lt (Nat.le_add_right a b) h)
    (Nat.lt_of_le_of_lt (Nat.le_add_left b a) h)

theorem ofNat_sub_ofNat (ha : a < limit) (h : b ≤ a) :
    (ofNat a - ofNat b : Unsigned limit) = ofNat (a - b) :=
  (apply_ofNat ha (Nat.lt_of_le_of_lt h ha)).trans (if_pos h)

theorem value?_ofNat_add (h : a + b < limit) :
    (ofNat a + ofNat b : Unsigned limit).value? = some (a + b) := by
  rw [ofNat_add_ofNat h, value?_ofNat h]

theorem value?_ofNat_add_eq (a b : Nat) :
    (ofNat a + ofNat b : Unsigned limit).value? = if a + b < limit then some (a + b) else none := by
  by_cases h : a + b < limit
  · rw [value?_ofNat_add h, if_pos h]
  · rw [if_neg h]
    change ((ofNat a : Unsigned limit).value?.bind fun m => (ofNat b : Unsigned limit).value?.bind
      fun n => (ofNat (m + n) : Unsigned limit).value?) = none
    -- A summand that is out of range itself has no value already.
    simp only [ofNat]
    split
    · split
      · exact if_neg h
      · rfl
    · rfl

theorem value?_ofNat_sub (ha : a < limit) (h : b ≤ a) :
    (ofNat a - ofNat b : Unsigned limit).value? = some (a - b) := by
  rw [ofNat_sub_ofNat ha h, value?_ofNat (Nat.lt_of_le_of_lt (Nat.sub_le a b) ha)]

theorem ofNat_mul_ofNat (ha : a < limit) (hb : b < limit) :
    (ofNat a * ofNat b : Unsigned limit) = ofNat (a * b) := apply_ofNat ha hb

theorem ofNat_div_ofNat (ha : a < limit) (hb : b < limit) (h : b ≠ 0) :
    (ofNat a / ofNat b : Unsigned limit) = ofNat (a / b) :=
  (apply_ofNat ha hb).trans (if_neg h)

theorem ofNat_mod_ofNat (ha : a < limit) (hb : b < limit) (h : b ≠ 0) :
    (ofNat a % ofNat b : Unsigned limit) = ofNat (a % b) :=
  (apply_ofNat ha hb).trans (if_neg h)

theorem value?_ofNat_div (ha : a < limit) (hb : b < limit) (h : b ≠ 0) :
    (ofNat a / ofNat b : Unsigned limit).value? = some (a / b) := by
  rw [ofNat_div_ofNat ha hb h, value?_ofNat (Nat.lt_of_le_of_lt (Nat.div_le_self a b) ha)]

theorem value?_ofNat_mod (ha : a < limit) (hb : b < limit) (h : b ≠ 0) :
    (ofNat a % ofNat b : Unsigned limit).value? = some (a % b) := by
  rw [ofNat_mod_ofNat ha hb h, value?_ofNat (Nat.lt_of_le_of_lt (Nat.mod_le a b) ha)]

end Values

end Unsigned

/-- An integer of 32 bits. -/
abbrev U32 := Unsigned (2 ^ 32)

/-- An integer of 64 bits, as which lengths and offsets are counted. -/
abbrev U64 := Unsigned (2 ^ 64)

/-- An integer from `-limit` to below `limit`, or the failure to compute one. -/
structure Signed (limit : Nat) where
  value? : Option Int

namespace Signed

variable {limit : Nat}

def ofInt (n : Int) : Signed limit := ⟨if -limit ≤ n ∧ n < limit then some n else none⟩

/-- The value of an operation on two integers. -/
def apply (f : Int → Int → Signed limit) (a b : Signed limit) : Signed limit where
  value? := do (f (← a.value?) (← b.value?)).value?

instance : Coe Int (Signed limit) := ⟨ofInt⟩

instance : Coe Nat (Signed limit) := ⟨fun n => ofInt n⟩

instance {n : Nat} : OfNat (Signed limit) n := ⟨ofInt n⟩

instance : Add (Signed limit) := ⟨apply fun a b => ofInt (a + b)⟩

instance : Sub (Signed limit) := ⟨apply fun a b => ofInt (a - b)⟩

instance : Mul (Signed limit) := ⟨apply fun a b => ofInt (a * b)⟩

/-- Division towards zero. -/
instance : Div (Signed limit) := ⟨apply fun a b => if b = 0 then ⟨none⟩ else ofInt (a.tdiv b)⟩

/-- Division whose remainder is not negative. -/
def ediv : Signed limit → Signed limit → Signed limit :=
  apply fun a b => if b = 0 then ⟨none⟩ else ofInt (a / b)

def emod : Signed limit → Signed limit → Signed limit :=
  apply fun a b => if b = 0 then ⟨none⟩ else ofInt (a % b)

section Values

/-- The number is in the range of the type. -/
abbrev InRange (limit : Nat) (n : Int) : Prop := -limit ≤ n ∧ n < limit

variable {a b n : Int}

theorem literal_eq {m : Nat} : (OfNat.ofNat m : Signed limit) = ofInt (OfNat.ofNat m) := rfl

theorem value?_ofInt (h : InRange limit n) : (ofInt n : Signed limit).value? = some n := if_pos h

theorem apply_ofInt {f : Int → Int → Signed limit} (ha : InRange limit a) (hb : InRange limit b) :
    apply f (ofInt a) (ofInt b) = f a b := by
  simp [apply, value?_ofInt ha, value?_ofInt hb]

theorem ofInt_add_ofInt (ha : InRange limit a) (hb : InRange limit b) :
    (ofInt a + ofInt b : Signed limit) = ofInt (a + b) := apply_ofInt ha hb

theorem ofInt_sub_ofInt (ha : InRange limit a) (hb : InRange limit b) :
    (ofInt a - ofInt b : Signed limit) = ofInt (a - b) := apply_ofInt ha hb

theorem ofInt_mul_ofInt (ha : InRange limit a) (hb : InRange limit b) :
    (ofInt a * ofInt b : Signed limit) = ofInt (a * b) := apply_ofInt ha hb

theorem ofInt_div_ofInt (ha : InRange limit a) (hb : InRange limit b) (h : 0 ≤ a ∧ b ≠ 0) :
    (ofInt a / ofInt b : Signed limit) = ofInt (a / b) := by
  rw [← Int.tdiv_eq_ediv_of_nonneg h.1]
  exact (apply_ofInt ha hb).trans (if_neg h.2)

theorem ediv_ofInt (ha : InRange limit a) (hb : InRange limit b) (h : b ≠ 0) :
    (ediv (ofInt a) (ofInt b) : Signed limit) = ofInt (a / b) :=
  (apply_ofInt ha hb).trans (if_neg h)

theorem emod_ofInt (ha : InRange limit a) (hb : InRange limit b) (h : b ≠ 0) :
    (emod (ofInt a) (ofInt b) : Signed limit) = ofInt (a % b) :=
  (apply_ofInt ha hb).trans (if_neg h)

end Values

end Signed

abbrev I32 := Signed (2 ^ 31)

abbrev I64 := Signed (2 ^ 63)

end CellDisplay.Checked
