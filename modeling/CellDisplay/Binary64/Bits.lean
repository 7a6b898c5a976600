import CellDisplay.Binary64.Basic

/-! # The bits of a binary64 number

A word holds a sign bit, eleven bits of exponent and fifty-two bits of fraction. The least
exponent has no hidden bit, and the greatest one stands for infinite values and for values
that are not a number.
-/

namespace CellDisplay.Binary64

theorem representable_of_fields {fraction exponent : Nat} (hf : fraction < 2 ^ 52)
    (he : exponent < 2047) : Representable ((2 ^ 52 + fraction) * 2 ^ (exponent - 1)) :=
  ⟨2 ^ 52 + fraction, exponent - 1, by omega, by omega, rfl⟩

theorem representable_of_lt {units : Nat} (h : units < 2 ^ 53) : Representable units :=
  ⟨units, 0, h, by decide, by simp⟩

def ofBits (word : UInt64) : Binary64 :=
  let negative := word.toNat / 2 ^ 63 % 2 == 1
  let exponent := word.toNat / 2 ^ 52 % 2 ^ 11
  let fraction := word.toNat % 2 ^ 52
  have hf : fraction < 2 ^ 52 := Nat.mod_lt _ (by decide)
  if exponent = 0 then finite negative fraction (representable_of_lt (by omega))
  else if he : exponent < 2047 then
    finite negative ((2 ^ 52 + fraction) * 2 ^ (exponent - 1)) (representable_of_fields hf he)
  else if fraction = 0 then infinite negative
  else nan

/-- The word of a sign, an exponent and a fraction. -/
def word (negative : Bool) (exponent fraction : Nat) : UInt64 :=
  UInt64.ofNat (negative.toNat * 2 ^ 63 + exponent * 2 ^ 52 + fraction)

/-- The word that encodes a number; a value that is not a number has the first quiet word. -/
def toBits : Binary64 → UInt64
  | nan => word false 2047 (2 ^ 51)
  | infinite negative => word negative 2047 0
  | finite negative units _ =>
    if units < 2 ^ 52 then word negative 0 units
    else
      let shift := units.log2 - 52
      word negative (shift + 1) (units / 2 ^ shift - 2 ^ 52)

end CellDisplay.Binary64
