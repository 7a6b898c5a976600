import CellDisplay.Binary64.Basic
import CellDisplay.Text.Basic

/-! # Decimal digits of binary64 numbers

The exact value of a number is rounded once, either to a number of places behind the point
or to a number of significant digits; a half goes to the even digit. The sign plays no part.
A value without digits stands for itself by its name.
-/

namespace CellDisplay.Decimal

def nanText : Text := "NaN".toList

def infinityText : Text := "inf".toList

/-- The digits before and behind the point. -/
structure Fixed where
  whole : Text
  fraction : Text
  deriving Repr, DecidableEq

/-- Digits whose first one counts multiples of ten to the power of `exponent`. -/
structure Scientific where
  digits : Text
  exponent : Int
  deriving Repr, DecidableEq

/-- The digits of `n / 10 ^ places`. -/
def Fixed.ofScaled (places n : Nat) : Fixed where
  whole := Text.decimal (n / 10 ^ places)
  fraction := if places = 0 then [] else Text.padded places (n % 10 ^ places)

/-- A magnitude in multiples of `10 ^ (-places)`, rounded. -/
def scaled (places units : Nat) : Nat :=
  roundHalfEven (units * 10 ^ places) Binary64.unitsPerOne

/-- The magnitude of a number, rounded to `places` digits behind the point. -/
def fixed (places : Nat) : Binary64 → Fixed
  | .nan => ⟨nanText, []⟩
  | .infinite _ => ⟨infinityText, []⟩
  | .finite _ units _ => .ofScaled places (scaled places units)

/-- The exponent of the greatest power of ten up to `num / den`, which is positive. -/
def decade (num den : Nat) : Int :=
  if den ≤ num then (Text.decimal (num / den)).length - 1
  else -(Text.decimal ((den - 1) / num)).length

def powTen (exponent : Int) : Nat × Nat := (10 ^ exponent.toNat, 10 ^ (-exponent).toNat)

/-- The digits of a count of multiples of `10 ^ (first - (count - 1))`, at most `10 ^ count`. -/
def Scientific.ofMultiples (count : Nat) (first : Int) (n : Nat) : Scientific :=
  if n < 10 ^ count then ⟨Text.decimal n, first⟩ else ⟨Text.decimal (n / 10), first + 1⟩

/-- The positive quotient `num / den`, rounded to `count` significant digits. -/
def significantOf (count num den : Nat) : Scientific :=
  let first := decade num den
  let (up, down) := powTen (first - (count - 1))
  .ofMultiples count first (roundHalfEven (num * down) (den * up))

/-- The positive magnitude of a number, rounded to `count` significant digits. -/
def significant (count : Nat) : Binary64 → Scientific
  | .nan => ⟨nanText, 0⟩
  | .infinite _ => ⟨infinityText, 0⟩
  | .finite _ units _ => significantOf count units Binary64.unitsPerOne

end CellDisplay.Decimal
