import CellDisplay.Binary64.Basic
import CellDisplay.Text.Basic

/-! # Number patterns

A number pattern says how the digits of a number are laid out and which texts stand around
them. A second pair of texts can be given for negative numbers; the digits are laid out
alike for both signs.
-/

namespace CellDisplay

namespace NumberPattern

/-- A place for a digit: a required place shows a zero where the number has no digit. -/
inductive Placeholder where
  | required
  | optional
  deriving Repr, DecidableEq

/-- A part of a text around the digits. -/
inductive AffixPart where
  | literal (text : Text)
  /-- A percent sign, which scales the number by 100 -/
  | percent
  /-- A per-mille sign, which scales the number by 1000 -/
  | perMille
  deriving Repr, DecidableEq

namespace AffixPart

def text : AffixPart → Text
  | literal t => t
  | percent => ['%']
  | perMille => ['‰']

def factor : AffixPart → Binary64
  | literal _ => 1
  | percent => 100
  | perMille => 1000

end AffixPart

/-- The texts before and after the digits. -/
structure Affixes where
  before : List AffixPart
  after : List AffixPart
  deriving Repr, DecidableEq

/-- The product of all factors, from left to right. -/
def Affixes.multiplier (affixes : Affixes) : Binary64 :=
  (affixes.before ++ affixes.after).foldl (fun product part => product * part.factor) 1

def Affixes.around (affixes : Affixes) (digits : Text) : Text :=
  affixes.before.flatMap AffixPart.text ++ digits ++ affixes.after.flatMap AffixPart.text

/-- How the exponent of a scientific pattern is written. -/
structure Exponent where
  minDigits : Nat
  showPlus : Bool
  deriving Repr, DecidableEq

/-- The layout of the digits. -/
structure Layout where
  integer : List Placeholder
  fraction : List Placeholder
  /-- The number of digits in a group, if digits are grouped -/
  groupSize : Option Nat
  exponent : Option Exponent
  deriving Repr, DecidableEq

namespace Layout

/-- The least number of integer digits. -/
def minInteger (layout : Layout) : Nat := layout.integer.count .required

/-- The least number of fraction digits. -/
def minFraction (layout : Layout) : Nat := layout.fraction.count .required

/-- The greatest number of fraction digits, to which a number is rounded. -/
def maxFraction (layout : Layout) : Nat := layout.fraction.length

end Layout

end NumberPattern

/-- A number pattern. -/
structure NumberPattern where
  layout : NumberPattern.Layout
  positive : NumberPattern.Affixes
  /-- The texts around negative numbers, if they have their own -/
  negative : Option NumberPattern.Affixes
  deriving Repr, DecidableEq

end CellDisplay
