import CellDisplay.Decimal.Shortest
import CellDisplay.Locale
import CellDisplay.NumberPattern.Basic

/-! # Applying number patterns

The magnitude of a number is scaled by the positive affixes, rounded once on its exact
value, and laid out as a field of digits; the affixes stand around the field. A number whose
field shows zeros only is shown without a sign.
-/

namespace CellDisplay.NumberPattern

/-- The digits of a number as a pattern shows them, and whether all of them are zeros. -/
structure DigitField where
  text : Text
  isZero : Bool
  deriving Repr, DecidableEq

/-- Drops zeros at the end of a fraction, down to the least number of digits. -/
def trimFraction (minDigits : Nat) (fraction : Text) : Text :=
  fraction.take minDigits ++ Text.trimEnd (· = '0') (fraction.drop minDigits)

def allZeros (digits : Text) : Bool := digits.all (· = '0')

/-- Integer digits without leading zeros, padded to the least number of digits; a zero stands
where there would be no digit at all. -/
def wholeDigits (minDigits : Nat) (whole fraction : Text) : Text :=
  let digits := Text.zeroPadded minDigits (whole.dropWhile (· = '0'))
  if digits = [] ∧ fraction = [] then ['0'] else digits

/-- Digits with a separator before every group, counted from the right. -/
def grouped (size : Nat) (separator : Char) : Text → Text
  | [] => []
  | [c] => [c]
  | c :: d :: rest =>
    if (d :: rest).length % size = 0 then c :: separator :: grouped size separator (d :: rest)
    else c :: grouped size separator (d :: rest)

/-- A fraction with the separator before it, if it has digits. -/
def pointed (separator : Char) (fraction : Text) : Text :=
  if fraction = [] then [] else separator :: fraction

def fixedField (layout : Layout) (locale : Locale) (value : Binary64) : DigitField :=
  let digits := Decimal.fixed layout.maxFraction value
  let fraction := trimFraction layout.minFraction digits.fraction
  let whole := wholeDigits layout.minInteger digits.whole fraction
  let whole :=
    match layout.groupSize with
    | some size => grouped size locale.groupSeparator whole
    | none => whole
  { text := whole ++ pointed locale.decimalSeparator fraction
    isZero := allZeros digits.whole && allZeros fraction }

/-- How many integer digits a mantissa can have and which exponents it goes with. -/
structure MantissaRule where
  /-- Exponents are multiples of the step, and not chosen for a fixed number of digits -/
  multiples : Bool
  /-- The greatest number of integer digits, which is also the step of the multiples -/
  digits : Nat

namespace MantissaRule

/-- Optional integer places ask for exponents in steps of the number of all places; otherwise
the required places are the number of integer digits. -/
def ofLayout (layout : Layout) : MantissaRule :=
  if layout.minInteger < layout.integer.length ∧ 1 < layout.integer.length then
    ⟨true, layout.integer.length⟩
  else ⟨false, max layout.minInteger 1⟩

def step (rule : MantissaRule) : Int := if rule.multiples then rule.digits else 1

/-- The exponent of a number whose first digit stands at the given power of ten. -/
def exponentFor (rule : MantissaRule) (first : Int) : Int :=
  if rule.multiples then first / rule.digits * rule.digits else first - (rule.digits - 1)

end MantissaRule

/-- The digits of a mantissa and its exponent. -/
structure Mantissa where
  whole : Text
  fraction : Text
  exponent : Int
  deriving Repr, DecidableEq

/-- The number of integer digits of a number under an exponent, which is at least one. -/
def integerCount (first exponent : Int) : Nat := max (first - exponent + 1).toNat 1

/-- The mantissa of a magnitude with `places` fraction digits. The exponent is chosen for the
shortest digits, and again if the exact value rounds to a smaller power of ten; a carry into
one more integer digit moves it by a step. -/
def mantissa (rule : MantissaRule) (places : Nat) (value : Binary64) : Mantissa :=
  if value.isZero then ⟨['0'], List.replicate places '0', 0⟩
  else
    let rounded (first : Int) : Int × Decimal.Scientific :=
      let exponent := rule.exponentFor first
      (exponent, Decimal.significant (integerCount first exponent + places) value)
    let first := (Decimal.shortest value).exponent
    let (exponent, digits) :=
      if (rounded first).2.exponent < first then rounded (rounded first).2.exponent
      else rounded first
    let exponent :=
      if rule.digits < digits.exponent - exponent + 1 then exponent + rule.step else exponent
    let count := integerCount digits.exponent exponent
    let shown := Text.fitted (count + places) digits.digits
    ⟨shown.take count, shown.drop count, exponent⟩

/-- The letter of an exponent and its digits, with a sign if it is negative or asked for. -/
def exponentText (spec : Exponent) (exponent : Int) : Text :=
  'E' :: (if exponent < 0 then ['-'] else if spec.showPlus then ['+'] else []) ++
    Text.padded spec.minDigits exponent.natAbs

/-- The field of a magnitude with an exponent; its integer digits are not grouped. -/
def scientificField (layout : Layout) (spec : Exponent) (locale : Locale) (value : Binary64) :
    DigitField :=
  let mantissa := mantissa (.ofLayout layout) layout.maxFraction value
  let fraction := trimFraction layout.minFraction mantissa.fraction
  let whole := wholeDigits layout.minInteger mantissa.whole fraction
  { text := whole ++ pointed locale.decimalSeparator fraction ++
      exponentText spec mantissa.exponent
    isZero := allZeros mantissa.whole && allZeros fraction }

def digitField (layout : Layout) (locale : Locale) (value : Binary64) : DigitField :=
  match layout.exponent with
  | some spec => scientificField layout spec locale value
  | none => fixedField layout locale value

/-- The magnitude of a number as a pattern scales it. -/
def scaledMagnitude (pattern : NumberPattern) (value : Binary64) : Binary64 :=
  value.abs * pattern.positive.multiplier

/-- The field with the affixes for its sign around it. -/
def withAffixes (pattern : NumberPattern) (negative : Bool) (field : DigitField) : Text :=
  if negative && !field.isZero then
    match pattern.negative with
    | some affixes => affixes.around field.text
    | none => '-' :: pattern.positive.around field.text
  else pattern.positive.around field.text

def apply (pattern : NumberPattern) (locale : Locale) (value : Binary64) : Text :=
  match value with
  | .nan => "NaN".toList
  | value =>
    match pattern.scaledMagnitude value with
    | .infinite _ => (if value.isNegative then ['-'] else []) ++ "Infinity".toList
    | scaled => pattern.withAffixes value.isNegative (digitField pattern.layout locale scaled)

end CellDisplay.NumberPattern
