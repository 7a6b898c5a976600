import CellDisplay.Checked.DateCode
import CellDisplay.NumberPattern.Apply

/-! # Digits by checked operations

A number of places is a precision, which has to fit into 16 bits. Zeros are counted by the bytes
of the digits they stand before, groups by the digits behind a place, and exponents are
computed in 32 bits.
-/

namespace CellDisplay.Checked

open NumberPattern

section Fixed

/-- The magnitude of a number, rounded to `places` digits behind the point. -/
def fixed (places : Nat) (value : Binary64) : Option Decimal.Fixed := do
  let places ← (places : Width).value?
  return Decimal.fixed places value

/-- Pads with zeros on the left, up to the given number of bytes. -/
def zeroPadded (size : Nat) (digits : Text) : Option Text :=
  if digits.utf8Length < size then do
    let missing ← (size - digits.utf8Length : U64).value?
    return List.replicate missing '0' ++ digits
  else some digits

def wholeDigits (minDigits : Nat) (whole fraction : Text) : Option Text := do
  let digits ← zeroPadded minDigits (whole.dropWhile (· = '0'))
  return if digits = [] ∧ fraction = [] then ['0'] else digits

/-- A separator stands before the place, behind which there are whole groups. -/
def startsGroup (size length place : Nat) : Option Bool :=
  if 0 < place then do
    let behind ← ((length - place) % size : U64).value?
    return behind = 0
  else some false

/-- The digits from a place on, with the separators among them. -/
def groupedFrom (size length : Nat) (separator : Char) : (place : Nat) → Text → Option Text
  | _, [] => some []
  | place, c :: rest => do
    let starts ← startsGroup size length place
    let rest ← groupedFrom size length separator (place + 1) rest
    return if starts then separator :: c :: rest else c :: rest

/-- Digits with a separator before every group; room is made for the digits and the separators
first. -/
def grouped (size : Nat) (separator : Char) (digits : Text) : Option Text := do
  let _room ← (digits.utf8Length + digits.utf8Length / size : U64).value?
  groupedFrom size digits.utf8Length separator 0 digits

def groupedBy (size : Option Nat) (separator : Char) (digits : Text) : Option Text :=
  match size with
  | some size => grouped size separator digits
  | none => some digits

def fixedField (layout : Layout) (locale : Locale) (value : Binary64) : Option DigitField := do
  let digits ← fixed layout.maxFraction value
  let fraction := trimFraction layout.minFraction digits.fraction
  let whole ← wholeDigits layout.minInteger digits.whole fraction
  let whole ← groupedBy layout.groupSize locale.groupSeparator whole
  return {
    text := whole ++ pointed locale.decimalSeparator fraction
    isZero := allZeros digits.whole && allZeros fraction }

end Fixed

section Scientific

/-- The exponent of a number whose first digit stands at the given power of ten. -/
def exponentFor (rule : MantissaRule) (first : Int) : Option Int :=
  if rule.multiples then ((Signed.ediv first rule.digits : I32) * rule.digits).value?
  else (first - (rule.digits - 1) : I32).value?

/-- The power of ten of the first digit above an exponent, counted from one. -/
def digitsAbove (first exponent : Int) : Option Int := (first - exponent + 1 : I32).value?

def integerCount (first exponent : Int) : Option Nat := do
  let above ← digitsAbove first exponent
  return (max above 1).toNat

/-- The positive magnitude of a number, rounded to `count` significant digits, of which all but
the first are a precision. -/
def significant (count : Nat) (value : Binary64) : Option Decimal.Scientific := do
  let _precision ← ((count - 1 : Nat) : Width).value?
  return Decimal.significant count value

/-- The exponent for a first digit, and the digits rounded for it. -/
def rounded (rule : MantissaRule) (places : Nat) (value : Binary64) (first : Int) :
    Option (Int × Decimal.Scientific) := do
  let exponent ← exponentFor rule first
  let count ← integerCount first exponent
  let size ← (count + places : U64).value?
  return (exponent, ← significant size value)

/-- Cuts digits to the given number of bytes, or fills them up with zeros on the right. -/
def fitted (size : Nat) (digits : Text) : Option Text :=
  if size ≤ digits.utf8Length then sliceTo size digits
  else some (digits ++ List.replicate (size - digits.utf8Length) '0')

/-- The exponent after a carry into one more integer digit, if there is one. -/
def carriedExponent (rule : MantissaRule) (first exponent : Int) : Option Int := do
  let above ← digitsAbove first exponent
  let digits ← (rule.digits : I32).value?
  if digits < above then (exponent + rule.step : I32).value? else return exponent

/-- The mantissa that shows digits under an exponent. -/
def mantissaOf (places : Nat) (digits : Decimal.Scientific) (exponent : Int) :
    Option Mantissa := do
  let count ← integerCount digits.exponent exponent
  let size ← (count + places : U64).value?
  let shown ← fitted size digits.digits
  let (whole, fraction) ← cutAt count shown
  return ⟨whole, fraction, exponent⟩

def mantissa (rule : MantissaRule) (places : Nat) (value : Binary64) : Option Mantissa :=
  if value.isZero then some ⟨['0'], List.replicate places '0', 0⟩
  else do
    let first := (Decimal.shortest value).exponent
    let guess ← rounded rule places value first
    let (exponent, digits) ←
      (if guess.2.exponent < first then rounded rule places value guess.2.exponent
      else some guess)
    let exponent ← carriedExponent rule digits.exponent exponent
    mantissaOf places digits exponent

def exponentText (spec : Exponent) (exponent : Int) : Option Text := do
  let digits ← padded spec.minDigits exponent.natAbs
  return 'E' :: (if exponent < 0 then ['-'] else if spec.showPlus then ['+'] else []) ++ digits

def scientificField (layout : Layout) (spec : Exponent) (locale : Locale) (value : Binary64) :
    Option DigitField := do
  let mantissa ← mantissa (.ofLayout layout) layout.maxFraction value
  let fraction := trimFraction layout.minFraction mantissa.fraction
  let whole ← wholeDigits layout.minInteger mantissa.whole fraction
  let exponent ← exponentText spec mantissa.exponent
  return {
    text := whole ++ pointed locale.decimalSeparator fraction ++ exponent
    isZero := allZeros mantissa.whole && allZeros fraction }

end Scientific

def digitField (layout : Layout) (locale : Locale) (value : Binary64) : Option DigitField :=
  match layout.exponent with
  | some spec => scientificField layout spec locale value
  | none => fixedField layout locale value

def apply (pattern : NumberPattern) (locale : Locale) (value : Binary64) : Option Text :=
  match value with
  | .nan => some "NaN".toList
  | value =>
    match pattern.scaledMagnitude value with
    | .infinite _ => some ((if value.isNegative then ['-'] else []) ++ "Infinity".toList)
    | scaled => do
      let field ← digitField pattern.layout locale scaled
      return pattern.withAffixes value.isNegative field

end CellDisplay.Checked
