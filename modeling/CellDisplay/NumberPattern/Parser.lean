import CellDisplay.NumberPattern.Basic
import CellDisplay.NumberPattern.Error
import CellDisplay.NumberPattern.Token

/-! # Reading number patterns

A pattern is one subpattern, or two with a semicolon between them, and a subpattern is an
affix, a number and an affix. The first fault from the left is reported; an apostrophe whose
run is not closed is a fault as soon as reading comes to it.
-/

namespace CellDisplay.NumberPattern

/-- The fault of a token that cannot stand where it does. -/
def Fault.ofToken (token : Token) (start : Nat) : Fault := .unexpected start token.firstChar

/-- Puts literal text in front of the parts of an affix. -/
def AffixPart.consLiteral (text : Text) : List AffixPart → List AffixPart
  | literal next :: parts => literal (text ++ next) :: parts
  | parts => literal text :: parts

/-- Reads an affix up to the first token that cannot belong to it. -/
def readAffix : Tokens → Except Fault (List AffixPart × Tokens)
  | .next (.literal c) _ rest => do
    let (parts, rest) ← readAffix rest
    return (AffixPart.consLiteral [c] parts, rest)
  | .next (.quoted text) _ rest => do
    let (parts, rest) ← readAffix rest
    return (AffixPart.consLiteral text parts, rest)
  | .next .percent _ rest => do
    let (parts, rest) ← readAffix rest
    return (.percent :: parts, rest)
  | .next .perMille _ rest => do
    let (parts, rest) ← readAffix rest
    return (.perMille :: parts, rest)
  | .unclosed start => throw (.unclosedQuote start)
  | rest => return ([], rest)

/-- A token of the integer part: a place for a digit, or a grouping separator. -/
inductive IntegerMark where
  | place (placeholder : Placeholder)
  | grouping
  deriving Repr, DecidableEq

namespace IntegerMark

/-- The places for digits among the marks. -/
def places (marks : List IntegerMark) : List Placeholder :=
  marks.filterMap fun
    | place placeholder => some placeholder
    | grouping => none

/-- The number of places behind the last grouping separator, if there are any. -/
def groupSize (marks : List IntegerMark) : Option Nat :=
  let size := (marks.reverse.takeWhile (· ≠ grouping)).length
  if grouping ∈ marks ∧ size ≠ 0 then some size else none

end IntegerMark

def readInteger : Tokens → Except Fault (List IntegerMark × Tokens)
  | .next .zero _ rest => do
    let (marks, rest) ← readInteger rest
    return (.place .required :: marks, rest)
  | .next .hash _ rest => do
    let (marks, rest) ← readInteger rest
    return (.place .optional :: marks, rest)
  | .next .grouping _ rest => do
    let (marks, rest) ← readInteger rest
    return (.grouping :: marks, rest)
  | .unclosed start => throw (.unclosedQuote start)
  | rest => return ([], rest)

/-- Reads the places of a fraction, in which digits are not grouped. -/
def readFraction : Tokens → Except Fault (List Placeholder × Tokens)
  | .next .zero _ rest => do
    let (places, rest) ← readFraction rest
    return (.required :: places, rest)
  | .next .hash _ rest => do
    let (places, rest) ← readFraction rest
    return (.optional :: places, rest)
  | .next .grouping start _ => throw (.ofToken .grouping start)
  | .next .point start _ => throw (.secondPoint start)
  | .unclosed start => throw (.unclosedQuote start)
  | rest => return ([], rest)

def readZeros : Tokens → Except Fault (Nat × Tokens)
  | .next .zero _ rest => do
    let (count, rest) ← readZeros rest
    return (count + 1, rest)
  | .unclosed start => throw (.unclosedQuote start)
  | rest => return (0, rest)

/-- Reads what follows the letter of an exponent: a sign, if any, and at least one zero. -/
def readExponent (start : Nat) (tokens : Tokens) : Except Fault (Exponent × Tokens) := do
  let (showPlus, rest) :=
    match tokens with
    | .next (.literal '+') _ rest => (true, rest)
    | .next (.literal '-') _ rest => (false, rest)
    | rest => (false, rest)
  let (minDigits, rest) ← readZeros rest
  if minDigits = 0 then throw (.malformedExponent start)
  return (⟨minDigits, showPlus⟩, rest)

/-- Reads a number, which is absent if it has neither a place nor a point. -/
def readLayout (tokens : Tokens) : Except Fault (Option Layout × Tokens) := do
  let (marks, rest) ← readInteger tokens
  let integer := IntegerMark.places marks
  let (pointed, fraction, rest) ←
    match rest with
    | .next .point _ rest => do
      let (fraction, rest) ← readFraction rest
      pure (true, fraction, rest)
    | rest => pure (false, [], rest)
  let (exponent, rest) ←
    match rest with
    | .next .exponent start rest => do
      if integer = [] ∧ fraction = [] then throw (.malformedExponent start)
      let (exponent, rest) ← readExponent start rest
      pure (some exponent, rest)
    | rest => pure (none, rest)
  if integer = [] ∧ fraction = [] ∧ pointed = false then return (none, rest)
  return (some ⟨integer, fraction, IntegerMark.groupSize marks, exponent⟩, rest)

/-- Reads a subpattern, which ends with the pattern or before a semicolon. -/
def readSubpattern (tokens : Tokens) : Except Fault (Affixes × Option Layout × Tokens) := do
  let (before, rest) ← readAffix tokens
  let (layout, rest) ← readLayout rest
  let (after, rest) ← readAffix rest
  match rest with
  | .next .separator _ _ | .finished _ => return (⟨before, after⟩, layout, rest)
  | .next token start _ => throw (.ofToken token start)
  | .unclosed start => throw (.unclosedQuote start)

/-- Reads the tokens of a pattern. Of a second subpattern only the affixes count. -/
def ofTokens (tokens : Tokens) : Except Fault NumberPattern := do
  let (positive, layout, rest) ← readSubpattern tokens
  let some layout := layout | throw .noDigits
  match rest with
  | .next .separator _ rest =>
    let (negative, _, rest) ← readSubpattern rest
    match rest with
    | .next .separator _ _ => throw .tooManySections
    | _ => return ⟨layout, positive, some negative⟩
  | _ => return ⟨layout, positive, none⟩

def parse (pattern : Text) : Except Fault NumberPattern :=
  if pattern = [] then .error .empty else ofTokens (tokens pattern)

end CellDisplay.NumberPattern
