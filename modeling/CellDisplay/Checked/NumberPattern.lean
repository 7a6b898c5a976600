import CellDisplay.Checked.Text
import CellDisplay.NumberPattern.Parser

/-! # Number patterns read by byte offsets

The tokens of a pattern are read at offsets into its text. The places of an integer part are
counted, so that the size of a group is a difference of counts, and a token that cannot stand
where it does is looked up at its offset.
-/

namespace CellDisplay.Checked

open NumberPattern

section Tokens

/-- The character at an offset, and the offset behind it, unless the text ends there. -/
def charAt (pattern : Text) (position : Nat) : Option (Option (Char × Nat)) := do
  let rest ← sliceFrom position pattern
  match rest with
  | [] => return none
  | c :: _ => return some (c, ← (position + c.utf8Size : U64).value?)

/-- The text of a quoted run from an offset on, and the offset behind the apostrophe that closes
it; the search ends within the given number of rounds. -/
def runFrom (pattern : Text) : (rounds position : Nat) → Option (Option (Text × Nat))
  | 0, _ => none
  | rounds + 1, position => do
    match ← charAt pattern position with
    | none => return none
    | some (c, next) =>
      if c = apostrophe then
        match ← charAt pattern next with
        | some (d, after) =>
          if d = apostrophe then
            let run ← runFrom pattern rounds after
            return run.map fun (text, stop) => (apostrophe :: text, stop)
          else return some ([], next)
        | none => return some ([], next)
      else
        let run ← runFrom pattern rounds next
        return run.map fun (text, stop) => (c :: text, stop)

/-- What is read at an offset: the end of the pattern, an apostrophe whose run is not closed, or
a token with the offset behind it. -/
inductive Lexeme where
  | finished
  | unclosed
  | token (token : Token) (stop : Nat)

/-- The token that an apostrophe opens, from the offset behind it on. -/
def quotedAt (pattern : Text) (position : Nat) : Option Lexeme := do
  match ← charAt pattern position with
  | none => return .unclosed
  | some (c, next) =>
    if c = apostrophe then return .token (.literal apostrophe) next
    else
      match ← runFrom pattern (pattern.utf8Length + 1) position with
      | none => return .unclosed
      | some (text, stop) => return .token (.quoted text) stop

def lexemeAt (pattern : Text) (position : Nat) : Option Lexeme := do
  match ← charAt pattern position with
  | none => return .finished
  | some (c, next) =>
    if c = apostrophe then quotedAt pattern next else return .token (.ofChar c) next

/-- The tokens from an offset on; reading ends within the given number of rounds. -/
def tokensFrom (pattern : Text) : (rounds position : Nat) → Option Tokens
  | 0, _ => none
  | rounds + 1, position => do
    match ← lexemeAt pattern position with
    | .finished => return .finished position
    | .unclosed => return .unclosed position
    | .token token stop => return .next token position (← tokensFrom pattern rounds stop)

def tokens (pattern : Text) : Option Tokens := tokensFrom pattern (pattern.utf8Length + 1) 0

end Tokens

section Parser

/-- A computation that fails, gives a fault of the pattern, or gives a result. -/
abbrev Parse (α : Type) := ExceptT Fault Option α

/-- The fault of the token at an offset. -/
def unexpected (pattern : Text) (start : Nat) : Option Fault := do
  let rest ← sliceFrom start pattern
  return .unexpected start (rest.head?.getD '\x00')

/-- What is read of a number. -/
structure Partial where
  integer : List Placeholder
  fraction : List Placeholder
  pointed : Bool
  /-- The number of integer places before the last grouping separator -/
  lastGrouping : Option Nat

namespace Partial

def empty : Partial := ⟨[], [], false, none⟩

def push (number : Partial) (placeholder : Placeholder) : Partial :=
  if number.pointed then { number with fraction := number.fraction ++ [placeholder] }
  else { number with integer := number.integer ++ [placeholder] }

/-- Notes a grouping separator behind the places read so far. -/
def separate (number : Partial) : Partial :=
  { number with lastGrouping := some number.integer.length }

/-- The number of places behind the last grouping separator, if there are any. -/
def groupSize (number : Partial) : Option (Option Nat) :=
  match number.lastGrouping with
  | none => some none
  | some position => do
    let size ← (number.integer.length - position : U64).value?
    return if size = 0 then none else some size

/-- The layout of a number, which is absent if it has neither a place nor a point. -/
def layout? (number : Partial) (exponent : Option Exponent) : Option (Option Layout) :=
  if number.integer = [] ∧ number.fraction = [] ∧ number.pointed = false then some none
  else do return some ⟨number.integer, number.fraction, ← number.groupSize, exponent⟩

end Partial

/-- Reads what follows the letter of an exponent, whose zeros are counted. -/
def readExponent (start : Nat) (tokens : Tokens) : Parse (Exponent × Tokens) := do
  let (exponent, rest) ← NumberPattern.readExponent start tokens
  let minDigits ← (exponent.minDigits : U64).value?
  return ({ exponent with minDigits }, rest)

/-- Reads the tokens of a number. -/
def readNumber (pattern : Text) (number : Partial) :
    Tokens → Parse (Partial × Option Exponent × Tokens)
  | .next .zero _ rest => readNumber pattern (number.push .required) rest
  | .next .hash _ rest => readNumber pattern (number.push .optional) rest
  | .next .grouping start rest =>
    if number.pointed then do throw (← unexpected pattern start)
    else readNumber pattern number.separate rest
  | .next .point start rest =>
    if number.pointed then throw (.secondPoint start)
    else readNumber pattern { number with pointed := true } rest
  | .next .exponent start rest => do
    if number.integer = [] ∧ number.fraction = [] then throw (.malformedExponent start)
    let (exponent, rest) ← readExponent start rest
    return (number, some exponent, rest)
  | .unclosed start => throw (.unclosedQuote start)
  | rest => return (number, none, rest)

def readLayout (pattern : Text) (tokens : Tokens) : Parse (Option Layout × Tokens) := do
  let (number, exponent, rest) ← readNumber pattern .empty tokens
  return (← number.layout? exponent, rest)

/-- Reads a subpattern, which ends with the pattern or before a semicolon. -/
def readSubpattern (pattern : Text) (tokens : Tokens) :
    Parse (Affixes × Option Layout × Tokens) := do
  let (before, rest) ← readAffix tokens
  let (layout, rest) ← readLayout pattern rest
  let (after, rest) ← readAffix rest
  match rest with
  | .next .separator _ _ | .finished _ => return (⟨before, after⟩, layout, rest)
  | .next _ start _ => throw (← unexpected pattern start)
  | .unclosed start => throw (.unclosedQuote start)

def ofTokens (pattern : Text) (tokens : Tokens) : Parse NumberPattern := do
  let (positive, layout, rest) ← readSubpattern pattern tokens
  let some layout := layout | throw .noDigits
  match rest with
  | .next .separator _ rest =>
    let (negative, _, rest) ← readSubpattern pattern rest
    match rest with
    | .next .separator _ _ => throw .tooManySections
    | _ => return ⟨layout, positive, some negative⟩
  | _ => return ⟨layout, positive, none⟩

def parse (pattern : Text) : Parse NumberPattern := do
  if pattern = [] then throw .empty
  ofTokens pattern (← tokens pattern)

end Parser

end CellDisplay.Checked
