import CellDisplay.Text.Basic

/-! # Faults of number patterns

Why a text is not a number pattern. Positions are byte offsets into the pattern.
-/

namespace CellDisplay.NumberPattern

/-- A fault of a number pattern. -/
inductive Fault where
  | unexpected (position : Nat) (found : Char)
  | unclosedQuote (position : Nat)
  | secondPoint (position : Nat)
  | malformedExponent (position : Nat)
  | noDigits
  | tooManySections
  | empty
  deriving Repr, DecidableEq

def Fault.message : Fault → Text
  | unexpected position found =>
    "unexpected character at position ".toList ++ Text.decimal position ++
      ": found '".toList ++ [found] ++ "'".toList
  | unclosedQuote position =>
    "unterminated quote starting at position ".toList ++ Text.decimal position
  | secondPoint position => "second decimal point at position ".toList ++ Text.decimal position
  | malformedExponent position =>
    "malformed exponent at position ".toList ++ Text.decimal position
  | noDigits => "pattern has no digit placeholders".toList
  | tooManySections => "too many sections (maximum 2 allowed)".toList
  | empty => "empty pattern".toList

end CellDisplay.NumberPattern
