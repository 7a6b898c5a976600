import CellDisplay.Calendar.Serial
import CellDisplay.Text.Basic

/-! # Cells

The value of a spreadsheet cell. A date is a number, and a formula shows its stored result.
-/

namespace CellDisplay

/-- The stored result of a formula. -/
inductive StoredResult where
  | number (value : Binary64)
  | text (t : Text)
  deriving DecidableEq

/-- The value of a cell. -/
inductive Cell where
  | blank
  | boolean (value : Bool)
  /-- An error value, by the text that shows it -/
  | error (t : Text)
  | formula (result : StoredResult)
  | numeric (value : Binary64)
  | text (t : Text)
  deriving DecidableEq

namespace Cell

def ofInt (n : Int) : Cell := .numeric (Binary64.ofInt n)

def ofDate (date : Date) : Cell := .numeric (Serial.ofDate date .from1900)

def ofDateTime (date : Date) (time : TimeOfDay) (nanosecond : Nat) : Cell :=
  .numeric (Serial.ofDateTime date time nanosecond)

def number? : Cell → Option Binary64
  | numeric value | formula (.number value) => some value
  | _ => none

def text? : Cell → Option Text
  | text t | formula (.text t) => some t
  | _ => none

def isBlank : Cell → Bool
  | blank => true
  | _ => false

def kind : Cell → Text
  | blank => "blank".toList
  | boolean _ => "boolean".toList
  | error _ => "error".toList
  | formula _ => "formula".toList
  | numeric _ => "numeric".toList
  | text _ => "text".toList

end Cell

end CellDisplay
