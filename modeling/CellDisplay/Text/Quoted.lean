import CellDisplay.Text.Basic

/-! # Quoted texts

The form of a text in a message: in double quotes, with quotes, backslashes and control
characters escaped.
-/

namespace CellDisplay.Text

/-- A control character, which has no shape of its own. -/
def isControl (c : Char) : Bool := c.toNat < 0x20 || (0x7F ≤ c.toNat && c.toNat < 0xA0)

/-- The escape of a code point, by its number in base sixteen. -/
def codePointEscape (n : Nat) : Text := "\\u\x7b".toList ++ Nat.toDigits 16 n ++ "\x7d".toList

/-- One character as it is written between double quotes. -/
def escaped (c : Char) : Text :=
  match c with
  | '"' => "\\\"".toList
  | '\\' => "\\\\".toList
  | '\n' => "\\n".toList
  | '\t' => "\\t".toList
  | '\r' => "\\r".toList
  | '\x00' => "\\0".toList
  | c => if isControl c then codePointEscape c.toNat else [c]

def quoted (t : Text) : Text := '"' :: t.flatMap escaped ++ ['"']

end CellDisplay.Text
