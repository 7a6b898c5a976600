/-! # Texts

A text is a list of characters. Positions in a text are counted in UTF-8 bytes, numbers
are written in decimal, and padding puts zeros on the left.
-/

namespace CellDisplay

/-- A text, as its characters in order. -/
abbrev Text := List Char

namespace Text

/-- The number of bytes of a text in UTF-8. -/
def utf8Length (t : Text) : Nat := t.foldr (fun c length => c.utf8Size + length) 0

@[simp] theorem utf8Length_nil : utf8Length [] = 0 := rfl

@[simp] theorem utf8Length_cons (c : Char) (t : Text) :
    utf8Length (c :: t) = c.utf8Size + utf8Length t := rfl

@[simp] theorem utf8Length_append (s t : Text) :
    utf8Length (s ++ t) = utf8Length s + utf8Length t := by
  induction s with
  | nil => simp
  | cons c s ih => simp [ih, Nat.add_assoc]

/-- The decimal digits of a number, without leading zeros. -/
def decimal (n : Nat) : Text := Nat.toDigits 10 n

/-- Pads with zeros on the left, up to the given number of characters. -/
def zeroPadded (width : Nat) (t : Text) : Text := List.replicate (width - t.length) '0' ++ t

theorem length_zeroPadded (width : Nat) (t : Text) :
    (zeroPadded width t).length = max width t.length := by
  simp [zeroPadded]; omega

/-- Cuts a text to the given number of characters, or fills it up with zeros on the right. -/
def fitted (size : Nat) (t : Text) : Text := t.take size ++ List.replicate (size - t.length) '0'

/-- A number in decimal, with at least the given number of digits. -/
def padded (width n : Nat) : Text := zeroPadded width (decimal n)

/-- A whole number in decimal, with its sign when it is negative. -/
def ofInt : Int → Text
  | .ofNat n => decimal n
  | .negSucc n => '-' :: decimal (n + 1)

/-- A whole number in decimal, whose sign and digits take at least `width` characters. -/
def paddedInt (width : Nat) : Int → Text
  | .ofNat n => padded width n
  | .negSucc n => '-' :: padded (width - 1) (n + 1)

/-- Drops the longest run of characters at the end that satisfy `p`. -/
def trimEnd (p : Char → Bool) (t : Text) : Text := (t.reverse.dropWhile p).reverse

end Text

end CellDisplay
