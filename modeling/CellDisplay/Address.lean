import CellDisplay.Text.Quoted

/-! # Cell addresses

An address is a column in letters and a row in digits, as in `B3` or `$B$3`. Letters count
in base 26 without a zero, and both parts count from one.
-/

namespace CellDisplay

/-- The place of a cell, with the row and the column counted from zero. -/
structure CellAddress where
  row : UInt32
  column : UInt32
  deriving Repr, DecidableEq, Hashable

/-- A text that is no cell address. -/
structure AddressError where
  text : Text
  deriving Repr, DecidableEq

def AddressError.message (error : AddressError) : Text :=
  "invalid cell address: ".toList ++ Text.quoted error.text

namespace CellAddress

/-- The letters of a number counted from one; zero has none. -/
def letters (n : Nat) : Text :=
  match n with
  | 0 => []
  | n + 1 => letters (n / 26) ++ [Char.ofNat ('A'.toNat + n % 26)]

/-- The number of a letter, from one for `A` in either case. -/
def letterNumber (c : Char) : Nat := c.toUpper.toNat - 'A'.toNat + 1

def lettersNumber (t : Text) : Nat := t.foldl (fun n c => n * 26 + letterNumber c) 0

def digitsNumber (t : Text) : Nat := t.foldl (fun n c => n * 10 + (c.toNat - '0'.toNat)) 0

def toText (address : CellAddress) : Text :=
  letters (address.column.toNat + 1) ++ Text.decimal (address.row.toNat + 1)

/-- A text without one dollar sign at its start. -/
def dropDollar : Text → Text
  | '$' :: t => t
  | t => t

/-- A row or column number counted from one, as one counted from zero. -/
def ordinal? (n : Nat) : Option UInt32 :=
  if 0 < n ∧ n < UInt32.size then some (UInt32.ofNat (n - 1)) else none

/-- Reads the letters and digits of an address, each with a dollar sign or without. -/
def ofText? (t : Text) : Option CellAddress :=
  let t := dropDollar t
  let column := t.takeWhile Char.isAlpha
  let row := dropDollar (t.dropWhile Char.isAlpha)
  if column ≠ [] ∧ row ≠ [] ∧ row.all Char.isDigit then do
    let column ← ordinal? (lettersNumber column)
    let row ← ordinal? (digitsNumber row)
    return ⟨row, column⟩
  else none

/-- Reads an address; the error carries the text. -/
def ofText (t : Text) : Except AddressError CellAddress :=
  match ofText? t with
  | some address => .ok address
  | none => .error ⟨t⟩

end CellAddress

end CellDisplay
