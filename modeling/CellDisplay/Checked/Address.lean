import CellDisplay.Address
import CellDisplay.Checked.Machine

/-! # Addresses by machine integers

The number of a column is computed in 64 bits letter by letter, and reading ends at the letter with
which it passes 32 bits. The number of a row is computed in 32 bits, and reading ends at the digit
with which it leaves them.
-/

namespace CellDisplay.Checked

open CellAddress

/-- The number of a column with one more letter, whose place in the alphabet is a byte. -/
def nextColumn (n : Nat) (c : Char) : Option Nat := do
  let place ← (c.toUpper.toNat - 'A'.toNat : Unsigned (2 ^ 8)).value?
  (n * 26 + place + 1 : U64).value?

/-- The number of a column whose first letters have the number `n`, unless it passes 32 bits. -/
def columnFrom (n : Nat) : Text → Option (Option Nat)
  | [] => some (some n)
  | c :: t => do
    let n ← nextColumn n c
    if UInt32.size ≤ n then return none else columnFrom n t

/-- The number of a row whose first digits have the number `n`, unless it passes 32 bits. -/
def rowFrom (n : Nat) : Text → Option Nat
  | [] => some n
  | c :: t => do
    let n ← (n * 10 + (c.toNat - '0'.toNat : Nat) : U32).value?
    rowFrom n t

/-- The row and the column of two numbers counted from one. -/
def addressOf (row column : Nat) : Option CellAddress := do
  let row ← (row - 1 : U32).value?
  let column ← (column - 1 : U64).value?
  return ⟨UInt32.ofNat row, UInt32.ofNat column⟩

/-- Reads an address; there is no answer at all if an operation fails. -/
def addressOfText (t : Text) : Option (Except AddressError CellAddress) :=
  let letters := (dropDollar t).takeWhile Char.isAlpha
  let digits := dropDollar ((dropDollar t).dropWhile Char.isAlpha)
  if letters ≠ [] ∧ digits ≠ [] ∧ digits.all Char.isDigit then do
    match ← columnFrom 0 letters, rowFrom 0 digits with
    | none, _ | _, none | _, some 0 => return .error ⟨t⟩
    | some column, some row => return .ok (← addressOf row column)
  else some (.error ⟨t⟩)

end CellDisplay.Checked
