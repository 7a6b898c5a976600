import CellDisplay.Format.Piece
import CellDisplay.Text.Cut

/-! # Which codes are date codes

A code with an elapsed-time tag is a date code. Any other code is one if, apart from the
markers for the halves of the day, its text holds only characters of date codes and among
them a letter of a token.
-/

namespace CellDisplay.DateCode

/-- The marker for the halves of the day, and the marker for their initials. -/
def halfDayMarkers : List Text := ["AM/PM".toList, "A/P".toList]

def isTokenLetter (c : Char) : Bool := c ∈ "ymdhsgYMDHSG".toList

def isDateChar (c : Char) : Bool := isTokenLetter c || c ∈ "eEaA/-.:, ()0年月日時分秒".toList

/-- The code text of the pieces without the markers for the halves of the day. -/
def unmarkedText (pieces : List FormatCode.Piece) : Text :=
  halfDayMarkers.foldl (fun t marker => Text.replace marker [] t) (FormatCode.codeText pieces)

def isDateCode (pieces : List FormatCode.Piece) : Bool :=
  FormatCode.hasElapsed pieces ||
    ((unmarkedText pieces).all isDateChar && (unmarkedText pieces).any isTokenLetter)

/-- The code text of the pieces has a letter of a date or time outside the general keyword. -/
def hasDateLetter (pieces : List FormatCode.Piece) : Bool :=
  (Text.replace "General".toList [] (FormatCode.codeText pieces)).any
    (·.toLower ∈ "ymdhs".toList)

end CellDisplay.DateCode
