import CellDisplay.Format.Piece
import CellDisplay.Format.Resolved
import CellDisplay.NumberCode.Numerals
import CellDisplay.NumberPattern.Token
import CellDisplay.Text.Cut

/-! # From format codes to number patterns

A few indices have a number pattern of their own. Any other code is lowered piece by piece:
literal text is quoted, and the placeholders of the code become those of the pattern.
Fractions are not rendered, and one decimal stands in for them.
-/

namespace CellDisplay.NumberCode

def generalWord : Text := "General".toList

def generalPattern : Text := "0.##########".toList

/-- The number pattern that stands in for a fraction. -/
def fractionPattern : Text := "0.#".toList

/-- The indices with a number pattern of their own. -/
def fixedPatterns : List (Nat × String) :=
  [(0, "0.##########"), (3, "#,##0"), (4, "#,##0.00"), (5, "#,##0;-#,##0"),
    (6, "#,##0;-#,##0"), (7, "#,##0.00;-#,##0.00"), (8, "#,##0.00;-#,##0.00"), (12, "0.#"),
    (13, "0.#"), (37, "#,##0;-#,##0"), (38, "#,##0;-#,##0"), (39, "#,##0.00;-#,##0.00"),
    (40, "#,##0.00;-#,##0.00"), (41, "#,##0;-#,##0"), (42, "$#,##0;($#,##0)"),
    (43, "#,##0.00;-#,##0.00"), (44, "$#,##0.00;($#,##0.00)")]

def fixedPattern? (index : Nat) : Option Text := (fixedPatterns.lookup index).map String.toList

/-- A character of code in a number pattern. -/
def lowerChar (c : Char) : Text :=
  if c = '?' then ['#']
  else if c = '@' then []
  else NumberPattern.doubled [c]

def lowerPiece : FormatCode.Piece → Text
  | .code text => (Text.replace generalWord generalPattern text).flatMap lowerChar
  | .literal text => NumberPattern.quote text
  | .elapsed _ _ => []

/-- The number pattern of a format code. -/
def lower (code : Text) : Text :=
  let pieces := FormatCode.pieces code
  if pieces = [] then generalPattern
  else if '/' ∈ FormatCode.codeText pieces then fractionPattern
  else pieces.flatMap lowerPiece

/-- The number pattern of a format. -/
def patternOf (format : ResolvedFormat) : Except RenderError Text := do
  if let some pattern := fixedPattern? format.index then return pattern
  match ← Numerals.ofCode format.code with
  | some _ => return if Text.contains generalWord format.code then fractionPattern else ['0']
  | none => return lower format.code

end CellDisplay.NumberCode
