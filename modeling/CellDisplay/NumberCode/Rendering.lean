import CellDisplay.NumberCode.Lowering
import CellDisplay.NumberPattern.Apply
import CellDisplay.NumberPattern.Parser

/-! # Rendering numbers by format codes

A number takes the pattern of its format, then the digits that the code asks for, and last
loses spaces at its end and shows its yen signs as backslashes.
-/

namespace CellDisplay.NumberCode

/-- The last pass over the text of a number. -/
def finish (t : Text) : Text :=
  (Text.trimEnd (· = ' ') t).map fun c => if c ∈ ['¥', '￥'] then '\\' else c

/-- The digits that a format asks for; an index with its own pattern asks for none. -/
def numeralsOf (format : ResolvedFormat) : Except RenderError (Option Numerals) :=
  if (fixedPattern? format.index).isSome then .ok none else Numerals.ofCode format.code

def readPattern (pattern : Text) : Except RenderError NumberPattern :=
  (NumberPattern.parse pattern).mapError .pattern

def render (value : Binary64) (format : ResolvedFormat) (locale : Locale) :
    Except RenderError Text := do
  let pattern ← readPattern (← patternOf format)
  let text := pattern.apply locale value
  match ← numeralsOf format with
  | some numerals => return finish (text.map numerals.glyph)
  | none => return finish text

end CellDisplay.NumberCode
