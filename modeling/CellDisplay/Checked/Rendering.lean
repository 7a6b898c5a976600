import CellDisplay.Checked.Digits
import CellDisplay.Checked.NumberPattern
import CellDisplay.Render

/-! # Rendering by checked operations

A cell is rendered by operations each of which either succeeds or gives no value at all: the
marker of a numeral is followed by byte offset, the glyphs of digits are read from a table, and
the apostrophes before a quoted run are counted by their bytes.
-/

namespace CellDisplay.Checked

open NumberCode NumberPattern

section Numerals

/-- The digits that a format code asks for, by the number behind the marker. -/
def numeralsOfCode (code : Text) : ExceptT RenderError Option (Option Numerals) := do
  match ← find Numerals.marker code with
  | none => return none
  | some start =>
    let stop ← (start + Numerals.marker.utf8Length : U64).value?
    match ← sliceFrom stop code with
    | '1' :: _ => return some .kanji
    | '2' :: _ => return some .formalKanji
    | '3' :: _ => return some .fullWidth
    | _ => throw (.unsupportedNumerals code)

def numeralsOf (format : ResolvedFormat) : ExceptT RenderError Option (Option Numerals) :=
  if (fixedPattern? format.index).isSome then return none else numeralsOfCode format.code

/-- The glyph of a decimal digit, at its place in the table. -/
def glyph (numerals : Numerals) (c : Char) : Option Char :=
  if c.isDigit then numerals.glyphs[c.toNat - '0'.toNat]? else some c

def withGlyphs (numerals : Option Numerals) (t : Text) : Option Text :=
  match numerals with
  | some numerals => t.mapM (glyph numerals)
  | none => some t

end Numerals

section Lowering

/-- Pattern text that shows a given text; each apostrophe at its start is written twice. -/
def quote (t : Text) : Option Text := do
  let rest := t.dropWhile (· = apostrophe)
  let leading ← (t.utf8Length - Text.utf8Length rest : U64).value?
  return List.replicate (2 * leading) apostrophe ++
    if rest = [] then [] else (Token.quoted rest).written

def lowerPiece : FormatCode.Piece → Option Text
  | .code text => (replace generalWord generalPattern text).map (·.flatMap lowerChar)
  | .literal text => quote text
  | .elapsed _ _ => some []

/-- The number pattern of a format code. -/
def lower (code : Text) : Option Text := do
  let pieces ← pieces code
  if pieces = [] then return generalPattern
  if '/' ∈ FormatCode.codeText pieces then return fractionPattern
  return (← pieces.mapM lowerPiece).flatten

/-- The number pattern of a format. -/
def patternOf (format : ResolvedFormat) : ExceptT RenderError Option Text := do
  if let some pattern := fixedPattern? format.index then return pattern
  match ← numeralsOfCode format.code with
  | some _ => return if ← contains generalWord format.code then fractionPattern else ['0']
  | none => lower format.code

end Lowering

def readPattern (pattern : Text) : ExceptT RenderError Option NumberPattern :=
  (parse pattern).adapt .pattern

def renderNumber (value : Binary64) (format : ResolvedFormat) (locale : Locale) :
    ExceptT RenderError Option Text := do
  let pattern ← readPattern (← patternOf format)
  let text ← apply pattern locale value
  return finish (← withGlyphs (← numeralsOf format) text)

/-- Renders a number, as a date if its format has a route for dates. -/
def renderNumeric (value : Binary64) (format : ResolvedFormat) (options : Options) :
    Option Text := do
  match ← route? format with
  | some route =>
    match ← renderDate value format route options with
    | .ok text => return text
    | .error _ => return plainNumber value
  | none =>
    match ← (renderNumber value format options.locale).run with
    | .ok text => return text
    | .error _ => return plainNumber value

/-- Renders a cell; there is no text if an operation fails. -/
def render (request : Request) : Option Text :=
  match request.cell with
  | .blank => some []
  | .boolean value => some (if value then "true" else "false").toList
  | .error t | .text t | .formula (.text t) => some t
  | .numeric value | .formula (.number value) =>
    renderNumeric value request.format request.options

end CellDisplay.Checked
