import CellDisplay.Error
import CellDisplay.Text.Search

/-! # East Asian numerals

A format code may ask for digits of another script by a numbered marker. Every digit of the
rendered number is then replaced by its glyph.
-/

namespace CellDisplay.NumberCode

/-- A set of ten digits. -/
inductive Numerals where
  | kanji
  | formalKanji
  | fullWidth
  deriving Repr, DecidableEq

namespace Numerals

def glyphs : Numerals → Text
  | kanji => "〇一二三四五六七八九".toList
  | formalKanji => "〇壱弐参四伍六七八九".toList
  | fullWidth => "０１２３４５６７８９".toList

/-- The glyph of a decimal digit; any other character stays. -/
def glyph (numerals : Numerals) (c : Char) : Char :=
  if c.isDigit then numerals.glyphs.getD (c.toNat - '0'.toNat) c else c

/-- The word of the marker, which a number follows. -/
def marker : Text := "DBNum".toList

/-- The digits that a format code asks for; other numbers behind the marker name none. -/
def ofCode (code : Text) : Except RenderError (Option Numerals) :=
  match Text.breakOn marker code with
  | none => .ok none
  | some (_, rest) =>
    match rest.drop marker.length with
    | '1' :: _ => .ok (some kanji)
    | '2' :: _ => .ok (some formalKanji)
    | '3' :: _ => .ok (some fullWidth)
    | _ => .error (.unsupportedNumerals code)

end Numerals

end CellDisplay.NumberCode
