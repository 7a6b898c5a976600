import CellDisplay.Text.Basic

/-! # Sections of a format code

A format code has up to four sections, with semicolons between them. A semicolon in quotes,
in brackets or behind a backslash does not end a section.
-/

namespace CellDisplay.FormatCode

/-- What surrounds a place in a format code. -/
inductive Surround where
  | plain
  | quotes
  | brackets
  deriving Repr, DecidableEq

namespace Surround

/-- What surrounds the place behind a character. -/
def after : Surround → Char → Surround
  | plain, '"' => quotes
  | quotes, '"' => plain
  | quotes, _ => quotes
  | _, '[' => brackets
  | _, ']' => plain
  | surround, _ => surround

end Surround

/-- The characters up to the semicolon that ends the section. -/
def sectionFrom (surround : Surround) : Text → Text
  | [] => []
  | c :: rest =>
    if c = '\\' ∧ surround ≠ .quotes then
      match rest with
      | [] => [c]
      | d :: rest => c :: d :: sectionFrom surround rest
    else if c = ';' ∧ surround = .plain then []
    else c :: sectionFrom (surround.after c) rest

/-- The first section of a format code. -/
def firstSection (code : Text) : Text := sectionFrom .plain code

end CellDisplay.FormatCode
