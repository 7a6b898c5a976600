import CellDisplay.Format.Builtin

/-! # Resolved formats

A cell carries a format index and a format code. Four indices are other names of an index
that renders alike, and an empty code stands for the built-in code of the index.
-/

namespace CellDisplay

/-- The format that a cell carries. -/
structure FormatSpec where
  index : Nat
  code : Text
  deriving Repr, DecidableEq

/-- A format whose index is canonical and whose code is filled in. The index that the cell
carries stays with it, since either index can make it a date format. -/
structure ResolvedFormat where
  givenIndex : Nat
  index : Nat
  code : Text
  deriving Repr, DecidableEq

namespace FormatSpec

/-- The indices that render as another index, with that index. -/
def indexAliases : List (Nat × Nat) := [(55, 34), (56, 35), (57, 36), (58, 28)]

/-- The index as which an index renders. -/
def canonicalIndex (index : Nat) : Nat := (indexAliases.lookup index).getD index

/-- Resolves a format for the dialect of a locale; an index without a built-in code leaves an
empty code empty. -/
def resolve (spec : FormatSpec) (locale : Locale) : ResolvedFormat where
  givenIndex := spec.index
  index := canonicalIndex spec.index
  code :=
    if spec.code = [] then
      (FormatCode.builtin? (canonicalIndex spec.index) locale.dialect).getD []
    else spec.code

end FormatSpec

end CellDisplay
