import CellDisplay.Text.Basic

/-! # Blank characters

The characters that Unicode counts as white space, and trimming by them.
-/

namespace CellDisplay.Text

/-- The first and last code points of each run of white space. -/
def blankRanges : List (Nat × Nat) :=
  [(0x9, 0xD), (0x20, 0x20), (0x85, 0x85), (0xA0, 0xA0), (0x1680, 0x1680), (0x2000, 0x200A),
    (0x2028, 0x2029), (0x202F, 0x202F), (0x205F, 0x205F), (0x3000, 0x3000)]

def isBlank (c : Char) : Bool :=
  blankRanges.any fun (first, last) => first ≤ c.toNat && c.toNat ≤ last

def trim (t : Text) : Text := trimEnd isBlank (t.dropWhile isBlank)

end CellDisplay.Text
