import CellDisplay.Calendar.Date
import CellDisplay.Text.Basic

/-! # Japanese imperial eras

An era reaches from its first day to the day before the next era; its years are counted from
one and change with the calendar year. Dates before the first listed era have none.
-/

namespace CellDisplay

/-- An imperial era: its name, the glyph and the Latin letter that stand for it, and its
first day. -/
structure Era where
  name : Text
  glyph : Text
  initial : Text
  start : Date
  deriving Repr, DecidableEq

namespace Era

/-- The eras in the order of their first days. -/
def all : List Era :=
  [⟨"明治".toList, "明".toList, "M".toList, ⟨1868, 9, 8⟩⟩,
    ⟨"大正".toList, "大".toList, "T".toList, ⟨1912, 7, 30⟩⟩,
    ⟨"昭和".toList, "昭".toList, "S".toList, ⟨1926, 12, 25⟩⟩,
    ⟨"平成".toList, "平".toList, "H".toList, ⟨1989, 1, 8⟩⟩,
    ⟨"令和".toList, "令".toList, "R".toList, ⟨2019, 5, 1⟩⟩]

def yearOf (era : Era) (date : Date) : Int := date.year - era.start.year + 1

def of? (date : Date) : Option Era := all.reverse.find? (·.start ≤ date)

end Era

end CellDisplay
