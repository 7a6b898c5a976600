import CellDisplay.Decimal.Digits

/-! # Shortest decimal digits

The fewest digits that read back as the same number, and of those the nearest to it. A
decimal reads back when it lies in the interval that rounds to the number; the ends of the
interval belong to it when the significand of the number is even.
-/

namespace CellDisplay.Decimal

/-- The interval of magnitudes that round to a count of units, in quarters of a unit. -/
structure Interval where
  low : Nat
  high : Nat
  closed : Bool

namespace Interval

/-- The magnitudes that round to `units`; the gap below a power of two is half as wide. -/
def around (units : Nat) : Interval :=
  let gap := Binary64.spacing units
  let below := if gap ≠ 1 ∧ units = 2 ^ units.log2 then gap else 2 * gap
  ⟨4 * units - below, 4 * units + 2 * gap, units / gap % 2 == 0⟩

/-- The quotient `num / den` of quarters lies in the interval. -/
def contains (i : Interval) (num den : Nat) : Bool :=
  if i.closed then i.low * den ≤ num && num ≤ i.high * den
  else i.low * den < num && num < i.high * den

end Interval

/-- The decimal of `count` digits that reads back as the positive count of units, the nearest
one if its neighbour does too. -/
def readable? (units count : Nat) : Option Scientific :=
  let first := decade units Binary64.unitsPerOne
  let (up, down) := powTen (first - (count - 1))
  let num := units * down
  let den := Binary64.unitsPerOne * up
  let reads n := (Interval.around units).contains (4 * (n * den)) down
  let below := num / den
  let above := if num % den = 0 then below else below + 1
  match reads below, reads above with
  | false, false => none
  | true, false => some (.ofMultiples count first below)
  | false, true => some (.ofMultiples count first above)
  | true, true => some (.ofMultiples count first (roundHalfUp num den))

/-- The shortest decimal that reads back as a positive count of units. -/
def shortestOf (units : Nat) : Scientific :=
  ((List.range' 1 17).findSome? (readable? units)).getD
    (significantOf 17 units Binary64.unitsPerOne)

/-- The shortest digits of the magnitude of a number. -/
def shortest : Binary64 → Scientific
  | .nan => ⟨nanText, 0⟩
  | .infinite _ => ⟨infinityText, 0⟩
  | .finite _ units _ => if units = 0 then ⟨['0'], 0⟩ else shortestOf units

/-- Digits written with a point and without an exponent. -/
def Scientific.positional (s : Scientific) : Text :=
  match s.exponent with
  | .negSucc n => "0.".toList ++ List.replicate n '0' ++ s.digits
  | .ofNat n =>
    let whole := s.digits.take (n + 1)
    let fraction := s.digits.drop (n + 1)
    whole ++ List.replicate (n + 1 - whole.length) '0' ++
      (if fraction.isEmpty then [] else '.' :: fraction)

/-- A number by its shortest digits, as messages show it. -/
def display : Binary64 → Text
  | .nan => nanText
  | .infinite negative => (if negative then ['-'] else []) ++ infinityText
  | .finite negative units h =>
    (if negative then ['-'] else []) ++ (shortest (.finite negative units h)).positional

end CellDisplay.Decimal
