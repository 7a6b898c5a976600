/-! # Rounding quotients

A quotient of natural numbers is rounded to the nearest natural number; the two functions
differ on quotients that lie half-way between two neighbours.
-/

-- Powers of natural numbers stay those of the core library where more algebra is in scope.
attribute [default_instance (high + 1), instance (high)] instPowNat

namespace CellDisplay.Decimal

/-- The natural number nearest to `num / den`; a half goes to the even neighbour. -/
def roundHalfEven (num den : Nat) : Nat :=
  if 2 * (num % den) < den then num / den
  else if den < 2 * (num % den) then num / den + 1
  else num / den + num / den % 2

/-- The natural number nearest to `num / den`; a half goes up. -/
def roundHalfUp (num den : Nat) : Nat := (2 * num + den) / (2 * den)

theorem div_le_roundHalfEven (num den : Nat) : num / den ≤ roundHalfEven num den := by
  unfold roundHalfEven
  split
  · omega
  · split <;> omega

theorem roundHalfEven_le (num den : Nat) : roundHalfEven num den ≤ num / den + 1 := by
  unfold roundHalfEven
  split
  · omega
  · split <;> omega

end CellDisplay.Decimal
