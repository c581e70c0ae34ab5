/-!
# Words

The integers of the machine are signed 64-bit words. Addition, subtraction and multiplication
wrap. Division rounds towards the floor, so that the remainder takes the sign of the divisor;
the hardware division of a word truncates instead, and `floorDiv` and `floorMod` correct it by
one step where the two roundings differ.
-/

namespace PoolMachine

/-- A signed 64-bit word. -/
abbrev Word := Int64

namespace Word

/-- The quotient rounded towards the floor, for a divisor other than zero. The truncated quotient
is one too large exactly where the division is inexact and the signs differ. -/
def floorDiv (l r : Word) : Word :=
  if l % r ≠ 0 ∧ (l % r < 0 ↔ 0 < r) then l / r - 1 else l / r

/-- The remainder that belongs to `floorDiv`: zero, or of the divisor's sign. -/
def floorMod (l r : Word) : Word :=
  if l % r ≠ 0 ∧ (l % r < 0 ↔ 0 < r) then l % r + r else l % r

/-- The sum, held at the nearer end of the range where the exact sum leaves it. -/
def addClamped (a b : Word) : Word :=
  if 0 ≤ b then
    if a + b < a then Int64.maxValue else a + b
  else
    if a < a + b then Int64.minValue else a + b

/-- Decimal text, with a minus sign in front of a negative word. -/
def text (n : Word) : String :=
  if n < 0 then "-" ++ n.toInt.natAbs.repr else n.toInt.natAbs.repr

end Word

end PoolMachine
