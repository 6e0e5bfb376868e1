/-!
# Floored division

Division of 64-bit words that rounds toward negative infinity, so that a remainder has the sign of
the divisor. The least word divided by -1 wraps around.
-/

set_option autoImplicit false

namespace ForthMachine

/-- Quotient and remainder, for a divisor other than zero. The division of words rounds toward
zero; where the remainder is then on the wrong side of zero, both are moved by one step. -/
def floorDivMod (a b : Int64) : Int64 × Int64 :=
  let q := a / b
  let r := a % b
  if r ≠ 0 ∧ (decide (r < 0) ≠ decide (b < 0)) then (q - 1, r + b) else (q, r)

example : floorDivMod (-7) 2 = (-4, 1) ∧ floorDivMod 7 (-2) = (-4, -1) := by decide

example : floorDivMod Int64.minValue (-1) = (Int64.minValue, 0) := by decide

end ForthMachine
