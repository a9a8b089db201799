import Mathlib.Data.Int.Log
import Mathlib.Tactic
import Tracemate.Lib.Decimal

/-!
# Numbers of type `double`

The finite doubles as the rational numbers they stand for; the two zeros are one number.

* `Double.round`: the nearest double, ties to even, whatever its exponent;
* `Double.add`: the sum of two doubles, if it is finite;
* `add_eq_some_iff`: the sum is the exact one unless it is rounded.
-/

namespace Double

/-- The distance of the doubles around `q`: they have 53 binary digits, down to `2 ^ (-1074)`. -/
def ulp (q : ℚ) : ℚ := 2 ^ max (Int.log 2 |q| - 52) (-1074)

/-- The double that is nearest to `q`, the even one of two. -/
def round (q : ℚ) : ℚ := Decimal.roundHalfEven (q / ulp q) * ulp q

/-- The sum of two doubles; `none` is an infinite one. -/
def add (x y : ℚ) : Option ℚ :=
  if |round (x + y)| < 2 ^ 1024 then some (round (x + y)) else none

theorem add_eq_some_iff {x y z : ℚ} :
    add x y = some z ↔ |round (x + y)| < 2 ^ 1024 ∧ round (x + y) = z := by
  unfold add
  split_ifs with h
  · simp [h]
  · simp [h]

/-- From `2 ^ 53` on the odd numbers are no doubles. -/
example : add (2 ^ 53) 1 = some (2 ^ 53) := by decide +kernel

end Double
