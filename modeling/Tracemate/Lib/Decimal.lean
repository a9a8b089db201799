import Mathlib.Data.Int.Log
import Mathlib.Tactic
import Tracemate.Lib.CStr

/-!
# Decimal numbers

Numbers as C reads and prints them.

* `strtoull`: the number at the start of a string, and `strtoull_lt`, that it has 64 bits;
* `roundSig d q`: `q` rounded to `d` significant decimal digits, ties to even, as `printf` does
  with `%.dg`.
-/

namespace Decimal

open CStr

/-! ### Reading -/

def isDigit (c : UInt8) : Bool := 48 ≤ c && c ≤ 57

/-- The number of a sequence of digits. -/
def digitsValue (ds : Bytes) : ℕ := ds.foldl (fun n d => 10 * n + (d - 48).toNat) 0

def isspace (c : UInt8) : Bool := c = 32 || (9 ≤ c && c ≤ 13)

/-- An optional sign: whether it is a minus, and what follows. -/
def readSign : Bytes → Bool × Bytes
  | 45 :: s => (true, s)
  | 43 :: s => (false, s)
  | s => (false, s)

/-- `strtoull(s, NULL, 10)`. -/
def strtoull (s : Bytes) : ℕ :=
  let (negative, s) := readSign (s.dropWhile isspace)
  let value := digitsValue (s.takeWhile isDigit)
  -- `ULLONG_MAX`, with `ERANGE`
  if 2 ^ 64 ≤ value then 2 ^ 64 - 1
  else if negative then (2 ^ 64 - value) % 2 ^ 64
  else value

theorem strtoull_lt (s : Bytes) : strtoull s < 2 ^ 64 := by
  unfold strtoull
  dsimp only
  split_ifs with hbig
  · omega
  · exact Nat.mod_lt _ (by omega)
  · omega

/-! ### Rounding -/

/-- The nearest integer, the even one of two. -/
def roundHalfEven (q : ℚ) : ℤ :=
  let n := ⌊q⌋
  if q - n < 1 / 2 then n
  else if 1 / 2 < q - n then n + 1
  else if n % 2 = 0 then n else n + 1

/-- The number with `d` significant digits that is nearest to `q`. -/
def roundSig (d : ℕ) (q : ℚ) : ℚ :=
  let unit : ℚ := 10 ^ (Int.log 10 |q| + 1 - d)
  roundHalfEven (q / unit) * unit

end Decimal
