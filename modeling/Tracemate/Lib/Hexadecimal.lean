import Mathlib.Data.List.TakeWhile
import Tracemate.Lib.Decimal
import Tracemate.Lib.Json

/-!
# Hexadecimal numbers

* `hexDigitsValue`: the number of a sequence of hexadecimal digits;
* `strtoullHex`: the number at the start of a string, as C reads it with the base 16;
  `strtoullHex_digits`: what it makes of digits after the usual `0x`.
-/

namespace Hexadecimal

open CStr Decimal JsonC

def isHexDigit (c : UInt8) : Bool := (hexValue c).isSome

/-- The number of a sequence of hexadecimal digits. -/
def hexDigitsValue (ds : Bytes) : ℕ := ds.foldl (fun n d => 16 * n + (hexValue d).getD 0) 0

/-- `0x`, where a digit follows. -/
def skipHexPrefix : Bytes → Bytes
  | 48 :: x :: d :: s => if (x = 120 ∨ x = 88) ∧ isHexDigit d then d :: s else 48 :: x :: d :: s
  | s => s

/-- `strtoull(s, &end, 16)`. -/
def strtoullHex (s : Bytes) : ℕ :=
  let (negative, s) := readSign (s.dropWhile isspace)
  let value := hexDigitsValue ((skipHexPrefix s).takeWhile isHexDigit)
  -- `ULLONG_MAX`, with `ERANGE`
  if 2 ^ 64 ≤ value then 2 ^ 64 - 1
  else if negative then (2 ^ 64 - value) % 2 ^ 64
  else value

theorem hexValue_lt (c : UInt8) : (hexValue c).getD 0 < 16 := by
  -- every range of digits has at most sixteen values
  have hsub {a lo hi : UInt8} (h : lo ≤ c ∧ c ≤ hi) (ha : a ≤ lo) (hhi : hi.toNat - a.toNat < 16) :
      (c - a).toNat < 16 := by
    have hc := UInt8.le_iff_toNat_le.1 h.2
    rw [UInt8.toNat_sub_of_le c a (UInt8.le_trans ha h.1)]
    omega
  unfold hexValue
  split_ifs with h h h
  · exact hsub h (by decide) (by decide)
  · exact hsub h (by decide) (by decide)
  · exact hsub h (by decide) (by decide)
  · exact Nat.zero_lt_succ 15

@[simp] theorem hexDigitsValue_nil : hexDigitsValue [] = 0 := rfl

theorem hexDigitsValue_append_singleton (ds : Bytes) (d : UInt8) :
    hexDigitsValue (ds ++ [d]) = 16 * hexDigitsValue ds + (hexValue d).getD 0 := by
  rw [hexDigitsValue, List.foldl_append]
  rfl

/-- The number of the digits in two parts. -/
theorem hexDigitsValue_append (as ds : Bytes) :
    hexDigitsValue (as ++ ds) = hexDigitsValue as * 16 ^ ds.length + hexDigitsValue ds := by
  induction ds using List.reverseRecOn with
  | nil => simp
  | append_singleton ds d ih =>
    rw [← List.append_assoc, hexDigitsValue_append_singleton, ih, hexDigitsValue_append_singleton,
      List.length_append, List.length_singleton, pow_succ]
    ring

theorem hexDigitsValue_lt (ds : Bytes) : hexDigitsValue ds < 16 ^ ds.length := by
  induction ds using List.reverseRecOn with
  | nil => simp
  | append_singleton ds d ih =>
    have hd := hexValue_lt d
    rw [hexDigitsValue_append_singleton, List.length_append, List.length_singleton, pow_succ]
    omega

/-- Digits after `0x` are read up to the largest number of 64 bits. -/
theorem strtoullHex_digits {ds : Bytes} (h : ∀ d ∈ ds, isHexDigit d = true) :
    strtoullHex (cstr "0x" ++ ds) = min (hexDigitsValue ds) (2 ^ 64 - 1) := by
  have hread : readSign ((cstr "0x" ++ ds).dropWhile isspace) = (false, 48 :: 120 :: ds) := rfl
  have hdigits : hexDigitsValue ((skipHexPrefix (48 :: 120 :: ds)).takeWhile isHexDigit) =
      hexDigitsValue ds := by
    cases ds with
    | nil => rfl
    | cons d ds =>
      have hd := h d List.mem_cons_self
      rw [skipHexPrefix, if_pos ⟨.inl rfl, hd⟩, List.takeWhile_eq_self_iff.2 h]
  unfold strtoullHex
  rw [hread]
  simp only [hdigits, Bool.false_eq_true, if_false]
  split_ifs with hbig
  · omega
  · omega

/-- Up to sixteen digits are read as their number. -/
theorem strtoullHex_of_length_le {ds : Bytes} (h : ∀ d ∈ ds, isHexDigit d = true)
    (hlen : ds.length ≤ 16) : strtoullHex (cstr "0x" ++ ds) = hexDigitsValue ds := by
  have hlt : hexDigitsValue ds < 16 ^ 16 :=
    (hexDigitsValue_lt ds).trans_le (Nat.pow_le_pow_right (by omega) hlen)
  rw [strtoullHex_digits h]
  omega

end Hexadecimal
