import Tracemate.Lib.Json

/-!
# The names of metrics in JSON

`json_escape_str` of `tm_metric.c`, which prints the name of a metric as a JSON string.

* `jsonEscapeStr`: the function;
* `decodeString_jsonEscapeStr`: a JSON parser reads the name back.
-/

namespace Tracemate.Metric

open CStr JsonC

/-- `json_hex_chars`. -/
def jsonHexChars : Bytes := cstr "0123456789abcdef"

/-- What the loop of `json_escape_str` adds for one byte. -/
def jsonEscapeByte (c : UInt8) : Bytes :=
  if c = 8 then cstr "\\b"
  else if c = 10 then cstr "\\n"
  else if c = 13 then cstr "\\r"
  else if c = 9 then cstr "\\t"
  else if c = 34 then cstr "\\\""
  else if c = 92 then cstr "\\\\"
  else if c = 47 then cstr "\\/"
  else if c < 32 then
    cstr "\\u00" ++ [jsonHexChars.getD (c >>> 4).toNat 0, jsonHexChars.getD (c &&& 15).toNat 0]
  else [c]

/-- `json_escape_str`. -/
def jsonEscapeStr (str : Bytes) : Bytes := str.flatMap jsonEscapeByte

/-- Control bytes are printed in two hexadecimal digits. -/
theorem hexNumber_of_lt {c : UInt8} (hc : c < 32) :
    ∃ n, hexNumber 48 48 (jsonHexChars.getD (c >>> 4).toNat 0)
      (jsonHexChars.getD (c &&& 15).toNat 0) = some n ∧ utf8 n = [c] := by
  have hall : ∀ i : Fin 32, (hexNumber 48 48 (jsonHexChars.getD (UInt8.ofNat i >>> 4).toNat 0)
      (jsonHexChars.getD (UInt8.ofNat i &&& 15).toNat 0)).map utf8 = some [UInt8.ofNat i] := by
    decide
  have h := hall ⟨c.toNat, hc⟩
  rw [UInt8.ofNat_toNat] at h
  exact Option.map_eq_some_iff.1 h

/-- What is added for a byte is read as this byte. -/
theorem decodeString_jsonEscapeByte (c : UInt8) (s : Bytes) :
    decodeString (jsonEscapeByte c ++ s) = (decodeString s).map (c :: ·) := by
  by_cases hspecial : c = 8 ∨ c = 10 ∨ c = 13 ∨ c = 9 ∨ c = 34 ∨ c = 92 ∨ c = 47
  · rcases hspecial with rfl | rfl | rfl | rfl | rfl | rfl | rfl <;>
      exact decodeString_unescape (by decide) rfl s
  simp only [not_or] at hspecial
  obtain ⟨h8, h10, h13, h9, h34, h92, h47⟩ := hspecial
  unfold jsonEscapeByte
  simp only [h8, h10, h13, h9, h34, h92, h47, if_false]
  by_cases hc : c < 32
  · obtain ⟨n, hn, hutf⟩ := hexNumber_of_lt hc
    rw [if_pos hc]
    have h := decodeString_hexNumber hn s
    rw [hutf] at h
    exact h
  · rw [if_neg hc]
    exact decodeString_plain h92 h34 hc s

/-- The name of a metric survives its way through JSON. -/
theorem decodeString_jsonEscapeStr (str : Bytes) : decodeString (jsonEscapeStr str) = some str := by
  induction str with
  | nil => rfl
  | cons c str ih =>
    have hcons : jsonEscapeStr (c :: str) = jsonEscapeByte c ++ jsonEscapeStr str := rfl
    rw [hcons, decodeString_jsonEscapeByte, ih]
    rfl

example : jsonEscapeStr (cstr "GET /v1 \"x\"") = cstr "GET \\/v1 \\\"x\\\"" := by decide

end Tracemate.Metric
