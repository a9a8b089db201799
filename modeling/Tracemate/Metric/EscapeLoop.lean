import Tracemate.Lib.Outcome
import Tracemate.Metric.Escape

/-!
# The loop that escapes a string

`json_escape_str` with its two cursors: the byte that is read, and the start of the run of bytes
that are added as they are.

* `jsonEscapeFrom`: the loop; `jsonEscapeFrom_eq`: its invariant;
* `escape_lossless`: what it adds is the body of a JSON string, and stands for the string.
-/

namespace Tracemate.Metric

open CStr COutcome JsonC

/-- The bytes with an escape of two characters. -/
def shortEscape (c : UInt8) : Option Bytes :=
  if c = 8 then some (cstr "\\b")
  else if c = 10 then some (cstr "\\n")
  else if c = 13 then some (cstr "\\r")
  else if c = 9 then some (cstr "\\t")
  else if c = 34 then some (cstr "\\\"")
  else if c = 92 then some (cstr "\\\\")
  else if c = 47 then some (cstr "\\/")
  else none

/-- The run from `startOffset` to `pos`, if there is one, is added to the buffer. -/
def addRun (str : Bytes) (pos startOffset : ℕ) (pb : Bytes) : Bytes :=
  if pos - startOffset > 0 then pb ++ (str.drop startOffset).take (pos - startOffset) else pb

/-- The loop of `json_escape_str` over the memory at `str`. -/
def jsonEscapeFrom (str : Bytes) (pos startOffset : ℕ) (pb : Bytes) : Outcome Bytes :=
  match h : str[pos]? with
  | none => .error .outOfBounds
  | some c =>
    have : pos < str.length := (List.getElem?_eq_some_iff.1 h).1
    if c = 0 then .ok (addRun str pos startOffset pb)
    else
      match shortEscape c with
      | some e => jsonEscapeFrom str (pos + 1) (pos + 1) (addRun str pos startOffset pb ++ e)
      | none =>
        if c < 32 then
          jsonEscapeFrom str (pos + 1) (pos + 1) (addRun str pos startOffset pb ++
            (cstr "\\u00" ++
              [jsonHexChars.getD (c >>> 4).toNat 0, jsonHexChars.getD (c &&& 15).toNat 0]))
        else jsonEscapeFrom str (pos + 1) startOffset pb
termination_by str.length - pos

theorem addRun_eq (before run after pb : Bytes) :
    addRun (before ++ run ++ after) (before.length + run.length) before.length pb = pb ++ run := by
  unfold addRun
  rw [Nat.add_sub_cancel_left, List.append_assoc, List.drop_left, List.take_left]
  split_ifs with h
  · rfl
  · have hrun : run = [] := List.length_eq_zero_iff.1 (by omega)
    rw [hrun, List.append_nil]

/-- What a byte adds, by the three classes of the loop. -/
theorem jsonEscapeByte_eq (c : UInt8) :
    jsonEscapeByte c = (shortEscape c).getD (if c < 32 then
      cstr "\\u00" ++ [jsonHexChars.getD (c >>> 4).toNat 0, jsonHexChars.getD (c &&& 15).toNat 0]
      else [c]) := by
  unfold jsonEscapeByte shortEscape
  split_ifs <;> rfl

section Rounds

variable {str : Bytes} {pos : ℕ} {c : UInt8}

theorem jsonEscapeFrom_zero (h : str[pos]? = some 0) (startOffset : ℕ) (pb : Bytes) :
    jsonEscapeFrom str pos startOffset pb = .ok (addRun str pos startOffset pb) := by
  rw [jsonEscapeFrom]
  split
  · simp_all
  · simp_all

/-- A byte that stands for itself stays in the run. -/
theorem jsonEscapeFrom_plain (h : str[pos]? = some c) (h0 : c ≠ 0) (hshort : shortEscape c = none)
    (hc : ¬ c < 32) (startOffset : ℕ) (pb : Bytes) :
    jsonEscapeFrom str pos startOffset pb = jsonEscapeFrom str (pos + 1) startOffset pb := by
  rw [jsonEscapeFrom]
  split
  · simp_all
  · simp_all

/-- Before a byte that is escaped the run is added. -/
theorem jsonEscapeFrom_escape (h : str[pos]? = some c) (h0 : c ≠ 0)
    (hc : shortEscape c ≠ none ∨ c < 32) (startOffset : ℕ) (pb : Bytes) :
    jsonEscapeFrom str pos startOffset pb =
      jsonEscapeFrom str (pos + 1) (pos + 1) (addRun str pos startOffset pb ++ jsonEscapeByte c) := by
  rw [jsonEscapeFrom, jsonEscapeByte_eq]
  split
  · simp_all
  · cases hshort : shortEscape c <;> simp_all

end Rounds

/-- The invariant of the loop: what is before `pos` has been added, but for the run. -/
theorem jsonEscapeFrom_eq (before run todo rest pb : Bytes) (h : (0 : UInt8) ∉ todo) :
    jsonEscapeFrom (before ++ run ++ (todo ++ 0 :: rest)) (before.length + run.length)
      before.length pb = .ok (pb ++ run ++ jsonEscapeStr todo) := by
  induction todo generalizing before run pb with
  | nil =>
    have hread : (before ++ run ++ ([] ++ 0 :: rest))[before.length + run.length]? = some 0 := by
      simp
    rw [jsonEscapeFrom_zero hread, addRun_eq]
    simp [jsonEscapeStr]
  | cons c todo ih =>
    obtain ⟨h0, htodo⟩ : c ≠ 0 ∧ (0 : UInt8) ∉ todo := by
      rw [List.mem_cons, not_or] at h
      exact ⟨Ne.symm h.1, h.2⟩
    have hread : (before ++ run ++ (c :: todo ++ 0 :: rest))[before.length + run.length]? =
        some c := by
      simp
    have hcons : jsonEscapeStr (c :: todo) = jsonEscapeByte c ++ jsonEscapeStr todo := rfl
    by_cases hc : shortEscape c ≠ none ∨ c < 32
    · -- the run is empty from the next byte on
      rw [jsonEscapeFrom_escape hread h0 hc, addRun_eq]
      have := ih (before ++ run ++ [c]) [] (pb ++ run ++ jsonEscapeByte c) htodo
      simp only [List.append_assoc, List.length_append, List.length_cons, List.length_nil,
        Nat.add_assoc, Nat.add_zero, List.nil_append, List.cons_append] at this ⊢
      rw [this, hcons]
    · obtain ⟨hshort, hc⟩ := not_or.1 hc
      rw [not_not] at hshort
      have hbyte : jsonEscapeByte c = [c] := by
        rw [jsonEscapeByte_eq, hshort, Option.getD_none, if_neg hc]
      rw [jsonEscapeFrom_plain hread h0 hshort hc, hcons, hbyte]
      have := ih before (run ++ [c]) pb htodo
      simp only [List.append_assoc, List.length_append, List.length_cons, List.length_nil,
        Nat.add_assoc, List.nil_append, List.cons_append] at this ⊢
      exact this

/-- From the first byte on, the loop adds what the bytes add one by one. -/
theorem jsonEscapeFrom_start (s rest pb : Bytes) (hs : (0 : UInt8) ∉ s) :
    jsonEscapeFrom (s ++ 0 :: rest) 0 0 pb = .ok (pb ++ jsonEscapeStr s) := by
  simpa using jsonEscapeFrom_eq [] [] s rest pb hs

/-- **Escaping.**  For a string with its terminator, `json_escape_str` adds the body of a JSON
string to the buffer, and this body stands for the string. -/
theorem escape_lossless (s rest pb : Bytes) (hs : (0 : UInt8) ∉ s) :
    ∃ body, jsonEscapeFrom (s ++ 0 :: rest) 0 0 pb = .ok (pb ++ body) ∧ StringBody body ∧
      decodeString body = some s := by
  have hdecode := decodeString_jsonEscapeStr s
  exact ⟨_, jsonEscapeFrom_start s rest pb hs, stringBody_of_decodeString hdecode, hdecode⟩

/-- A control byte and a slash, in a buffer that is not empty. -/
theorem escape_tab_slash :
    ∃ body, jsonEscapeFrom (cstr "a\x01/\tb" ++ 0 :: cstr "stale") 0 0 (cstr "\"") =
        .ok (cstr "\"" ++ body) ∧ StringBody body ∧ decodeString body = some (cstr "a\x01/\tb") :=
  escape_lossless (cstr "a\x01/\tb") (cstr "stale") (cstr "\"") (by decide)

end Tracemate.Metric
