import Tracemate.Lib.Outcome
import Tracemate.Team

/-!
# URL paths

The functions of `tm_utils.c` that check the path of a request and replace its variable parts.
The buffer `copy` is the list of its bytes from the first on; the bytes that no function has
written are left out.

* `isPathOk`: `is_path_ok`;
* `Reach`: how much of the buffer is read without a fault, all of it or what its length covers;
* `applyRegex`: `apply_regex`, over `replaceFirst`, one round of its loop;
* `applyPathSquasher`, `genericizePath`: `apply_path_squasher` and `genericize_path`.
-/

namespace Tracemate

open CStr COutcome Pattern Squasher

/-- The C string in a buffer. -/
def strAt (buf : Bytes) : Bytes := buf.takeWhile (· ≠ 0)

section Check

-- `curl_easy_unescape`
variable (curlEasyUnescape : Bytes → Option Bytes)

/-- What a path must not contain. -/
def forbidden : List Bytes :=
  ["..", "//", ".git", ".ssh", ".svn", ".vscode", ".htaccess", "etc", "php", "<script>"].map cstr

/-- `is_path_ok`. -/
def isPathOk (str : Option Bytes) : Bool :=
  match str with
  | none => true
  | some str =>
    match curlEasyUnescape str with
    | none => false
    | some decoded => forbidden.all fun needle => (strstr needle (strAt decoded)).isNone

end Check

/-- The size of the buffers `temp` and `copy`. -/
def pathSize : ℕ := 4096

/-- How far the buffer `copy` may be read.  The code reads bytes behind the string in it, which
are there and are cut off again, but lie beyond its current length. -/
inductive Reach
  /-- All of its bytes. -/
  | buffer
  /-- Up to the current length, the terminator included. -/
  | length
  deriving DecidableEq

/-- `memcpy` of `n` bytes of `copy`, from the byte `b` on, while its current length is `len`. -/
def memcpyFrom (reach : Reach) (copy : Bytes) (len b n : ℕ) : Outcome Bytes :=
  if reach = .length ∧ len + 1 < b + n then .error .outOfBounds
  else .ok ((copy.drop b).take n)

/-- The branch of `apply_regex` for a match whose first capture goes from `a` to `b`: the buffer
`copy` after it.  More than the rest behind the capture is copied, and cut off again at the
terminator. -/
def replaceFirstIn (reach : Reach) (replace copy : Bytes) (len a b : ℕ) : Outcome Bytes :=
  let copyLen := len - (b - a)
  if ¬ a < pathSize then .error .crash
  else if ¬ replace.length < pathSize - a then .error .crash
  else if ¬ copyLen < pathSize - a - replace.length then .error .crash
  else do
    let rest ← memcpyFrom reach copy len b copyLen
    let temp := copy.take a ++ replace ++ rest
    .ok (strAt temp ++ 0 :: copy.drop ((strAt temp).length + 1))

/-- `apply_regex`: the buffer and `len` after it, and whether the result is positive. -/
def applyRegexIn (reach : Reach) (m : PcreMatcher) (attempts : ℕ) (copy : Bytes) (len : ℕ) :
    Outcome (Bytes × ℕ × Bool) :=
  match m.exec (copy.take len) with
  | none => .ok (copy, len, false)
  -- the offsets of a group that takes no part are `-1`, or were never written
  | some none => .error .outOfBounds
  | some (some (a, b)) => do
    let copy ← replaceFirstIn reach m.replace copy len a b
    let len := (strAt copy).length
    match attempts with
    | n + 2 => do
      -- run it again and check for more
      let (copy, len, _) ← applyRegexIn reach m (n + 1) copy len
      .ok (copy, len, true)
    | _ => .ok (copy, len, true)

/-- The loop of `apply_path_squasher` over the regular expressions of the service. -/
def applySquashersIn (reach : Reach) (copy : Bytes) (len : ℕ) :
    List PcreMatcher → Outcome (Bytes × ℕ × Bool)
  | [] => .ok (copy, len, false)
  | m :: ms => do
    let (copy, len, matched) ← applyRegexIn reach m 1 copy len
    if matched then .ok (copy, len, true) else applySquashersIn reach copy len ms

/-- `apply_path_squasher`. -/
def applyPathSquasherIn (reach : Reach) (serviceName : Bytes) (td : TeamData) (copy : Bytes)
    (len : ℕ) : Outcome (Bytes × ℕ × Bool) :=
  match td.urls.squashRegexes.lookup serviceName with
  | none => .ok (copy, len, false)
  | some t => applySquashersIn reach copy len (t.entries.map fun e => e.2)

/-- The loop of `genericize_path` over the configured rewrites. -/
def applyMatchersIn (reach : Reach) (copy : Bytes) (len : ℕ) :
    List PcreMatcher → Outcome (Bytes × ℕ × Bool)
  | [] => .ok (copy, len, false)
  | m :: ms => do
    let (copy, len, matched) ← applyRegexIn reach m 3 copy len
    let (copy, len, others) ← applyMatchersIn reach copy len ms
    .ok (copy, len, matched || others)

/-- The end of `genericize_path`: the query and a trailing slash are cut off. -/
def dropQuery (copy : Bytes) (len : ℕ) : Outcome Bytes :=
  let s := strAt copy
  let (copy, len) :=
    if (63 : UInt8) ∈ s then
      let path := s.takeWhile (· ≠ 63)
      (path ++ 0 :: copy.drop (path.length + 1), path.length)
    else (copy, len)
  -- `copy[len - 1]`
  if len = 0 then .error .outOfBounds
  else if copy[len - 1]? = some 47 then .ok (strAt (copy.take (len - 1)))
  else .ok (strAt copy)

section Genericize

variable (reach : Reach) (curlEasyUnescape : Bytes → Option Bytes)
-- the static variable `chopper`
variable (chopper : Option PcreMatcher)

/-- The last resort of `genericize_path`, for a path that nothing has matched. -/
def chopIn (copy : Bytes) (len : ℕ) : Outcome (Bytes × ℕ) :=
  match chopper with
  | none => .ok (copy, len)
  | some m => do
    let (copy, len, matched) ← applyRegexIn reach m 1 copy len
    if matched = false ∧ len > 35 then
      .ok (copy.take 32 ++ cstr "..." ++ 0 :: copy.drop 36, 35)
    else .ok (copy, len)

/-- `genericize_path`: the path, and the URL that is sent to Kafka, if one is. -/
def genericizePathIn (serviceName : Bytes) (str : Option Bytes) (td : TeamData) :
    Outcome (Bytes × Option Bytes) :=
  match str with
  | none => .ok (cstr "/", none)
  | some str => do
    -- for a null pointer the length is `0`
    let decoded := (curlEasyUnescape str).getD []
    let len := decoded.length
    if pathSize ≤ len then .error .outOfBounds
    else
      -- `strncpy` fills what is behind a zero byte with zeros
      let copy := strAt decoded ++ List.replicate (len + 1 - (strAt decoded).length) 0
      let (copy, len, matched) ← applyMatchersIn reach copy len td.matcher
      if matched then
        let path ← dropQuery copy len
        .ok (path, none)
      else
        let (copy, len, squashed) ← applyPathSquasherIn reach serviceName td copy len
        if squashed then
          let path ← dropQuery copy len
          .ok (path, none)
        else
          let (copy, len) ← chopIn reach chopper copy len
          let path ← dropQuery copy len
          .ok (path, if str = [] then none else some str)

end Genericize

/-! The functions as they run: all of the buffer is in reach. -/

/-- The branch of `apply_regex` for a match. -/
def replaceFirst : Bytes → Bytes → ℕ → ℕ → ℕ → Outcome Bytes := replaceFirstIn .buffer

/-- `apply_regex`. -/
def applyRegex : PcreMatcher → ℕ → Bytes → ℕ → Outcome (Bytes × ℕ × Bool) := applyRegexIn .buffer

/-- `apply_path_squasher`. -/
def applyPathSquasher : Bytes → TeamData → Bytes → ℕ → Outcome (Bytes × ℕ × Bool) :=
  applyPathSquasherIn .buffer

/-- `genericize_path`. -/
def genericizePath :
    (Bytes → Option Bytes) → Option PcreMatcher → Bytes → Option Bytes → TeamData →
      Outcome (Bytes × Option Bytes) :=
  genericizePathIn .buffer

example : (genericizePath some none (cstr "a-b") (some (cstr "/v1/games/?x=1")) .new) =
    .ok (cstr "/v1/games", some (cstr "/v1/games/?x=1")) := by decide

end Tracemate
