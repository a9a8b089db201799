import Tracemate.Lib.Decimal

/-!
# The time of a document

`parse_timestamp` of `tm_utils.h`: `sscanf` reads seven numbers, and `mktime` makes a time of six of
them.

* `Tm`, `TimeStack`: what `mktime` reads, and what the variables hold before they are written;
* `scanNumber`, `scanNumbers`: the format, a number and one byte in turn;
* `parseTimestamp`: the function;
* `parseTimestamp_congr`: two calls that find all numbers differ by `tm_isdst` only;
* `utcTime`: `mktime` where no time is daylight saving time.
-/

namespace Tracemate.Process

open CStr Decimal

/-- A `struct tm`, as far as `mktime` reads it. -/
structure Tm where
  year : Int32
  mon : Int32
  mday : Int32
  hour : Int32
  min : Int32
  sec : Int32
  isdst : Int32
  deriving DecidableEq

/-- What the variables of `parse_timestamp` hold before `sscanf` writes them, and `time.tm_isdst`,
which is not written. -/
structure TimeStack where
  y : Int32
  M : Int32
  d : Int32
  h : Int32
  m : Int32
  s : Int32
  ms : Int32
  isdst : Int32
  deriving DecidableEq

/-- `%d`: the number, and what follows it. -/
def scanNumber (s : Bytes) : Option (Int32 × Bytes) :=
  let (negative, s) := readSign (s.dropWhile isspace)
  let digits := s.takeWhile isDigit
  if digits = [] then none
  else
    let value : ℤ := digitsValue digits
    -- read as a `long`, kept as an `int`
    let long := if negative then max (-value) (-2 ^ 63) else min value (2 ^ 63 - 1)
    some (Int32.ofInt long, s.drop digits.length)

/-- The numbers that are read, each but for the last with its byte after it, up to the first that
does not match. -/
def scanNumbers : Bytes → Bytes → List Int32
  | [], _ => []
  | sep :: seps, s =>
    match scanNumber s with
    | none => []
    | some (n, []) => [n]
    | some (n, c :: s) => n :: if c = sep then scanNumbers seps s else []

/-- The numbers of `"%d-%d-%dT%d:%d:%d.%dZ"`. -/
def timestampNumbers (ts : Bytes) : List Int32 := scanNumbers (cstr "--T::.Z") ts

/-- `parse_timestamp`. -/
def parseTimestamp (mktime : Tm → ℤ) (stack : TimeStack) (ts : Bytes) : ℕ :=
  let number (i : ℕ) (before : Int32) : Int32 := (timestampNumbers ts)[i]?.getD before
  let time : Tm :=
    { year := number 0 stack.y - 1900
      mon := number 1 stack.M - 1
      mday := number 2 stack.d
      hour := number 3 stack.h
      min := number 4 stack.m
      sec := number 5 stack.s
      isdst := stack.isdst }
  ((mktime time * 1000 + (number 6 stack.ms).toInt) % 2 ^ 64).toNat

/-- Where all numbers are found and daylight saving makes no difference, neither does what the
variables hold before. -/
theorem parseTimestamp_congr {mktime : Tm → ℤ} {ts : Bytes}
    (hnumbers : (timestampNumbers ts).length = 7)
    (hdst : ∀ (time : Tm) (isdst : Int32), mktime { time with isdst } = mktime time)
    (stack stack' : TimeStack) :
    parseTimestamp mktime stack ts = parseTimestamp mktime stack' ts := by
  have hnumber : ∀ i < 7, ∀ before before' : Int32,
      (timestampNumbers ts)[i]?.getD before = (timestampNumbers ts)[i]?.getD before' := by
    intro i hi before before'
    rw [List.getElem?_eq_getElem (hnumbers ▸ hi)]
    rfl
  unfold parseTimestamp
  dsimp only
  rw [← hdst _ stack'.isdst, hnumber 0 (by decide) stack.y stack'.y,
    hnumber 1 (by decide) stack.M stack'.M, hnumber 2 (by decide) stack.d stack'.d,
    hnumber 3 (by decide) stack.h stack'.h, hnumber 4 (by decide) stack.m stack'.m,
    hnumber 5 (by decide) stack.s stack'.s, hnumber 6 (by decide) stack.ms stack'.ms]

/-- `mktime` in a time zone without an offset and without daylight saving time. -/
def utcTime (time : Tm) : ℤ :=
  -- years that begin in March
  let months := 12 * (time.year.toInt + 1900) + time.mon.toInt - 2
  let year := months / 12
  let month := months % 12
  let days := 365 * year + year / 4 - year / 100 + year / 400 + (153 * month + 2) / 5 +
    time.mday.toInt - 719469
  ((days * 24 + time.hour.toInt) * 60 + time.min.toInt) * 60 + time.sec.toInt

example : parseTimestamp utcTime ⟨0, 0, 0, 0, 0, 0, 0, 0⟩ (cstr "2019-03-20T17:09:03.949Z") =
    1553101743949 := by decide

end Tracemate.Process
