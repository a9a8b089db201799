import Mathlib.Data.BitVec
import Mathlib.Data.List.AList
import Tracemate.Lib.CStr
import Tracemate.Lib.Decimal

/-!
# Metric keys, metric values and their JSON

The data of `tm_metric.h`.  A `double` is the rational number it stands for; what rounds is the
printing with `%g`.  A histogram is the multiset of its samples.

* `MetricKey`, `MetricValue`: `metric_key_t` and `metric_value_t`;
* `makeNumericValue` and the like: the values of new entries;
* `metricToJson`: what `metric_to_json` prints of an entry, and the entry after it;
* `resetValue`: `reset_value`;
* `Amount`: what an entry has counted up, and `metricToJson_amount`, what its JSON says of it.
-/

namespace Tracemate.Metric

open CStr Decimal

/-- A `metric_key_t`; two keys are the same for the hash table if all their bytes agree. -/
structure MetricKey where
  timestamp : ℕ
  aggregate : Bool
  immediateFlush : Bool
  metricName : Bytes
  deriving DecidableEq

/-- `make_metric_key`. -/
def makeMetricKey (name : Bytes) (timestampMs : ℕ) : MetricKey := ⟨timestampMs, false, false, name⟩

/-- The tag `type` of a value and the member of the union `metric` that it selects. -/
inductive Payload
  | number (number : ℚ)
  | text (str : Bytes)
  | histogram (hist : Multiset ℕ)
  | integer (integer : BitVec 64)
  deriving DecidableEq

/-- A `metric_value_t`. -/
structure MetricValue where
  metric : Payload
  count : BitVec 32
  lastSeen : ℕ
  flushedMs : ℕ
  ownerId : BitVec 32
  scheduledForDestruction : Bool
  deriving DecidableEq

/-- The fields that all the functions `make_…_value` set in the same way; `now` is the reading of
the clock and `owner` the value of `tm_metrics_get_owner_id`. -/
def makeValue (owner : BitVec 32) (now : ℕ) (metric : Payload) : MetricValue :=
  ⟨metric, 1, now, 0, owner, false⟩

def makeNumericValue (owner : BitVec 32) (now : ℕ) (d : ℚ) : MetricValue :=
  makeValue owner now (.number d)

def makeIntegerValue (owner : BitVec 32) (now : ℕ) (i : BitVec 64) : MetricValue :=
  makeValue owner now (.integer i)

def makeHistogramLatencyValue (owner : BitVec 32) (now : ℕ) (durationUs : ℕ) : MetricValue :=
  makeValue owner now (.histogram {durationUs})

def makeTextValue (owner : BitVec 32) (now : ℕ) (str : Bytes) : MetricValue :=
  makeValue owner now (.text str)

/-- `reset_value`. -/
def resetValue (v : MetricValue) : MetricValue :=
  { v with
    count := 0
    flushedMs := 0
    metric := match v.metric with
      | .number _ => .number 0
      | .text str => .text str
      | .histogram _ => .histogram 0
      | .integer _ => .integer 0 }

/-! ### JSON -/

/-- The members `_type` and `_value` of a metric, and `_count` where it is printed. -/
inductive JsonValue
  | number (value : ℚ) (count : Option (BitVec 32))
  | text (value : Bytes)
  | histogram (value : Multiset ℕ)
  | integer (value : BitVec 64)
  deriving DecidableEq

/-- The member of a JSON document that `metric_to_json` prints for an entry. -/
structure MetricJson where
  metricName : Bytes
  owner : BitVec 32
  ts : ℕ
  value : JsonValue
  deriving DecidableEq

/-- `%g`: six significant digits. -/
def printfG (d : ℚ) : ℚ := roundSig 6 d

/-- The members that `metric_to_json` prints of the value. -/
def jsonValue (v : MetricValue) (resolveAvg : Bool) : JsonValue :=
  match v.metric with
  | .number number =>
    if resolveAvg then .number (printfG (number / max (v.count.toInt : ℚ) 1)) none
    else .number (printfG number) (some v.count)
  | .text str => .text str
  | .integer integer => .integer integer
  | .histogram hist => .histogram hist

/-- The branches `if (reset)` of `metric_to_json`. -/
def clearMetric (v : MetricValue) : MetricValue :=
  match v.metric with
  | .number _ => { v with count := 0, metric := .number 0 }
  | .text _ => v
  | .integer _ => { v with metric := .integer 0 }
  | .histogram _ => { v with metric := .histogram 0 }

/-- The variable `ts`, a `uint64_t`, after the branch `if (jitter)`. -/
def addJitter (ts jitter : ℕ) : ℕ := if jitter = 0 then ts else (ts + jitter) % 2 ^ 64

/-- `metric_to_json`: what it prints, and the entry after it.  `jitter` is the value of
`rand() % 30000` that is added to the timestamp, `0` for a call without jitter. -/
def metricToJson (k : MetricKey) (v : MetricValue) (resolveAvg reset : Bool) (jitter : ℕ) :
    MetricJson × MetricValue :=
  (⟨k.metricName, v.ownerId, addJitter k.timestamp jitter, jsonValue v resolveAvg⟩,
    if reset then clearMetric v else v)

/-! ### Amounts -/

/-- What updates add up to: the sum of a counter, the sum and count of an average, the samples
of a histogram. -/
abbrev Amount := BitVec 64 × (ℚ × BitVec 32) × Multiset ℕ

/-- The amount that an entry holds. -/
def MetricValue.amount (v : MetricValue) : Amount :=
  match v.metric with
  | .number number => (0, (number, v.count), 0)
  | .text _ => 0
  | .histogram hist => (0, 0, hist)
  | .integer integer => (integer, 0, 0)

/-- The amount that a message carries. -/
def MetricJson.amount (j : MetricJson) : Amount :=
  match j.value with
  | .number value count => (0, (value, count.getD 0), 0)
  | .text _ => 0
  | .histogram hist => (0, 0, hist)
  | .integer integer => (integer, 0, 0)

/-- `%g` prints the number of the entry without loss. -/
def MetricValue.PrintsExactly (v : MetricValue) : Prop :=
  ∀ number, v.metric = .number number → printfG number = number

/-- A reset entry holds nothing. -/
@[simp] theorem amount_resetValue (v : MetricValue) : (resetValue v).amount = 0 := by
  unfold resetValue MetricValue.amount
  cases v.metric <;> rfl

/-- `reset_value` makes the reset of `metric_to_json` again. -/
theorem resetValue_clearMetric (v : MetricValue) : resetValue (clearMetric v) = resetValue v := by
  obtain ⟨metric, _, _, _, _, _⟩ := v
  cases metric <;> rfl

/-- A message carries the amount of its entry exactly if the number is printed without loss. -/
theorem metricToJson_amount_iff (k : MetricKey) (v : MetricValue) (reset : Bool) (jitter : ℕ) :
    (metricToJson k v false reset jitter).1.amount = v.amount ↔ v.PrintsExactly := by
  obtain ⟨metric, _, _, _, _, _⟩ := v
  cases metric <;>
    simp [metricToJson, jsonValue, MetricJson.amount, MetricValue.amount,
      MetricValue.PrintsExactly]

end Tracemate.Metric
