import Tracemate.Metric.Value

/-!
# Updates of the team table

The functions `update_…` of `tm_process.c` and the branches of `process_aggregate_message` look an
entry up, change it if it is there and store a new one if it is not.

* `Update`: what such a function does to one entry, with its arguments;
* `Update.apply`: the entry afterwards;
* `updateEntry`: the table afterwards; `updateHistogram` and the like are its members.

The entry of another type under the same key is a misread of the union: `none`.
-/

namespace Tracemate.Metric

open CStr

/-- A team's `hash`. -/
abbrev MetricTable := AList fun _ : MetricKey => MetricValue

/-- What an update does to one entry. -/
inductive Update
  /-- `update_histogram` -/
  | histogram (durationUs : ℕ)
  /-- `update_counter` -/
  | counter (count : BitVec 64)
  /-- `update_text` -/
  | text (str : Bytes)
  /-- `update_numeric` -/
  | numeric (value : ℚ)
  /-- `update_average` -/
  | average (value : ℚ)
  /-- an inbound aggregate of type `h` -/
  | mergeHistogram (h : Multiset ℕ)
  /-- an inbound aggregate of type `L` -/
  | mergeInteger (count : BitVec 64)
  /-- an inbound aggregate of type `n` -/
  | mergeNumber (num : ℚ) (count : BitVec 32)
  /-- `store_numeric_rollup` -/
  | rollup (value : ℚ)
  deriving DecidableEq

namespace Update

/-- The flags of the key under which an update looks its entry up. -/
def Keyed : Update → MetricKey → Prop
  | histogram _, key => key.immediateFlush = false
  | counter _, key => key.immediateFlush = !key.aggregate
  | text _, key => key.aggregate = false ∧ key.immediateFlush = true
  | numeric _, key => key.immediateFlush = !key.aggregate
  | average _, key => key.immediateFlush = !key.aggregate
  | mergeHistogram _, key => key.aggregate = false ∧ key.immediateFlush = false
  | mergeInteger _, key => key.aggregate = false ∧ key.immediateFlush = false
  | mergeNumber _ _, key => key.aggregate = false ∧ key.immediateFlush = false
  | rollup _, key => key.aggregate = false ∧ key.immediateFlush = false

instance (u : Update) (key : MetricKey) : Decidable (u.Keyed key) := by
  cases u <;> unfold Keyed <;> infer_instance

/-- The value of a new entry. -/
def make (owner : BitVec 32) (now : ℕ) : Update → MetricValue
  | histogram durationUs => makeHistogramLatencyValue owner now durationUs
  | counter count => makeIntegerValue owner now count
  | text str => makeTextValue owner now str
  | numeric value => makeNumericValue owner now value
  | average value => makeNumericValue owner now value
  -- here `count` is left unset; nothing reads it of a histogram
  | mergeHistogram h => makeValue owner now (.histogram h)
  | mergeInteger count => makeIntegerValue owner now count
  | mergeNumber num count =>
    { makeNumericValue owner now num with count := if count = 0 then 1 else count }
  | rollup value => makeNumericValue owner now value

/-- The change of an existing entry, but for `last_seen`. -/
def change : Update → MetricValue → Option MetricValue
  | histogram durationUs, v => match v.metric with
    | .histogram h => some { v with metric := .histogram (h + {durationUs}) }
    | _ => none
  | counter count, v => match v.metric with
    | .integer i => some { v with metric := .integer (i + count) }
    | _ => none
  | text _, _ => none
  | numeric value, v => match v.metric with
    | .number d => some { v with metric := .number (d + value) }
    | _ => none
  | average value, v => match v.metric with
    | .number d => some { v with metric := .number (d + value), count := v.count + 1 }
    | _ => none
  | mergeHistogram g, v => match v.metric with
    | .histogram h => some { v with metric := .histogram (h + g) }
    | _ => none
  | mergeInteger count, v => match v.metric with
    | .integer i => some { v with metric := .integer (i + count) }
    | _ => none
  | mergeNumber num count, v => match v.metric with
    | .number d =>
      some { v with metric := .number (d + num), count := v.count + if count = 0 then 1 else count }
    | _ => none
  | rollup value, v => match v.metric with
    | .number _ => some { v with metric := .number value }
    | _ => none

/-- The entry after an update at the clock reading `now`.  `update_text` replaces the entry, the
others change it in place. -/
def apply (owner : BitVec 32) (now : ℕ) : Update → Option MetricValue → Option MetricValue
  | u, none => some (u.make owner now)
  | text str, some _ => some (makeTextValue owner now str)
  | u, some v => (u.change v).map fun v => { v with lastSeen := now }

end Update

/-- The table after an update: the entry is looked up, again under the team's mutex if it is
missing, and changed or stored. -/
def updateEntry (owner : BitVec 32) (now : ℕ) (t : MetricTable) (key : MetricKey) (u : Update) :
    Option MetricTable :=
  (u.apply owner now (t.lookup key)).map fun v => t.insert key v

section Members

variable (owner : BitVec 32) (now : ℕ) (t : MetricTable) (metricName : Bytes)

def updateHistogram (aggregate : Bool) (durationUs timestamp : ℕ) : Option MetricTable :=
  updateEntry owner now t { makeMetricKey metricName timestamp with aggregate }
    (.histogram durationUs)

def updateCounter (aggregate : Bool) (count : BitVec 64) (timestamp : ℕ) : Option MetricTable :=
  updateEntry owner now t
    { makeMetricKey metricName timestamp with aggregate, immediateFlush := !aggregate }
    (.counter count)

def updateText (text : Bytes) (timestamp : ℕ) : Option MetricTable :=
  updateEntry owner now t
    { makeMetricKey metricName timestamp with aggregate := false, immediateFlush := true }
    (.text text)

def updateNumeric (aggregate : Bool) (value : ℚ) (timestamp : ℕ) : Option MetricTable :=
  updateEntry owner now t
    { makeMetricKey metricName timestamp with aggregate, immediateFlush := !aggregate }
    (.numeric value)

def updateAverage (aggregate : Bool) (value : ℚ) (timestamp : ℕ) : Option MetricTable :=
  updateEntry owner now t
    { makeMetricKey metricName timestamp with aggregate, immediateFlush := !aggregate }
    (.average value)

end Members

/-! ### What an update leaves alone -/

variable {owner : BitVec 32} {now : ℕ} {u : Update} {v v' : MetricValue}

/-- A change in place keeps the stamps, the owner and the mark for deletion. -/
theorem Update.change_frame (h : u.change v = some v') :
    v'.lastSeen = v.lastSeen ∧ v'.flushedMs = v.flushedMs ∧ v'.ownerId = v.ownerId ∧
      v'.scheduledForDestruction = v.scheduledForDestruction := by
  obtain ⟨metric, count, lastSeen, flushedMs, ownerId, scheduled⟩ := v
  cases u <;> cases metric <;> simp only [change, reduceCtorEq, Option.some.injEq] at h <;>
    subst h <;> exact ⟨rfl, rfl, rfl, rfl⟩

/-- A new entry is not flushed yet. -/
theorem Update.make_stamps (u : Update) (owner : BitVec 32) (now : ℕ) :
    (u.make owner now).lastSeen = now ∧ (u.make owner now).flushedMs = 0 ∧
      (u.make owner now).scheduledForDestruction = false := by
  cases u <;> exact ⟨rfl, rfl, rfl⟩

/-- After an update the entry has been seen now; its flush stamp is the old one, or `0` for a new
entry. -/
theorem Update.apply_spec {e : Option MetricValue} (hu : ∀ str, u ≠ .text str)
    (h : u.apply owner now e = some v') :
    v'.lastSeen = now ∧
      ((e = none ∧ v'.flushedMs = 0 ∧ v'.scheduledForDestruction = false) ∨
        ∃ v, e = some v ∧ v'.flushedMs = v.flushedMs ∧
          v'.scheduledForDestruction = v.scheduledForDestruction) := by
  cases e with
  | none =>
    obtain rfl : u.make owner now = v' := by cases u <;> simpa [apply] using h
    obtain ⟨hseen, hflushed, hsched⟩ := u.make_stamps owner now
    exact ⟨hseen, .inl ⟨rfl, hflushed, hsched⟩⟩
  | some v =>
    obtain ⟨w, hw, rfl⟩ : ∃ w, u.change v = some w ∧ { w with lastSeen := now } = v' := by
      cases u with
      | text str => exact absurd rfl (hu str)
      | _ => simpa [apply] using h
    obtain ⟨-, hflushed, -, hsched⟩ := change_frame hw
    exact ⟨rfl, .inr ⟨v, rfl, hflushed, hsched⟩⟩

end Tracemate.Metric
