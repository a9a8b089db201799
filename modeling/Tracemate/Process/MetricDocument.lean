import Tracemate.Process.Tags

/-!
# Metric documents

`process_metric_message`.  A document has its measurements in one of two layouts; each of them
makes the same two updates for a measurement, one for the host and one for the aggregate.

* `measurement`, `numericGauge`, `averageGauge` and the like: the updates for one measurement;
* `flatUpdates`, `nestedUpdates`: the two layouts;
* `processMetricMessage`: the function.
-/

namespace Tracemate.Process

open CStr JsonC COutcome Tracemate.Metric

/-- The local variables of `process_metric_message` that the layouts read. -/
structure MetricContext where
  lib : Conversions
  td : TeamData
  tagString : Bytes
  aggTagString : Bytes
  timestampMs : ℕ
  aggTimestamp : ℕ

/-- What is done for a member if it is there. -/
def present (v : Option Json) (f : Option Json → List Effect) : List Effect :=
  if v.isSome then f v else []

namespace MetricContext

variable (c : MetricContext)

/-- The updates for one measurement. -/
def measurement (title : Bytes) (host aggregate : MetricName → Effect) : List Effect :=
  (if c.td.collectHostLevelSystem then [host ⟨title, [], c.tagString⟩] else []) ++
    [aggregate ⟨title, [], c.aggTagString⟩]

/-- A number whose aggregate is a sum. -/
def numericGauge (title : Bytes) (v : Option Json) : List Effect :=
  c.measurement title
    (fun n => .replace n c.timestampMs (.number (c.lib.getDouble v)))
    (fun n => .updateNumeric n true (c.lib.getDouble v) c.aggTimestamp)

/-- A number whose aggregate is an average. -/
def averageGauge (title : Bytes) (v : Option Json) : List Effect :=
  c.measurement title
    (fun n => .replace n c.timestampMs (.number (c.lib.getDouble v)))
    (fun n => .updateAverage n true (c.lib.getDouble v) c.aggTimestamp)

def threadCount (v : Option Json) : List Effect :=
  c.measurement (cstr "jvm - thread - count")
    (fun n => .replace n c.timestampMs (.integer (BitVec.ofNat 64 (c.lib.getUint64 v))))
    (fun n => .updateNumeric n true (c.lib.getUint64 v) c.aggTimestamp)

def gcTime (v : Option Json) : List Effect :=
  c.measurement (cstr "jvm - memory - gc - total_latency")
    (fun n => .updateNumeric n true (c.lib.getUint64 v / 1000) c.aggTimestamp)
    (fun n => .updateNumeric n true (c.lib.getDouble v / 1000) c.aggTimestamp)

def gcCount (v : Option Json) : List Effect :=
  c.measurement (cstr "jvm - memory - gc - count")
    (fun n => .updateCounter n false (c.lib.getUint64 v) c.timestampMs)
    (fun n => .updateAverage n true (c.lib.getUint64 v) c.aggTimestamp)

def gcAlloc (v : Option Json) : List Effect :=
  c.measurement (cstr "jvm - memory - gc - alloc")
    (fun n => .updateNumeric n false (c.lib.getDouble v) c.timestampMs)
    (fun n => .updateAverage n true (c.lib.getDouble v) c.aggTimestamp)

/-- The delay of the event loop, in microseconds. -/
def eventloopLatency (v : Option Json) : List Effect :=
  let mics := (c.lib.getDouble v * 1000).floor.toNat
  c.measurement (cstr "nodejs - eventloop - latency")
    (fun n => .updateHistogram n mics c.aggTimestamp)
    (fun n => .updateHistogram n mics c.aggTimestamp)

def totalPause (v : Option Json) : List Effect :=
  c.measurement (cstr "golang - memory - gc - total_pause_ns")
    (fun n => .updateCounter n false (c.lib.getDouble v).floor.toNat c.aggTimestamp)
    (fun n => .updateCounter n true (c.lib.getDouble v).floor.toNat c.aggTimestamp)

def totalCount (v : Option Json) : List Effect :=
  c.measurement (cstr "golang - memory - gc - total_count")
    (fun n => .updateCounter n false (c.lib.getUint64 v) c.timestampMs)
    (fun n => .updateCounter n true (c.lib.getUint64 v) c.aggTimestamp)

def goroutines (v : Option Json) : List Effect :=
  c.measurement (cstr "golang - goroutines")
    (fun n => .updateAverage n false (c.lib.getUint64 v) c.aggTimestamp)
    (fun n => .updateAverage n true (c.lib.getUint64 v) c.aggTimestamp)

/-- The three measurements of a garbage collection. -/
def gc (time count alloc : Option Json) : List Effect :=
  (if time.isSome ∧ count.isSome then c.gcTime time ++ c.gcCount count else []) ++
    present alloc c.gcAlloc

/-! ### The flat layout -/

/-- The measurements of a document of version 7.15. -/
def flatUpdates (m : Option Json) : List Effect :=
  let field (name : String) := Json.get (cstr name) m
  let numeric (name title : String) := present (field name) (c.numericGauge (cstr title))
  let average (name title : String) := present (field name) (c.averageGauge (cstr title))
  numeric "system.memory.total" "system - memory - total" ++
  numeric "system.memory.actual.free" "system - memory - free" ++
  numeric "system.process.cpu.total.norm.pct" "system - process - cpu - total - pct" ++
  numeric "system.process.memory.size" "system - process - memory - size" ++
  numeric "system.cpu.total.norm.pct" "system - cpu - total - pct" ++
  present (field "jvm.thread.count") c.threadCount ++
  average "jvm.memory.heap.committed" "jvm - memory - heap - committed" ++
  average "jvm.memory.heap.used" "jvm - memory - heap - used" ++
  average "jvm.memory.heap.max" "jvm - memory - heap - max" ++
  average "jvm.memory.non_heap.committed" "jvm - memory - non_heap - committed" ++
  average "jvm.memory.non_heap.used" "jvm - memory - non_heap - used" ++
  average "jvm.memory.non_heap.max" "jvm - memory - non_heap - max" ++
  c.gc (field "jvm.gc.time") (field "jvm.gc.count") (field "jvm.gc.alloc") ++
  average "nodejs.memory.heap.used.bytes" "nodejs - memory - heap - used" ++
  average "nodejs.memory.heap.allocated.bytes" "nodejs - memory - heap - allocated" ++
  present (field "nodejs.eventloop.delay.avg.ms") c.eventloopLatency

/-! ### The nested layout -/

/-- The share of the processor, below `cpu`. -/
def cpuTotal (title : String) (cpu : Option Json) : List Effect :=
  present cpu fun cpu => present (Json.get (cstr "total") cpu) fun total =>
    present (Json.get (cstr "norm") total) fun norm =>
      c.numericGauge (cstr title) (Json.get (cstr "pct") norm)

/-- The measurements below `system`. -/
def systemUpdates (system : Option Json) : List Effect :=
  (present (Json.get (cstr "memory") system) fun mem =>
    c.numericGauge (cstr "system - memory - total") (Json.get (cstr "total") mem) ++
    present (Json.get (cstr "actual") mem) fun actual =>
      c.numericGauge (cstr "system - memory - free") (Json.get (cstr "free") actual)) ++
  (present (Json.get (cstr "process") system) fun process =>
    c.cpuTotal "system - process - cpu - total - pct" (Json.get (cstr "cpu") process) ++
    present (Json.get (cstr "memory") process) fun mems =>
      c.numericGauge (cstr "system - process - memory - size") (Json.get (cstr "size") mems)) ++
  c.cpuTotal "system - cpu - total - pct" (Json.get (cstr "cpu") system)

/-- The measurements below `jvm.memory.heap` and `jvm.memory.non_heap`. -/
def heapUpdates (heap : String) (v : Option Json) : List Effect :=
  present v fun v =>
    c.averageGauge (cstr ("jvm - memory - " ++ heap ++ " - committed"))
      (Json.get (cstr "committed") v) ++
    c.averageGauge (cstr ("jvm - memory - " ++ heap ++ " - used")) (Json.get (cstr "used") v) ++
    c.averageGauge (cstr ("jvm - memory - " ++ heap ++ " - max")) (Json.get (cstr "max") v)

/-- The measurements below `jvm`. -/
def jvmUpdates (jvm : Option Json) : List Effect :=
  (present (Json.get (cstr "thread") jvm) fun thread =>
    present (Json.get (cstr "count") thread) c.threadCount) ++
  (present (Json.get (cstr "memory") jvm) fun mem =>
    c.heapUpdates "heap" (Json.get (cstr "heap") mem) ++
    c.heapUpdates "non_heap" (Json.get (cstr "non_heap") mem)) ++
  present (Json.get (cstr "gc") jvm) fun gc =>
    c.gc (Json.get (cstr "time") gc) (Json.get (cstr "count") gc) (Json.get (cstr "alloc") gc)

/-- The measurements below `nodejs`. -/
def nodejsUpdates (nodejs : Option Json) : List Effect :=
  let bytes (title : String) (v : Option Json) : List Effect :=
    present (Json.get (cstr "bytes") v) (c.averageGauge (cstr title))
  (present (Json.get (cstr "heap") (Json.get (cstr "memory") nodejs)) fun heap =>
    bytes "nodejs - memory - heap - used" (Json.get (cstr "used") heap) ++
    bytes "nodejs - memory - heap - allocated" (Json.get (cstr "allocated") heap)) ++
  present (Json.get (cstr "ms") (Json.get (cstr "avg")
    (Json.get (cstr "delay") (Json.get (cstr "eventloop") nodejs)))) c.eventloopLatency

/-- The measurements below `golang`. -/
def golangUpdates (golang : Option Json) : List Effect :=
  let heap := Json.get (cstr "heap") golang
  (present (Json.get (cstr "allocated") (Json.get (cstr "allocations") heap))
    (c.averageGauge (cstr "golang - memory - heap - used"))) ++
  (let gc := Json.get (cstr "gc") heap
    let totalPauseNs := Json.get (cstr "ns") (Json.get (cstr "total_pause") gc)
    let count := Json.get (cstr "total_count") gc
    if totalPauseNs.isSome ∧ count.isSome then c.totalPause totalPauseNs ++ c.totalCount count
    else []) ++
  present (Json.get (cstr "goroutines") golang) c.goroutines

/-- The measurements of a document of another version. -/
def nestedUpdates (m : Option Json) : List Effect :=
  c.systemUpdates (Json.get (cstr "system") m) ++
  c.jvmUpdates (Json.get (cstr "jvm") m) ++
  c.nodejsUpdates (Json.get (cstr "nodejs") m) ++
  c.golangUpdates (Json.get (cstr "golang") m)

end MetricContext

/-- The titles of the measurements that are numbers, for the host and for the aggregate. -/
def numberTitles : List Bytes :=
  ["system - memory - total", "system - memory - free", "system - process - cpu - total - pct",
    "system - process - memory - size", "system - cpu - total - pct",
    "jvm - memory - heap - committed", "jvm - memory - heap - used", "jvm - memory - heap - max",
    "jvm - memory - non_heap - committed", "jvm - memory - non_heap - used",
    "jvm - memory - non_heap - max", "jvm - memory - gc - total_latency",
    "jvm - memory - gc - alloc", "nodejs - memory - heap - used",
    "nodejs - memory - heap - allocated", "golang - memory - heap - used",
    "golang - goroutines"].map cstr

section Document

variable (env : Env) (m : Option Json)

/-- The comparison of the version with `7.15`, over the shorter length. -/
def isFlat : Bool :=
  match tmApmServerVersion env.lib m with
  | none => false
  | some version => version.take 4 = (cstr "7.15").take version.length

/-- The name of the agent is kept for a service that has none yet. -/
def agentEffects (td : TeamData) (serviceName : Bytes) : List Effect :=
  let agent :=
    if tmApmServerMajorVersion env.lib m > 6 then Json.get (cstr "agent") m
    else Json.get (cstr "agent") (Json.get (cstr "service") (Json.get (cstr "context") m))
  match td.serviceData.lookup serviceName, env.lib.getString (Json.get (cstr "name") agent) with
  | some ⟨none, _⟩, some an => [.serviceAgent serviceName an]
  | _, _ => []

/-- `process_metric_message`. -/
def processMetricMessage : Outcome (List Effect) := do
  match ← preProcess env m with
  | none => .ok []
  | some prepared =>
    let aggTagString ← buildAggTagString env m
    match tmServiceName env.lib m with
    | none => .ok [.messagesErrored]
    | some serviceName => do
      let td := env.getTeamData prepared.team
      let aggTimestamp ←
        centerTimestamp prepared.timestamp (env.getMetricFlushFrequencyMs serviceName)
      let c : MetricContext :=
        ⟨env.lib, td, prepared.tagString, aggTagString, prepared.timestamp, aggTimestamp⟩
      if isFlat env m then .ok (c.flatUpdates m)
      else .ok (agentEffects env m td serviceName ++ c.nestedUpdates m)

end Document

end Tracemate.Process
