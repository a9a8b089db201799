import Tracemate.Lib.JsonObject
import Tracemate.Process.MetricDocument

/-!
# Measurements and their readings

The measurements of a document, as an agent sends them in the nested layout before version 7.15
and in the flattened one from then on.

* `Measurements`: any subset of the measurements, with any values;
* `nestedMembers`, `flatMembers`: the two layouts;
* `nestedReading`, `flatReading`: what the two halves of `process_metric_message` make of them;
* `nestedReading_eq_flatReading_iff`: when they are the same, at the times of two calls.
-/

namespace Tracemate.Process

open CStr JsonC COutcome Outcome Tracemate.Metric

/-! ### Measurements -/

/-- The sizes below `jvm.memory.heap` or `jvm.memory.non_heap`. -/
structure HeapSizes where
  committed : Option Value
  used : Option Value
  max : Option Value

/-- The measurements that a document can have. -/
structure Measurements where
  memoryTotal : Option Value
  memoryActualFree : Option Value
  processCpuPct : Option Value
  processMemorySize : Option Value
  cpuPct : Option Value
  threadCount : Option Value
  heap : HeapSizes
  nonHeap : HeapSizes
  gcTime : Option Value
  gcCount : Option Value
  gcAlloc : Option Value
  nodejsHeapUsed : Option Value
  nodejsHeapAllocated : Option Value
  eventloopDelay : Option Value
  golangAllocated : Option Value
  golangTotalPause : Option Value
  golangTotalCount : Option Value
  goroutines : Option Value

/-- No measurement. -/
def Measurements.empty : Measurements :=
  ⟨none, none, none, none, none, none, ⟨none, none, none⟩, ⟨none, none, none⟩, none, none, none,
    none, none, none, none, none, none, none⟩

namespace Measurements

variable (p : Measurements)

/-! ### The nested layout -/

def memory : Option Value :=
  group [(cstr "total", p.memoryTotal),
    (cstr "actual", group [(cstr "free", p.memoryActualFree)])]

/-- The object `cpu` with the share `total.norm.pct`. -/
def cpuOf (pct : Option Value) : Option Value :=
  group [(cstr "total", group [(cstr "norm", group [(cstr "pct", pct)])])]

def process : Option Value :=
  group [(cstr "cpu", cpuOf p.processCpuPct),
    (cstr "memory", group [(cstr "size", p.processMemorySize)])]

def system : Option Value :=
  group [(cstr "memory", p.memory), (cstr "process", p.process), (cstr "cpu", cpuOf p.cpuPct)]

def heapOf (h : HeapSizes) : Option Value :=
  group [(cstr "committed", h.committed), (cstr "used", h.used), (cstr "max", h.max)]

def jvmMemory : Option Value :=
  group [(cstr "heap", heapOf p.heap), (cstr "non_heap", heapOf p.nonHeap)]

def jvmGc : Option Value :=
  group [(cstr "time", p.gcTime), (cstr "count", p.gcCount), (cstr "alloc", p.gcAlloc)]

def jvm : Option Value :=
  group [(cstr "thread", group [(cstr "count", p.threadCount)]), (cstr "memory", p.jvmMemory),
    (cstr "gc", p.jvmGc)]

/-- The object `heap` of a Node.js process. -/
def nodejsHeap : Option Value :=
  group [(cstr "used", group [(cstr "bytes", p.nodejsHeapUsed)]),
    (cstr "allocated", group [(cstr "bytes", p.nodejsHeapAllocated)])]

def eventloop : Option Value :=
  group [(cstr "delay", group [(cstr "avg", group [(cstr "ms", p.eventloopDelay)])])]

def nodejs : Option Value :=
  group [(cstr "memory", group [(cstr "heap", p.nodejsHeap)]), (cstr "eventloop", p.eventloop)]

def golangGc : Option Value :=
  group [(cstr "total_pause", group [(cstr "ns", p.golangTotalPause)]),
    (cstr "total_count", p.golangTotalCount)]

def golangHeap : Option Value :=
  group [(cstr "allocations", group [(cstr "allocated", p.golangAllocated)]),
    (cstr "gc", p.golangGc)]

def golang : Option Value :=
  group [(cstr "heap", p.golangHeap), (cstr "goroutines", p.goroutines)]

/-- The members of a document in the nested layout. -/
def nestedMembers : List (Bytes × Option Value) :=
  [(cstr "system", p.system), (cstr "jvm", p.jvm), (cstr "nodejs", p.nodejs),
    (cstr "golang", p.golang)]

/-! ### The flat layout -/

/-- The members of a document in the flat layout. -/
def flatMembers : List (Bytes × Option Value) :=
  [(cstr "system.memory.total", p.memoryTotal),
    (cstr "system.memory.actual.free", p.memoryActualFree),
    (cstr "system.process.cpu.total.norm.pct", p.processCpuPct),
    (cstr "system.process.memory.size", p.processMemorySize),
    (cstr "system.cpu.total.norm.pct", p.cpuPct),
    (cstr "jvm.thread.count", p.threadCount),
    (cstr "jvm.memory.heap.committed", p.heap.committed),
    (cstr "jvm.memory.heap.used", p.heap.used),
    (cstr "jvm.memory.heap.max", p.heap.max),
    (cstr "jvm.memory.non_heap.committed", p.nonHeap.committed),
    (cstr "jvm.memory.non_heap.used", p.nonHeap.used),
    (cstr "jvm.memory.non_heap.max", p.nonHeap.max),
    (cstr "jvm.gc.time", p.gcTime),
    (cstr "jvm.gc.count", p.gcCount),
    (cstr "jvm.gc.alloc", p.gcAlloc),
    (cstr "nodejs.memory.heap.used.bytes", p.nodejsHeapUsed),
    (cstr "nodejs.memory.heap.allocated.bytes", p.nodejsHeapAllocated),
    (cstr "nodejs.eventloop.delay.avg.ms", p.eventloopDelay),
    (cstr "golang.heap.allocations.allocated", p.golangAllocated),
    (cstr "golang.heap.gc.total_pause.ns", p.golangTotalPause),
    (cstr "golang.heap.gc.total_count", p.golangTotalCount),
    (cstr "golang.goroutines", p.goroutines)]

end Measurements

/-! ### What the nested reading makes of them -/

/-- Some of the sizes is there. -/
def HeapSizes.isAny (h : HeapSizes) : Bool := h.committed.isSome || (h.used.isSome || h.max.isSome)

section Reading

variable (c : MetricContext) (p : Measurements)

/-- The total is recorded for the object `memory`, the free memory where it is there. -/
def MetricContext.memoryReading : List Effect :=
  (if p.memoryTotal.isSome || p.memoryActualFree.isSome then
    c.numericGauge (cstr "system - memory - total") (ptr p.memoryTotal) else []) ++
  present (ptr p.memoryActualFree) (c.numericGauge (cstr "system - memory - free"))

/-- The process and the processor. -/
def MetricContext.cpuReading : List Effect :=
  present (ptr p.processCpuPct) (c.numericGauge (cstr "system - process - cpu - total - pct")) ++
  present (ptr p.processMemorySize) (c.numericGauge (cstr "system - process - memory - size")) ++
  present (ptr p.cpuPct) (c.numericGauge (cstr "system - cpu - total - pct"))

/-- All three sizes are recorded for the object. -/
def MetricContext.heapReading (heap : String) (h : HeapSizes) : List Effect :=
  if h.isAny then
    c.averageGauge (cstr ("jvm - memory - " ++ heap ++ " - committed")) (ptr h.committed) ++
    c.averageGauge (cstr ("jvm - memory - " ++ heap ++ " - used")) (ptr h.used) ++
    c.averageGauge (cstr ("jvm - memory - " ++ heap ++ " - max")) (ptr h.max)
  else []

/-- The Node.js process. -/
def MetricContext.nodejsReading : List Effect :=
  present (ptr p.nodejsHeapUsed) (c.averageGauge (cstr "nodejs - memory - heap - used")) ++
  present (ptr p.nodejsHeapAllocated)
    (c.averageGauge (cstr "nodejs - memory - heap - allocated")) ++
  present (ptr p.eventloopDelay) c.eventloopLatency

/-- The Go process. -/
def MetricContext.golangReading : List Effect :=
  present (ptr p.golangAllocated) (c.averageGauge (cstr "golang - memory - heap - used")) ++
  (if p.golangTotalPause.isSome ∧ p.golangTotalCount.isSome then
    c.totalPause (ptr p.golangTotalPause) ++ c.totalCount (ptr p.golangTotalCount) else []) ++
  present (ptr p.goroutines) c.goroutines

/-- The updates for two members of an object, which is there when one of them is. -/
theorem ite_or_append (a b : Bool) (xs ys : List Effect) :
    (if (a || b) = true then (if a = true then xs else []) ++ (if b = true then ys else [])
      else []) = (if a = true then xs else []) ++ if b = true then ys else [] := by
  cases a <;> cases b <;> rfl

@[simp] theorem isSome_cpuOf (pct : Option Value) :
    (Measurements.cpuOf pct).isSome = pct.isSome := by
  simp [Measurements.cpuOf]

@[simp] theorem isSome_heapOf (h : HeapSizes) : (Measurements.heapOf h).isSome = h.isAny := by
  simp [Measurements.heapOf, HeapSizes.isAny]

theorem cpuTotal_reading (title : String) (pct : Option Value) :
    c.cpuTotal title (ptr (Measurements.cpuOf pct)) =
      present (ptr pct) (c.numericGauge (cstr title)) := by
  unfold MetricContext.cpuTotal Measurements.cpuOf present
  simp (disch := decide) only [get_group_cons_self, get_group_nil, Option.or_none, isSome_ptr,
    isSome_group_singleton]
  split_ifs <;> rfl

theorem systemUpdates_reading :
    c.systemUpdates (ptr p.system) = c.memoryReading p ++ c.cpuReading p := by
  unfold MetricContext.systemUpdates MetricContext.memoryReading MetricContext.cpuReading
    Measurements.system Measurements.memory Measurements.process present
  simp (disch := decide) only [get_group_cons_self, get_group_cons_ne, get_group_nil,
    Option.or_none, isSome_ptr, isSome_group_cons, isSome_group_singleton, isSome_cpuOf,
    cpuTotal_reading]
  unfold present
  simp only [isSome_ptr, ite_or_append]
  cases p.memoryTotal.isSome <;> cases p.memoryActualFree.isSome <;>
    simp only [Bool.or_false, Bool.or_true, if_true, Bool.false_eq_true, if_false, List.nil_append,
      List.append_nil, List.append_assoc]

theorem heapUpdates_reading (heap : String) (h : HeapSizes) :
    c.heapUpdates heap (ptr (Measurements.heapOf h)) = c.heapReading heap h := by
  unfold MetricContext.heapUpdates MetricContext.heapReading present
  rw [isSome_ptr, isSome_heapOf]
  unfold Measurements.heapOf
  simp (disch := decide) only [get_group_cons_self, get_group_cons_ne, get_group_nil,
    Option.or_none]

/-- What is read below `jvm`. -/
def MetricContext.jvmReading : List Effect :=
  present (ptr p.threadCount) c.threadCount ++
  (c.heapReading "heap" p.heap ++ c.heapReading "non_heap" p.nonHeap) ++
  c.gc (ptr p.gcTime) (ptr p.gcCount) (ptr p.gcAlloc)

theorem heapReading_absent {heap : String} {h : HeapSizes} (hany : h.isAny = false) :
    c.heapReading heap h = [] := if_neg (by simp [hany])

theorem jvmUpdates_reading : c.jvmUpdates (ptr p.jvm) = c.jvmReading p := by
  unfold MetricContext.jvmUpdates MetricContext.jvmReading Measurements.jvm present
    Measurements.jvmMemory Measurements.jvmGc
  simp (disch := decide) only [get_group_cons_self, get_group_cons_ne, get_group_nil,
    Option.or_none, isSome_ptr, isSome_group_cons, isSome_group_singleton, isSome_heapOf,
    heapUpdates_reading]
  congr 1
  · congr 1
    · split_ifs <;> rfl
    · split_ifs with hany
      · rfl
      · rw [Bool.not_eq_true, Bool.or_eq_false_iff] at hany
        rw [heapReading_absent c hany.1, heapReading_absent c hany.2]
        rfl
  · cases p.gcTime <;> cases p.gcCount <;> cases p.gcAlloc <;> rfl

theorem nodejsUpdates_reading : c.nodejsUpdates (ptr p.nodejs) = c.nodejsReading p := by
  unfold MetricContext.nodejsUpdates MetricContext.nodejsReading Measurements.nodejs present
    Measurements.nodejsHeap Measurements.eventloop
  simp (disch := decide) only [get_group_cons_self, get_group_cons_ne, get_group_nil,
    Option.or_none, isSome_ptr, isSome_group_cons, isSome_group_singleton, ite_or_append]

theorem golangUpdates_reading : c.golangUpdates (ptr p.golang) = c.golangReading p := by
  unfold MetricContext.golangUpdates MetricContext.golangReading Measurements.golang present
    Measurements.golangHeap Measurements.golangGc
  simp (disch := decide) only [get_group_cons_self, get_group_cons_ne, get_group_nil,
    Option.or_none, isSome_ptr]

/-- What the nested reading makes of the nested layout. -/
def MetricContext.nestedReading : List Effect :=
  (c.memoryReading p ++ c.cpuReading p) ++ c.jvmReading p ++ c.nodejsReading p ++ c.golangReading p

/-! ### What the flat reading makes of them -/

/-- The sizes that are there. -/
def MetricContext.flatHeapReading (heap : String) (h : HeapSizes) : List Effect :=
  present (ptr h.committed)
    (c.averageGauge (cstr ("jvm - memory - " ++ heap ++ " - committed"))) ++
  present (ptr h.used) (c.averageGauge (cstr ("jvm - memory - " ++ heap ++ " - used"))) ++
  present (ptr h.max) (c.averageGauge (cstr ("jvm - memory - " ++ heap ++ " - max")))

/-- What the flat reading makes of the flat layout: every measurement that is there, but for those
of a Go process. -/
def MetricContext.flatReading : List Effect :=
  (present (ptr p.memoryTotal) (c.numericGauge (cstr "system - memory - total")) ++
    present (ptr p.memoryActualFree) (c.numericGauge (cstr "system - memory - free"))) ++
  c.cpuReading p ++
  (present (ptr p.threadCount) c.threadCount ++
    (c.flatHeapReading "heap" p.heap ++ c.flatHeapReading "non_heap" p.nonHeap) ++
    c.gc (ptr p.gcTime) (ptr p.gcCount) (ptr p.gcAlloc)) ++
  c.nodejsReading p

variable {m : Option Json}

/-- The nested reading of a document that has the members of the nested layout. -/
theorem nestedUpdates_reading
    (h : ∀ m' ∈ p.nestedMembers, Json.get m'.1 m = ptr m'.2) :
    c.nestedUpdates m = c.nestedReading p := by
  unfold MetricContext.nestedUpdates MetricContext.nestedReading
  rw [h (cstr "system", p.system) (by simp [Measurements.nestedMembers]),
    h (cstr "jvm", p.jvm) (by simp [Measurements.nestedMembers]),
    h (cstr "nodejs", p.nodejs) (by simp [Measurements.nestedMembers]),
    h (cstr "golang", p.golang) (by simp [Measurements.nestedMembers]), systemUpdates_reading,
    jvmUpdates_reading, nodejsUpdates_reading, golangUpdates_reading]

/-- The flat reading of a document that has the members of the flat layout. -/
theorem flatUpdates_reading (h : ∀ m' ∈ p.flatMembers, Json.get m'.1 m = ptr m'.2) :
    c.flatUpdates m = c.flatReading p := by
  simp only [Measurements.flatMembers, List.forall_mem_cons] at h
  unfold MetricContext.flatUpdates MetricContext.flatReading MetricContext.cpuReading
    MetricContext.nodejsReading MetricContext.flatHeapReading
  simp only [h, List.append_assoc]
  rfl

/-! ### When the readings agree -/

/-- The sizes are all there, or none is. -/
def HeapSizes.Whole (h : HeapSizes) : Prop :=
  h.isAny = true → h.committed.isSome ∧ h.used.isSome ∧ h.max.isSome

/-- Nothing is absent that the nested layout reads as zero. -/
structure Measurements.Complete : Prop where
  memory : p.memoryActualFree.isSome → p.memoryTotal.isSome
  heap : p.heap.Whole
  nonHeap : p.nonHeap.Whole

/-- There is no measurement of a Go process, or only one of the two of its collections. -/
structure Measurements.NoGolang : Prop where
  allocated : p.golangAllocated = none
  collections : ¬ (p.golangTotalPause.isSome ∧ p.golangTotalCount.isSome)
  goroutines : p.goroutines = none

/-- There is no measurement of the system, of a Java or of a Node.js process, or only one of the
two that are recorded together. -/
structure Measurements.Blank : Prop where
  memory : p.memoryTotal = none ∧ p.memoryActualFree = none
  cpu : p.processCpuPct = none ∧ p.processMemorySize = none ∧ p.cpuPct = none
  threads : p.threadCount = none
  heap : p.heap.isAny = false ∧ p.nonHeap.isAny = false
  collections : ¬ (p.gcTime.isSome ∧ p.gcCount.isSome) ∧ p.gcAlloc = none
  nodejs : p.nodejsHeapUsed = none ∧ p.nodejsHeapAllocated = none ∧ p.eventloopDelay = none

/-- The number of updates for one measurement. -/
def MetricContext.perMeasurement : ℕ := if c.td.collectHostLevelSystem then 2 else 1

@[simp] theorem length_measurement (title : Bytes) (host aggregate : MetricName → Effect) :
    (c.measurement title host aggregate).length = c.perMeasurement := by
  unfold MetricContext.measurement MetricContext.perMeasurement
  split_ifs <;> rfl

theorem perMeasurement_pos : 0 < c.perMeasurement := by
  unfold MetricContext.perMeasurement
  split_ifs <;> decide

variable {c p}

theorem length_present {v : Option Value} {f : Option Json → List Effect}
    (h : ∀ j, (f j).length = c.perMeasurement) :
    (present (ptr v) f).length = v.isSome.toNat * c.perMeasurement := by
  unfold present
  cases v with
  | none => simp
  | some v => simp [h]

theorem length_numericGauge (title : Bytes) (v : Option Json) :
    (c.numericGauge title v).length = c.perMeasurement := length_measurement ..

theorem length_averageGauge (title : Bytes) (v : Option Json) :
    (c.averageGauge title v).length = c.perMeasurement := length_measurement ..

theorem length_eventloopLatency (v : Option Json) :
    (c.eventloopLatency v).length = c.perMeasurement := by
  unfold MetricContext.eventloopLatency
  exact length_measurement ..

/-- A recorded measurement that is absent makes the nested reading longer. -/
theorem length_memoryReading :
    (c.memoryReading p).length =
      (present (ptr p.memoryTotal) (c.numericGauge (cstr "system - memory - total")) ++
        present (ptr p.memoryActualFree) (c.numericGauge (cstr "system - memory - free"))).length +
      (p.memoryActualFree.isSome && !p.memoryTotal.isSome).toNat * c.perMeasurement := by
  unfold MetricContext.memoryReading
  rw [List.length_append, List.length_append, length_present (length_numericGauge _),
    length_present (length_numericGauge _)]
  cases p.memoryTotal.isSome <;> cases p.memoryActualFree.isSome <;>
    simp [length_numericGauge]

/-- The number of sizes that the nested reading records as zero. -/
def HeapSizes.zeros (h : HeapSizes) : ℕ :=
  if h.isAny then (!h.committed.isSome).toNat + (!h.used.isSome).toNat + (!h.max.isSome).toNat else 0

theorem length_heapReading (heap : String) (h : HeapSizes) :
    (c.heapReading heap h).length =
      (c.flatHeapReading heap h).length + h.zeros * c.perMeasurement := by
  unfold MetricContext.heapReading MetricContext.flatHeapReading HeapSizes.zeros HeapSizes.isAny
  simp only [List.length_append, length_present (length_averageGauge _)]
  cases h.committed.isSome <;> cases h.used.isSome <;> cases h.max.isSome <;>
    simp [length_averageGauge] <;> ring

theorem heapZeros_eq_zero {h : HeapSizes} : h.zeros = 0 ↔ h.Whole := by
  unfold HeapSizes.zeros HeapSizes.Whole
  cases h.isAny <;> cases h.committed.isSome <;> cases h.used.isSome <;> cases h.max.isSome <;>
    simp

/-- A heap whose sizes are all there, or none, reads the same. -/
theorem heapReading_eq (heap : String) {h : HeapSizes} (hw : h.Whole) :
    c.heapReading heap h = c.flatHeapReading heap h := by
  unfold MetricContext.heapReading MetricContext.flatHeapReading present
  cases hany : h.isAny with
  | true =>
    obtain ⟨h1, h2, h3⟩ := hw hany
    simp [h1, h2, h3]
  | false =>
    simp only [HeapSizes.isAny, Bool.or_eq_false_iff] at hany
    simp [hany]

theorem eq_nil_iff_of_length {l : List Effect} {n : ℕ} (h : l.length = n * c.perMeasurement) :
    l = [] ↔ n = 0 := by
  rw [← List.length_eq_zero_iff, h, Nat.mul_eq_zero]
  exact or_iff_left (perMeasurement_pos c).ne'

theorem present_eq_nil_iff {v : Option Value} {f : Option Json → List Effect}
    (h : ∀ j, (f j).length = c.perMeasurement) : present (ptr v) f = [] ↔ v = none := by
  rw [eq_nil_iff_of_length (length_present h)]
  cases v <;> simp

/-- Two measurements that are recorded together or not at all. -/
theorem ite_append_eq_nil_iff {P : Prop} [Decidable P] {l l' : List Effect}
    (h : l.length = c.perMeasurement) : (if P then l ++ l' else []) = [] ↔ ¬ P := by
  have hpos := perMeasurement_pos c
  split_ifs with hP
  · simp only [hP, not_true, iff_false]
    intro hnil
    rw [(List.append_eq_nil_iff.1 hnil).1, List.length_nil] at h
    omega
  · simp [hP]

theorem golangReading_eq_nil_iff : c.golangReading p = [] ↔ p.NoGolang := by
  unfold MetricContext.golangReading
  rw [List.append_eq_nil_iff, List.append_eq_nil_iff,
    present_eq_nil_iff (length_averageGauge _),
    present_eq_nil_iff (f := c.goroutines) fun v => length_measurement ..,
    ite_append_eq_nil_iff (l := c.totalPause _) (length_measurement ..)]
  exact ⟨fun h => ⟨h.1.1, h.1.2, h.2⟩, fun h => ⟨⟨h.1, h.2⟩, h.3⟩⟩

theorem flatHeapReading_eq_nil_iff {heap : String} {h : HeapSizes} :
    c.flatHeapReading heap h = [] ↔ h.isAny = false := by
  unfold MetricContext.flatHeapReading HeapSizes.isAny
  rw [List.append_eq_nil_iff, List.append_eq_nil_iff,
    present_eq_nil_iff (length_averageGauge _), present_eq_nil_iff (length_averageGauge _),
    present_eq_nil_iff (length_averageGauge _)]
  cases h.committed <;> cases h.used <;> cases h.max <;> simp

theorem flatReading_eq_nil_iff : c.flatReading p = [] ↔ p.Blank := by
  have hgc : c.gc (ptr p.gcTime) (ptr p.gcCount) (ptr p.gcAlloc) = [] ↔
      ¬ (p.gcTime.isSome ∧ p.gcCount.isSome) ∧ p.gcAlloc = none := by
    unfold MetricContext.gc
    rw [List.append_eq_nil_iff, ite_append_eq_nil_iff (l := c.gcTime _) (length_measurement ..),
      present_eq_nil_iff (f := c.gcAlloc) fun v => length_measurement .., isSome_ptr, isSome_ptr]
  unfold MetricContext.flatReading MetricContext.cpuReading MetricContext.nodejsReading
  simp only [List.append_eq_nil_iff, present_eq_nil_iff (length_numericGauge _),
    present_eq_nil_iff (length_averageGauge _), flatHeapReading_eq_nil_iff, hgc,
    present_eq_nil_iff (f := c.threadCount) fun v => length_measurement ..,
    present_eq_nil_iff length_eventloopLatency]
  constructor
  · rintro ⟨⟨⟨hmem, hcpu⟩, ⟨hthreads, hheap⟩, hgc⟩, hnodejs⟩
    exact ⟨hmem, and_assoc.1 hcpu, hthreads, hheap, hgc, and_assoc.1 hnodejs⟩
  · rintro ⟨hmem, hcpu, hthreads, hheap, hgc, hnodejs⟩
    exact ⟨⟨⟨hmem, and_assoc.2 hcpu⟩, ⟨hthreads, hheap⟩, hgc⟩, and_assoc.2 hnodejs⟩

/-- The nested reading is longer by what it records as zero and by the Go process. -/
theorem length_nestedReading :
    (c.nestedReading p).length = (c.flatReading p).length +
      ((p.memoryActualFree.isSome && !p.memoryTotal.isSome).toNat + p.heap.zeros +
        p.nonHeap.zeros) * c.perMeasurement + (c.golangReading p).length := by
  unfold MetricContext.nestedReading MetricContext.flatReading MetricContext.jvmReading
  have hmem := length_memoryReading (c := c) (p := p)
  simp only [List.length_append, length_heapReading] at hmem ⊢
  rw [hmem]
  ring

/-- A nested reading that is no longer than the flat one records nothing as zero, and no Go
process. -/
theorem complete_of_length_nestedReading
    (h : (c.nestedReading p).length = (c.flatReading p).length) : p.Complete ∧ p.NoGolang := by
  have hlen := length_nestedReading (c := c) (p := p)
  rw [h] at hlen
  have hzeros : ((p.memoryActualFree.isSome && !p.memoryTotal.isSome).toNat + p.heap.zeros +
      p.nonHeap.zeros) * c.perMeasurement = 0 := by omega
  have hsum := (Nat.mul_eq_zero.1 hzeros).resolve_right (perMeasurement_pos c).ne'
  refine ⟨⟨?_, heapZeros_eq_zero.1 (by omega), heapZeros_eq_zero.1 (by omega)⟩, ?_⟩
  · have hmem : (p.memoryActualFree.isSome && !p.memoryTotal.isSome).toNat = 0 := by omega
    revert hmem
    cases p.memoryActualFree.isSome <;> cases p.memoryTotal.isSome <;> simp
  · exact (golangReading_eq_nil_iff (c := c)).1 (List.length_eq_zero_iff.1 (by omega))

/-- The two readings agree exactly on complete measurements without a Go process. -/
theorem nestedReading_eq_iff : c.nestedReading p = c.flatReading p ↔ p.Complete ∧ p.NoGolang := by
  constructor
  · intro h
    exact complete_of_length_nestedReading (by rw [h])
  · rintro ⟨⟨hmem, hheap, hnonHeap⟩, hgolang⟩
    have hmemory : c.memoryReading p =
        present (ptr p.memoryTotal) (c.numericGauge (cstr "system - memory - total")) ++
          present (ptr p.memoryActualFree) (c.numericGauge (cstr "system - memory - free")) := by
      unfold MetricContext.memoryReading present
      simp only [isSome_ptr]
      revert hmem
      cases p.memoryActualFree.isSome <;> cases p.memoryTotal.isSome <;> simp
    unfold MetricContext.nestedReading MetricContext.flatReading MetricContext.jvmReading
    rw [golangReading_eq_nil_iff.2 hgolang, hmemory, heapReading_eq _ hheap,
      heapReading_eq _ hnonHeap, List.append_nil]

/-- The nested reading is empty exactly if there is nothing to read. -/
theorem nestedReading_eq_nil_iff : c.nestedReading p = [] ↔ p.Blank ∧ p.NoGolang := by
  have hlen := length_nestedReading (c := c) (p := p)
  constructor
  · intro h
    rw [h, List.length_nil] at hlen
    exact ⟨(flatReading_eq_nil_iff (c := c)).1 (List.length_eq_zero_iff.1 (by omega)),
      (golangReading_eq_nil_iff (c := c)).1 (List.length_eq_zero_iff.1 (by omega))⟩
  · rintro ⟨hblank, hgolang⟩
    -- nothing is recorded as zero either
    have hcomplete : p.Complete := ⟨by simp [hblank.memory.2], by simp [HeapSizes.Whole, hblank.heap],
      by simp [HeapSizes.Whole, hblank.heap]⟩
    rw [nestedReading_eq_iff.2 ⟨hcomplete, hgolang⟩]
    exact flatReading_eq_nil_iff.2 hblank

/-! ### Updates of the table -/

/-- An update of the table of the team. -/
def Effect.isTableUpdate : Effect → Bool
  | .update _ | .replace .. => true
  | _ => false

section Kinds

variable {P : Effect → Prop}

theorem forall_present {v : Option Json} {f : Option Json → List Effect}
    (h : ∀ v, ∀ e ∈ f v, P e) : ∀ e ∈ present v f, P e := by
  unfold present
  split_ifs
  · exact h v
  · simp

theorem forall_measurement {title : Bytes} {host aggregate : MetricName → Effect}
    (hhost : ∀ n, P (host n)) (haggregate : ∀ n, P (aggregate n)) :
    ∀ e ∈ c.measurement title host aggregate, P e := by
  unfold MetricContext.measurement
  rw [List.forall_mem_append, List.forall_mem_singleton]
  refine ⟨?_, haggregate _⟩
  split_ifs
  · rw [List.forall_mem_singleton]
    exact hhost _
  · simp

variable (c P) in
/-- The property holds of the updates at the document's own time for the host, and of those at the
time of the aggregate. -/
structure HoldsOfKinds : Prop where
  replace : ∀ n metric, P (.replace n c.timestampMs metric)
  own : ∀ n u, P (.update ⟨n, false, u, c.timestampMs⟩)
  aggregate : ∀ n u, P (.update ⟨n, true, u, c.aggTimestamp⟩)

variable (hP : HoldsOfKinds c P)

include hP

theorem forall_numericGauge (title : Bytes) (v : Option Json) :
    ∀ e ∈ c.numericGauge title v, P e :=
  forall_measurement (fun _ => hP.replace _ _) fun _ => hP.aggregate _ _

theorem forall_averageGauge (title : Bytes) (v : Option Json) :
    ∀ e ∈ c.averageGauge title v, P e :=
  forall_measurement (fun _ => hP.replace _ _) fun _ => hP.aggregate _ _

theorem forall_gc (time count alloc : Option Json) : ∀ e ∈ c.gc time count alloc, P e := by
  unfold MetricContext.gc
  rw [List.forall_mem_append]
  refine ⟨?_, forall_present fun _ =>
    forall_measurement (fun _ => hP.own _ _) fun _ => hP.aggregate _ _⟩
  split_ifs
  · rw [List.forall_mem_append]
    exact ⟨forall_measurement (fun _ => hP.aggregate _ _) fun _ => hP.aggregate _ _,
      forall_measurement (fun _ => hP.own _ _) fun _ => hP.aggregate _ _⟩
  · simp

theorem forall_cpuReading : ∀ e ∈ c.cpuReading p, P e := by
  unfold MetricContext.cpuReading
  simp only [List.forall_mem_append]
  exact ⟨⟨forall_present (forall_numericGauge hP _), forall_present (forall_numericGauge hP _)⟩,
    forall_present (forall_numericGauge hP _)⟩

theorem forall_eventloopLatency (v : Option Json) : ∀ e ∈ c.eventloopLatency v, P e := by
  unfold MetricContext.eventloopLatency
  exact forall_measurement (fun _ => hP.aggregate _ _) fun _ => hP.aggregate _ _

theorem forall_nodejsReading : ∀ e ∈ c.nodejsReading p, P e := by
  unfold MetricContext.nodejsReading
  simp only [List.forall_mem_append]
  exact ⟨⟨forall_present (forall_averageGauge hP _), forall_present (forall_averageGauge hP _)⟩,
    forall_present (forall_eventloopLatency hP)⟩

theorem forall_threadCount : ∀ e ∈ present (ptr p.threadCount) c.threadCount, P e :=
  forall_present fun _ => forall_measurement (fun _ => hP.replace _ _) fun _ => hP.aggregate _ _

theorem forall_flatReading : ∀ e ∈ c.flatReading p, P e := by
  unfold MetricContext.flatReading MetricContext.flatHeapReading
  simp only [List.forall_mem_append]
  have hgauge := fun title v => forall_present (v := v) (forall_averageGauge hP title)
  exact ⟨⟨⟨⟨forall_present (forall_numericGauge hP _), forall_present (forall_numericGauge hP _)⟩,
    forall_cpuReading hP⟩, ⟨forall_threadCount hP, ⟨⟨hgauge _ _, hgauge _ _⟩, hgauge _ _⟩,
      ⟨hgauge _ _, hgauge _ _⟩, hgauge _ _⟩, forall_gc hP _ _ _⟩, forall_nodejsReading hP⟩

theorem forall_heapReading (heap : String) (h : HeapSizes) : ∀ e ∈ c.heapReading heap h, P e := by
  unfold MetricContext.heapReading
  split_ifs
  · simp only [List.forall_mem_append]
    exact ⟨⟨forall_averageGauge hP _ _, forall_averageGauge hP _ _⟩, forall_averageGauge hP _ _⟩
  · simp

/-- The two collections of a Go process are recorded for the host at the time of the aggregate. -/
theorem forall_nestedReading (hmixed : ∀ n u, P (.update ⟨n, false, u, c.aggTimestamp⟩)) :
    ∀ e ∈ c.nestedReading p, P e := by
  have hmemory : ∀ e ∈ c.memoryReading p, P e := by
    unfold MetricContext.memoryReading
    rw [List.forall_mem_append]
    refine ⟨?_, forall_present (forall_numericGauge hP _)⟩
    split_ifs
    · exact forall_numericGauge hP _ _
    · simp
  have hgolang : ∀ e ∈ c.golangReading p, P e := by
    unfold MetricContext.golangReading
    simp only [List.forall_mem_append]
    refine ⟨⟨forall_present (forall_averageGauge hP _), ?_⟩, forall_present fun _ =>
      forall_measurement (fun _ => hmixed _ _) fun _ => hP.aggregate _ _⟩
    split_ifs
    · rw [List.forall_mem_append]
      exact ⟨forall_measurement (fun _ => hmixed _ _) fun _ => hP.aggregate _ _,
        forall_measurement (fun _ => hP.own _ _) fun _ => hP.aggregate _ _⟩
    · simp
  unfold MetricContext.nestedReading MetricContext.jvmReading
  simp only [List.forall_mem_append]
  exact ⟨⟨⟨⟨hmemory, forall_cpuReading hP⟩, ⟨forall_threadCount hP, forall_heapReading hP _ _,
    forall_heapReading hP _ _⟩, forall_gc hP _ _ _⟩, forall_nodejsReading hP⟩, hgolang⟩

end Kinds

/-- Both readings update the table only. -/
theorem holdsOfKinds_isTableUpdate : HoldsOfKinds c fun e => e.isTableUpdate = true :=
  ⟨fun _ _ => rfl, fun _ _ => rfl, fun _ _ => rfl⟩

theorem table_flatReading : ∀ e ∈ c.flatReading p, e.isTableUpdate = true :=
  forall_flatReading holdsOfKinds_isTableUpdate

theorem table_nestedReading : ∀ e ∈ c.nestedReading p, e.isTableUpdate = true :=
  forall_nestedReading holdsOfKinds_isTableUpdate fun _ _ => rfl

/-! ### Two readings of the time -/

/-- The time of an update is the document's own or that of the aggregate, as its kind asks. -/
def Effect.Stamped (c : MetricContext) : Effect → Prop
  | .update u => u.timestamp = if u.aggregate then c.aggTimestamp else c.timestampMs
  | .replace _ timestamp _ => timestamp = c.timestampMs
  | _ => True

/-- An update of an aggregate. -/
def Effect.IsAggregate : Effect → Prop
  | .update u => u.aggregate = true
  | _ => False

/-- An update at the document's own time. -/
def Effect.IsOwn : Effect → Prop
  | .update u => u.aggregate = false
  | .replace .. => True
  | _ => False

theorem holdsOfKinds_stamped : HoldsOfKinds c (Effect.Stamped c) :=
  ⟨fun _ _ => rfl, fun _ _ => rfl, fun _ _ => rfl⟩

/-- A reading that is not empty has such an update. -/
def HasSome (P : Effect → Prop) (l : List Effect) : Prop := l ≠ [] → ∃ e ∈ l, P e

section HasSome

variable {P : Effect → Prop} {l l' : List Effect}

theorem HasSome.append (h : HasSome P l) (h' : HasSome P l') : HasSome P (l ++ l') := by
  intro hne
  by_cases hl : l = []
  · subst hl
    exact h' hne
  · obtain ⟨e, he, hP⟩ := h hl
    exact ⟨e, List.mem_append_left _ he, hP⟩

theorem hasSome_present {v : Option Json} {f : Option Json → List Effect}
    (h : ∀ v, HasSome P (f v)) : HasSome P (present v f) := by
  unfold present
  split_ifs
  · exact h v
  · exact fun hne => absurd rfl hne

/-- The parts of the flat reading. -/
theorem hasSome_flatReading (hnumeric : ∀ title v, HasSome P (c.numericGauge title v))
    (haverage : ∀ title v, HasSome P (c.averageGauge title v))
    (hthreads : ∀ v, HasSome P (c.threadCount v))
    (hgc : ∀ time count alloc, HasSome P (c.gc time count alloc))
    (hloop : HasSome P (present (ptr p.eventloopDelay) c.eventloopLatency)) :
    HasSome P (c.flatReading p) := by
  have hnum := fun title v => hasSome_present (v := v) (hnumeric title)
  have havg := fun title v => hasSome_present (v := v) (haverage title)
  have hheap : ∀ heap h, HasSome P (c.flatHeapReading heap h) := fun _ _ =>
    ((havg _ _).append (havg _ _)).append (havg _ _)
  have hcpu : HasSome P (c.cpuReading p) := ((hnum _ _).append (hnum _ _)).append (hnum _ _)
  have hnodejs : HasSome P (c.nodejsReading p) := ((havg _ _).append (havg _ _)).append hloop
  exact ((((hnum _ _).append (hnum _ _)).append hcpu).append
    (((hasSome_present hthreads).append ((hheap _ _).append (hheap _ _))).append
      (hgc _ _ _))).append hnodejs

end HasSome

/-- Whatever is read of the flat layout, an aggregate is updated. -/
theorem hasSome_aggregate : HasSome Effect.IsAggregate (c.flatReading p) := by
  have hmeasurement : ∀ title host aggregate, (∀ n, (aggregate n).IsAggregate) →
      HasSome Effect.IsAggregate (c.measurement title host aggregate) :=
    fun title host aggregate h _ => ⟨_, List.mem_append_right _ List.mem_cons_self, h _⟩
  apply hasSome_flatReading
  · exact fun _ _ => hmeasurement _ _ _ fun _ => rfl
  · exact fun _ _ => hmeasurement _ _ _ fun _ => rfl
  · exact fun _ => hmeasurement _ _ _ fun _ => rfl
  · intro time count alloc
    unfold MetricContext.gc
    have halloc : ∀ v, HasSome Effect.IsAggregate (c.gcAlloc v) :=
      fun _ => hmeasurement _ _ _ fun _ => rfl
    have htime : HasSome Effect.IsAggregate (c.gcTime time) := hmeasurement _ _ _ fun _ => rfl
    have hcount : HasSome Effect.IsAggregate (c.gcCount count) := hmeasurement _ _ _ fun _ => rfl
    refine HasSome.append ?_ (hasSome_present halloc)
    split_ifs
    · exact htime.append hcount
    · exact fun hne => absurd rfl hne
  · have hloop : ∀ v, HasSome Effect.IsAggregate (c.eventloopLatency v) := by
      intro v
      unfold MetricContext.eventloopLatency
      exact hmeasurement _ _ _ fun _ => rfl
    exact hasSome_present hloop

/-- The measurements but for the delay of the event loop. -/
def Measurements.withoutEventloop (p : Measurements) : Measurements :=
  { p with eventloopDelay := none }

/-- The delay of the event loop is read last. -/
theorem flatReading_eventloop :
    c.flatReading p = c.flatReading p.withoutEventloop ++
      present (ptr p.eventloopDelay) c.eventloopLatency := by
  have hnone : present (ptr none) c.eventloopLatency = [] := rfl
  unfold MetricContext.flatReading MetricContext.nodejsReading Measurements.withoutEventloop
  simp only [hnone, List.append_nil, List.append_assoc]
  rfl

/-- Where the host's own metrics are collected, whatever else is read is recorded at the
document's own time. -/
theorem hasSome_own (hhost : c.td.collectHostLevelSystem = true) :
    HasSome Effect.IsOwn (c.flatReading p.withoutEventloop) := by
  have hmeasurement : ∀ title host aggregate, (∀ n, (host n).IsOwn) →
      HasSome Effect.IsOwn (c.measurement title host aggregate) := by
    intro title host aggregate h _
    unfold MetricContext.measurement
    rw [if_pos hhost]
    exact ⟨_, List.mem_append_left _ List.mem_cons_self, h _⟩
  apply hasSome_flatReading
  · exact fun _ _ => hmeasurement _ _ _ fun _ => trivial
  · exact fun _ _ => hmeasurement _ _ _ fun _ => trivial
  · exact fun _ => hmeasurement _ _ _ fun _ => trivial
  · intro time count alloc
    unfold MetricContext.gc
    have halloc : ∀ v, HasSome Effect.IsOwn (c.gcAlloc v) :=
      fun _ => hmeasurement _ _ _ fun _ => rfl
    refine HasSome.append ?_ (hasSome_present halloc)
    split_ifs
    · -- the two are recorded together, and the count has the own time
      have hcount : HasSome Effect.IsOwn (c.gcCount count) := hmeasurement _ _ _ fun _ => rfl
      intro _
      obtain ⟨e, he, hown⟩ := hcount
        (List.ne_nil_of_length_pos (by rw [MetricContext.gcCount, length_measurement]
                                       exact perMeasurement_pos c))
      exact ⟨e, List.mem_append_right _ he, hown⟩
    · exact fun hne => absurd rfl hne
  · exact fun hne => absurd rfl hne

/-- Where the host's own metrics are not collected, the own time is not recorded. -/
theorem flatReading_of_not_host (hhost : ¬ c.td.collectHostLevelSystem = true) {t : ℕ} :
    MetricContext.flatReading { c with timestampMs := t } p = c.flatReading p := by
  have hmeasurement : ∀ title host host' aggregate,
      MetricContext.measurement { c with timestampMs := t } title host' aggregate =
        c.measurement title host aggregate := by
    intro title host host' aggregate
    unfold MetricContext.measurement
    dsimp only
    rw [if_neg hhost, if_neg hhost]
  have hnumeric : ∀ title, MetricContext.numericGauge { c with timestampMs := t } title =
      c.numericGauge title := fun _ => funext fun _ => hmeasurement _ _ _ _
  have haverage : ∀ title, MetricContext.averageGauge { c with timestampMs := t } title =
      c.averageGauge title := fun _ => funext fun _ => hmeasurement _ _ _ _
  have hthreads : MetricContext.threadCount { c with timestampMs := t } = c.threadCount :=
    funext fun _ => hmeasurement _ _ _ _
  have hcount : MetricContext.gcCount { c with timestampMs := t } = c.gcCount :=
    funext fun _ => hmeasurement _ _ _ _
  have halloc : MetricContext.gcAlloc { c with timestampMs := t } = c.gcAlloc :=
    funext fun _ => hmeasurement _ _ _ _
  have htime : MetricContext.gcTime { c with timestampMs := t } = c.gcTime := rfl
  have hloop : MetricContext.eventloopLatency { c with timestampMs := t } = c.eventloopLatency :=
    rfl
  unfold MetricContext.flatReading MetricContext.cpuReading MetricContext.flatHeapReading
    MetricContext.nodejsReading MetricContext.gc
  rw [hthreads, hcount, halloc, htime, hloop]
  simp only [hnumeric, haverage]

/-- Two calls that read the times `c` and `c'` record the measurements at the same times: they
agree on the time of the aggregate, and where anything is recorded at the document's own time, on
this time. -/
structure SameTimes (p : Measurements) (c c' : MetricContext) : Prop where
  aggregate : c.aggTimestamp = c'.aggTimestamp
  own : c.td.collectHostLevelSystem = true → ¬ p.withoutEventloop.Blank →
    c.timestampMs = c'.timestampMs

/-- Two readings of the same measurements, which differ at most in the times. -/
theorem flatReading_eq_iff {t a : ℕ} :
    c.flatReading p =
        MetricContext.flatReading { c with timestampMs := t, aggTimestamp := a } p ↔
      p.Blank ∨ SameTimes p c { c with timestampMs := t, aggTimestamp := a } := by
  constructor
  · intro heq
    by_cases hblank : p.Blank
    · exact .inl hblank
    have hstamped := forall_flatReading (p := p) (holdsOfKinds_stamped (c := c))
    have hstamped' := forall_flatReading (p := p)
      (holdsOfKinds_stamped (c := { c with timestampMs := t, aggTimestamp := a }))
    rw [← heq] at hstamped'
    refine .inr ⟨?_, fun hhost hother => ?_⟩
    · obtain ⟨e, he, hagg⟩ := hasSome_aggregate (mt flatReading_eq_nil_iff.1 hblank)
      have h := hstamped e he
      have h' := hstamped' e he
      cases e <;> simp only [Effect.IsAggregate] at hagg
      simp only [Effect.Stamped, hagg, if_true] at h h'
      exact h.symm.trans h'
    · obtain ⟨e, he, hown⟩ := hasSome_own hhost (mt flatReading_eq_nil_iff.1 hother)
      have hmem : e ∈ c.flatReading p := by
        rw [flatReading_eventloop]
        exact List.mem_append_left _ he
      have h := hstamped e hmem
      have h' := hstamped' e hmem
      cases e <;> simp only [Effect.IsOwn] at hown
      · simp only [Effect.Stamped, hown, Bool.false_eq_true, if_false] at h h'
        exact h.symm.trans h'
      · exact h.symm.trans h'
  · rintro (hblank | ⟨rfl, hown⟩)
    · rw [flatReading_eq_nil_iff.2 hblank, flatReading_eq_nil_iff.2 hblank]
    · by_cases hhost : c.td.collectHostLevelSystem = true
      · by_cases hother : p.withoutEventloop.Blank
        · rw [flatReading_eventloop, flatReading_eventloop (c := { c with timestampMs := t }),
            flatReading_eq_nil_iff.2 hother, flatReading_eq_nil_iff.2 hother]
          rfl
        · obtain rfl := hown hhost hother
          rfl
      · exact (flatReading_of_not_host hhost).symm

theorem length_gc (time count alloc : Option Value) :
    (c.gc (ptr time) (ptr count) (ptr alloc)).length =
      ((if time.isSome ∧ count.isSome then 2 else 0) + alloc.isSome.toNat) *
        c.perMeasurement := by
  unfold MetricContext.gc
  rw [List.length_append, length_present (f := c.gcAlloc) fun _ => length_measurement ..,
    isSome_ptr, isSome_ptr, add_mul]
  congr 1
  split_ifs
  · rw [List.length_append, MetricContext.gcTime, MetricContext.gcCount, length_measurement,
      length_measurement, two_mul]
  · rw [zero_mul, List.length_nil]

/-- The times make no difference to how much is read. -/
theorem length_flatReading_congr {t a : ℕ} :
    (MetricContext.flatReading { c with timestampMs := t, aggTimestamp := a } p).length =
      (c.flatReading p).length := by
  unfold MetricContext.flatReading MetricContext.cpuReading MetricContext.flatHeapReading
    MetricContext.nodejsReading
  simp only [List.length_append, length_present (length_numericGauge _),
    length_present (length_averageGauge _), length_present length_eventloopLatency, length_gc,
    length_present (f := MetricContext.threadCount _) fun _ => length_measurement ..]
  rfl

/-- The nested reading at one time, and the flat one at another. -/
theorem nestedReading_eq_flatReading_iff {t a : ℕ} :
    c.nestedReading p =
        MetricContext.flatReading { c with timestampMs := t, aggTimestamp := a } p ↔
      p.Complete ∧ p.NoGolang ∧
        (p.Blank ∨ SameTimes p c { c with timestampMs := t, aggTimestamp := a }) := by
  constructor
  · intro h
    have hlen : (c.nestedReading p).length = (c.flatReading p).length := by
      rw [h, length_flatReading_congr]
    obtain ⟨hcomplete, hgolang⟩ := complete_of_length_nestedReading hlen
    refine ⟨hcomplete, hgolang, flatReading_eq_iff.1 ?_⟩
    rw [← nestedReading_eq_iff.2 ⟨hcomplete, hgolang⟩, h]
  · rintro ⟨hcomplete, hgolang, htimes⟩
    rw [nestedReading_eq_iff.2 ⟨hcomplete, hgolang⟩]
    exact flatReading_eq_iff.2 htimes

end Reading

end Tracemate.Process
