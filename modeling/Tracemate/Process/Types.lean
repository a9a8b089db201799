import Tracemate.Metric.Types
import Tracemate.Process.Isolation

/-!
# The types of the metrics of a document

The name of a metric starts with a constant, and every constant stands for entries of one type, for
either value of the flag `immediate_flush`.  No constant of one type goes on as one of another type,
so that the texts behind it, which may be any, make no difference.

* `stems`, `typeOf`: the typing of the names;
* `Decisive`: what a name starts with, if it is enough to tell the type;
* `Effect.Typed`: an effect that keeps the types;
* `typed_processDocument`: all effects of all documents do;
* `typed_buildRollupKey`: the names of the rollups of a histogram are names of numbers.
-/

namespace Tracemate.Process

open CStr JsonC COutcome Outcome Tracemate.Metric

/-! ### Names -/

/-- What the names start with whose entries are no numbers. -/
def ownStems : List (Bytes × MetricType) :=
  [(cstr "transaction - latency", .histogram),
    (cstr "db - latency", .histogram),
    (cstr "external - latency", .histogram),
    (cstr "internal - latency", .histogram),
    (cstr "nodejs - eventloop - latency", .histogram),
    (cstr "transaction - request_count", .integer),
    (cstr "transaction - client_error_count", .integer),
    (cstr "transaction - server_error_count", .integer),
    (cstr "transaction - error_count", .integer),
    (cstr "transaction - apm_error_count", .integer),
    (cstr "db - stmt_count", .integer),
    (cstr "external - call_count", .integer),
    (cstr "internal - call_count", .integer),
    (cstr "intternal - call_count", .integer),
    (cstr "golang - memory - gc - total_pause_ns", .integer),
    (cstr "golang - memory - gc - total_count", .integer),
    (cstr "transaction - status_code", .text)]

/-- The same of those entries only that are flushed at once; the aggregates are numbers. -/
def hostStems : List (Bytes × MetricType) :=
  [(cstr "jvm - memory - gc - count", .integer), (cstr "jvm - thread - count", .integer)]

def stems (immediateFlush : Bool) : List (Bytes × MetricType) :=
  ownStems ++ if immediateFlush then hostStems else []

/-- The type of the entries with a name. -/
def typeOf : Typing := fun name immediateFlush =>
  ((stems immediateFlush).find? fun e => e.1 <+: name).elim .number Prod.snd

/-- A name that starts with `p` starts with what `p` starts with, and with nothing longer. -/
def Decisive (immediateFlush : Bool) (p : Bytes) : Prop :=
  ∀ e ∈ stems immediateFlush, p <+: e.1 → e.1 <+: p

variable {imm : Bool} {p name stem text tags : Bytes}

theorem typeOf_eq_of_start (hp : Decisive imm p) (hname : p <+: name) :
    typeOf name imm = typeOf p imm := by
  have hsame : ∀ e ∈ stems imm, (e.1 <+: name ↔ e.1 <+: p) := by
    intro e he
    constructor
    · intro hpre
      rcases List.prefix_or_prefix_of_prefix hpre hname with h | h
      · exact h
      · exact hp e he h
    · intro hpre
      exact hpre.trans hname
  have hfind : (stems imm).find? (fun e => decide (e.1 <+: name)) =
      (stems imm).find? fun e => decide (e.1 <+: p) := by
    apply List.find?_congr
    intro e he
    rw [decide_eq_decide]
    exact hsame e he
  unfold typeOf
  rw [hfind]

/-- The constant tells the type, also of names that are cut to their buffer. -/
structure Names (imm : Bool) (stem : Bytes) (type : MetricType) : Prop where
  decisive : Decisive imm stem
  type : typeOf stem imm = type
  short : stem.length ≤ 4094

theorem names_iff {type : MetricType} : Names imm stem type ↔
    (∀ e ∈ stems imm, stem <+: e.1 → e.1 <+: stem) ∧
      ((stems imm).find? fun e => e.1 <+: stem).elim .number Prod.snd = type ∧
      stem.length ≤ 4094 :=
  ⟨fun h => ⟨h.decisive, h.type, h.short⟩, fun h => ⟨h.1, h.2.1, h.2.2⟩⟩

/-- A text that starts with the constant keeps it when it is cut. -/
theorem Names.typeOf_take {type : MetricType} (h : Names imm stem type) (hname : stem <+: name)
    {n : ℕ} (hn : 4094 ≤ n) : typeOf (name.take n) imm = type := by
  have hcut : stem <+: name.take n := by
    rw [List.prefix_take_iff]
    exact ⟨hname, h.short.trans hn⟩
  rw [typeOf_eq_of_start h.decisive hcut, h.type]

theorem Names.typeOf_metricName {type : MetricType} (h : Names imm stem type) (text tags : Bytes) :
    typeOf (MetricName.metricName ⟨stem, text, tags⟩) imm = type := by
  apply h.typeOf_take _ le_rfl
  unfold MetricName.formatted
  simp

/-- The stems of latencies. -/
theorem names_latency : ∀ stem ∈ [cstr "transaction - latency - ", cstr "db - latency - ",
    cstr "external - latency - ", cstr "internal - latency - ",
    cstr "nodejs - eventloop - latency"], Names false stem .histogram := by
  simp (disch := exact rfl) only [names_iff, stems, ownStems, hostStems, cstr_ofList]
  decide

/-- The stems of counters, which have the same type for the host and for the aggregate. -/
theorem names_count : ∀ stem ∈ [cstr "transaction - apm_error_count", cstr "db - stmt_count - ",
    cstr "external - call_count - ", cstr "internal - call_count - ",
    cstr "intternal - call_count - ", cstr "golang - memory - gc - total_pause_ns",
    cstr "golang - memory - gc - total_count"], ∀ imm, Names imm stem .integer := by
  simp (disch := exact rfl) only [names_iff, stems, ownStems, hostStems, cstr_ofList]
  decide

theorem names_number : ∀ title ∈ numberTitles, ∀ imm, Names imm title .number := by
  simp (disch := exact rfl) only [names_iff, stems, ownStems, hostStems, cstr_ofList,
    numberTitles, List.map]
  decide

theorem names_statusCode : Names true (cstr "transaction - status_code - ") .text := by
  simp (disch := exact rfl) only [names_iff, stems, ownStems, hostStems, cstr_ofList]
  decide

/-- What is an integer for the host and a number for the aggregate. -/
theorem names_jvm : ∀ title ∈ [cstr "jvm - memory - gc - count", cstr "jvm - thread - count"],
    Names true title .integer ∧ Names false title .number := by
  simp (disch := exact rfl) only [names_iff, stems, ownStems, hostStems, cstr_ofList]
  decide

/-! ### Effects -/

/-- The key of an entry that is replaced. -/
def replaceKey (name : MetricName) (timestamp : ℕ) : MetricKey :=
  { makeMetricKey name.metricName timestamp with immediateFlush := true }

/-- What is done to the table is done under a key for its type. -/
def Effect.Typed : Effect → Prop
  | .update u => u.key.Holds typeOf u.update.type
  | .replace name timestamp metric => (replaceKey name timestamp).Holds typeOf metric.type
  | _ => True

variable {timestamp : ℕ}

theorem typed_updateHistogram {durationUs : ℕ} (h : Names false stem .histogram) :
    (Effect.updateHistogram ⟨stem, text, tags⟩ durationUs timestamp).Typed where
  type := (h.typeOf_metricName text tags).symm
  flag _ := rfl

theorem typed_updateCounter {aggregate : Bool} {count : ℕ} (h : Names (!aggregate) stem .integer) :
    (Effect.updateCounter ⟨stem, text, tags⟩ aggregate count timestamp).Typed where
  type := (h.typeOf_metricName text tags).symm
  flag := by
    rintro ⟨rfl⟩
    rfl

theorem typed_updateText {str : Bytes} (h : Names true stem .text) :
    (Effect.updateText ⟨stem, text, tags⟩ str timestamp).Typed where
  type := (h.typeOf_metricName text tags).symm
  flag haggregate := by cases haggregate

theorem typed_updateNumeric {aggregate : Bool} {value : ℚ} (h : Names (!aggregate) stem .number) :
    (Effect.updateNumeric ⟨stem, text, tags⟩ aggregate value timestamp).Typed where
  type := (h.typeOf_metricName text tags).symm
  flag := by
    rintro ⟨rfl⟩
    rfl

theorem typed_updateAverage {aggregate : Bool} {value : ℚ} (h : Names (!aggregate) stem .number) :
    (Effect.updateAverage ⟨stem, text, tags⟩ aggregate value timestamp).Typed where
  type := (h.typeOf_metricName text tags).symm
  flag := by
    rintro ⟨rfl⟩
    rfl

theorem typed_replace {metric : Payload} (h : Names true stem metric.type) :
    (Effect.replace ⟨stem, text, tags⟩ timestamp metric).Typed where
  type := (h.typeOf_metricName text tags).symm
  flag haggregate := by cases haggregate

/-! ### Transactions -/

section Transaction

variable {t : Transaction} {aggTimestamp : ℕ} {env : Env} {m : Option Json}

theorem typed_latency : (t.latency aggTimestamp text tags).Typed :=
  typed_updateHistogram (names_latency _ (by simp))

/-- The four counters of transactions. -/
theorem typed_count {what : Bytes}
    (hwhat : what ∈ [cstr "request_count", cstr "error_count", cstr "client_error_count",
      cstr "server_error_count"]) :
    (Transaction.count aggTimestamp what text tags).Typed := by
  apply typed_updateCounter
  simp only [List.mem_cons, List.not_mem_nil, or_false] at hwhat
  rcases hwhat with rfl | rfl | rfl | rfl
  all_goals
    simp (disch := exact rfl) only [names_iff, stems, ownStems, hostStems, cstr_ofList]
    decide

theorem typed_markService (type : ServiceType) : ∀ e ∈ t.markService type, e.Typed := by
  unfold Transaction.markService
  split_ifs <;> simp [Effect.Typed]

theorem typed_nameUpdates (name : Bytes) : ∀ e ∈ t.nameUpdates aggTimestamp name, e.Typed := by
  unfold Transaction.nameUpdates
  simp only [List.forall_mem_append, List.forall_mem_cons]
  refine ⟨⟨typed_latency, typed_latency, typed_count (by simp), typed_count (by simp), by simp⟩, ?_⟩
  split_ifs
  · rw [List.forall_mem_singleton]
    exact typed_latency
  · simp

variable {cleanPath meth : Bytes} {userAgent : Option Bytes} {statCode : ℤ}

theorem typed_errorUpdates {what : Bytes}
    (hwhat : what ∈ [cstr "client_error_count", cstr "server_error_count"]) :
    ∀ e ∈ t.errorUpdates aggTimestamp what cleanPath meth userAgent, e.Typed := by
  have hwhat' : what ∈ [cstr "request_count", cstr "error_count", cstr "client_error_count",
      cstr "server_error_count"] := List.mem_of_mem_drop (i := 2) hwhat
  have herror : cstr "error_count" ∈ [cstr "request_count", cstr "error_count",
      cstr "client_error_count", cstr "server_error_count"] := by simp
  unfold Transaction.errorUpdates
  simp only [List.forall_mem_append, List.forall_mem_cons]
  refine ⟨⟨typed_count hwhat', typed_count herror, typed_count hwhat', typed_count herror,
    by simp⟩, ?_⟩
  cases userAgent with
  | none => simp
  | some u =>
    simp only [List.forall_mem_cons]
    exact ⟨typed_count hwhat', typed_count herror, typed_count hwhat', typed_count herror, by simp⟩

theorem typed_hostUpdates :
    ∀ e ∈ t.hostUpdates aggTimestamp cleanPath meth statCode, e.Typed := by
  unfold Transaction.hostUpdates
  simp only [List.forall_mem_cons]
  exact ⟨typed_updateText names_statusCode, typed_latency, by simp⟩

theorem typed_requestUpdates :
    ∀ e ∈ t.requestUpdates aggTimestamp cleanPath meth userAgent statCode, e.Typed := by
  unfold Transaction.requestUpdates
  simp only [List.forall_mem_append, List.forall_mem_cons]
  refine ⟨⟨⟨⟨⟨⟨typed_latency, typed_latency, by simp⟩, ?_⟩, ?_⟩, ⟨typed_count (by simp),
    typed_count (by simp), by simp⟩⟩, ?_⟩, ?_⟩
  · split_ifs
    · exact typed_errorUpdates (by simp)
    · simp
  · split_ifs
    · exact typed_errorUpdates (by simp)
    · simp
  · cases userAgent with
    | none => simp
    | some u =>
      rw [List.forall_mem_singleton]
      exact typed_count (by simp)
  · split_ifs
    · exact typed_hostUpdates
    · simp

/-- What stores the document leaves the table alone. -/
theorem typed_storeTransaction (serviceName traceId : Bytes) (durationUs : ℕ)
    (path : Option Bytes) :
    ∀ e ∈ storeTransaction env m serviceName traceId durationUs path, e.Typed := by
  unfold storeTransaction
  dsimp only
  rw [apply_ite (fun l : List Effect => ∀ e ∈ l, e.Typed)]
  split_ifs <;> simp [Effect.Typed]

end Transaction

/-! ### Spans and errors -/

section Span

variable {s : Span} {aggTimestamp : ℕ}

theorem typed_spanLatency (hstem : stem ∈ [cstr "db - latency - ", cstr "external - latency - ",
    cstr "internal - latency - "]) : (s.latency aggTimestamp stem text tags).Typed := by
  apply typed_updateHistogram
  apply names_latency
  exact List.mem_cons_of_mem _ (List.mem_append_left [_] hstem)

theorem typed_spanCount (hstem : stem ∈ [cstr "db - stmt_count - ", cstr "external - call_count - ",
    cstr "internal - call_count - ", cstr "intternal - call_count - "]) :
    (Span.count aggTimestamp stem text tags).Typed := by
  apply typed_updateCounter
  apply names_count
  exact List.mem_cons_of_mem _ (List.mem_append_left [_, _] hstem)

theorem typed_dbUpdates (operation : Bytes) (subtype : Option Bytes) :
    ∀ e ∈ s.dbUpdates aggTimestamp operation subtype, e.Typed := by
  unfold Span.dbUpdates
  simp only [List.forall_mem_append, List.forall_mem_cons]
  refine ⟨⟨⟨⟨typed_spanLatency (by simp), by simp⟩, ?_⟩, ?_⟩, typed_spanLatency (by simp),
    typed_spanCount (by simp), by simp⟩
  · split_ifs
    · simp only [List.forall_mem_cons]
      exact ⟨typed_spanLatency (by simp), typed_spanCount (by simp), by simp⟩
    · simp
  · cases subtype with
    | none => simp
    | some b =>
      simp only [List.forall_mem_cons]
      exact ⟨typed_spanLatency (by simp), typed_spanCount (by simp), typed_spanLatency (by simp),
        typed_spanCount (by simp), by simp⟩

theorem typed_externalUpdates (externalName : Bytes) :
    ∀ e ∈ s.externalUpdates aggTimestamp externalName, e.Typed := by
  unfold Span.externalUpdates
  simp only [List.forall_mem_append, List.forall_mem_cons]
  refine ⟨⟨⟨typed_spanLatency (by simp), typed_spanLatency (by simp), by simp⟩, ?_⟩,
    typed_spanCount (by simp), by simp⟩
  split_ifs
  · simp only [List.forall_mem_cons]
    exact ⟨typed_spanLatency (by simp), typed_spanCount (by simp), by simp⟩
  · simp

theorem typed_internalUpdates (spanName : Bytes) :
    ∀ e ∈ s.internalUpdates aggTimestamp spanName, e.Typed := by
  unfold Span.internalUpdates
  simp only [List.forall_mem_append, List.forall_mem_cons]
  refine ⟨⟨typed_spanLatency (by simp), typed_spanLatency (by simp), typed_spanCount (by simp),
    typed_spanCount (by simp), by simp⟩, ?_⟩
  split_ifs
  · simp only [List.forall_mem_cons]
    exact ⟨typed_spanLatency (by simp), typed_spanCount (by simp), by simp⟩
  · simp

end Span

/-! ### Metric documents -/

section Metric

variable {c : MetricContext} {title : Bytes}

theorem typed_present {v : Option Json} {f : Option Json → List Effect}
    (h : ∀ v, ∀ e ∈ f v, e.Typed) : ∀ e ∈ present v f, e.Typed := by
  unfold present
  split_ifs
  · exact h v
  · simp

/-- The two updates for a measurement. -/
theorem typed_measurement {host aggregate : MetricName → Effect}
    (hhost : ∀ tags, (host ⟨title, [], tags⟩).Typed)
    (haggregate : ∀ tags, (aggregate ⟨title, [], tags⟩).Typed) :
    ∀ e ∈ c.measurement title host aggregate, e.Typed := by
  unfold MetricContext.measurement
  rw [List.forall_mem_append, List.forall_mem_singleton]
  constructor
  · split_ifs
    · rw [List.forall_mem_singleton]
      exact hhost _
    · simp
  · exact haggregate _

theorem typed_numericGauge (h : title ∈ numberTitles) (v : Option Json) :
    ∀ e ∈ c.numericGauge title v, e.Typed :=
  typed_measurement (fun _ => typed_replace (names_number title h true)) fun _ =>
    typed_updateNumeric (names_number title h false)

theorem typed_averageGauge (h : title ∈ numberTitles) (v : Option Json) :
    ∀ e ∈ c.averageGauge title v, e.Typed :=
  typed_measurement (fun _ => typed_replace (names_number title h true)) fun _ =>
    typed_updateAverage (names_number title h false)

theorem typed_threadCount (v : Option Json) : ∀ e ∈ c.threadCount v, e.Typed := by
  have hstem := names_jvm (cstr "jvm - thread - count") (by simp)
  exact typed_measurement (fun _ => typed_replace hstem.1) fun _ => typed_updateNumeric hstem.2

theorem typed_eventloopLatency (v : Option Json) : ∀ e ∈ c.eventloopLatency v, e.Typed := by
  have hstem := names_latency (cstr "nodejs - eventloop - latency") (by simp)
  unfold MetricContext.eventloopLatency
  exact typed_measurement (fun _ => typed_updateHistogram hstem) fun _ =>
    typed_updateHistogram hstem

/-- The number of collections is a counter for the host, and an average for the aggregate. -/
theorem typed_gcCount (v : Option Json) : ∀ e ∈ c.gcCount v, e.Typed := by
  have hstem := names_jvm (cstr "jvm - memory - gc - count") (by simp)
  exact typed_measurement (fun _ => typed_updateCounter hstem.1) fun _ =>
    typed_updateAverage hstem.2

theorem typed_gc (time count alloc : Option Json) : ∀ e ∈ c.gc time count alloc, e.Typed := by
  have htime := names_number (cstr "jvm - memory - gc - total_latency") (by simp [numberTitles])
  have halloc := names_number (cstr "jvm - memory - gc - alloc") (by simp [numberTitles])
  unfold MetricContext.gc
  rw [List.forall_mem_append]
  constructor
  · split_ifs
    · rw [List.forall_mem_append]
      exact ⟨typed_measurement (fun _ => typed_updateNumeric (htime false)) fun _ =>
        typed_updateNumeric (htime false), typed_gcCount count⟩
    · simp
  · exact typed_present fun v => typed_measurement (fun _ => typed_updateNumeric (halloc true))
      fun _ => typed_updateAverage (halloc false)

theorem typed_flatUpdates (m : Option Json) : ∀ e ∈ c.flatUpdates m, e.Typed := by
  unfold MetricContext.flatUpdates
  simp only [List.forall_mem_append]
  and_intros
  all_goals first
    | with_reducible exact typed_present (typed_numericGauge (by simp [numberTitles]))
    | with_reducible exact typed_present (typed_averageGauge (by simp [numberTitles]))
    | with_reducible exact typed_present typed_threadCount
    | with_reducible exact typed_present typed_eventloopLatency
    | exact typed_gc _ _ _

theorem typed_cpuTotal {title : String} (h : cstr title ∈ numberTitles) (cpu : Option Json) :
    ∀ e ∈ c.cpuTotal title cpu, e.Typed :=
  typed_present fun _ => typed_present fun _ => typed_present fun _ => typed_numericGauge h _

theorem typed_systemUpdates (system : Option Json) :
    ∀ e ∈ c.systemUpdates system, e.Typed := by
  unfold MetricContext.systemUpdates
  simp only [List.forall_mem_append]
  refine ⟨⟨typed_present fun mem => ?_, typed_present fun process => ?_⟩,
    typed_cpuTotal (by simp [numberTitles]) _⟩
  · rw [List.forall_mem_append]
    exact ⟨typed_numericGauge (by simp [numberTitles]) _,
      typed_present fun _ => typed_numericGauge (by simp [numberTitles]) _⟩
  · rw [List.forall_mem_append]
    exact ⟨typed_cpuTotal (by simp [numberTitles]) _,
      typed_present fun _ => typed_numericGauge (by simp [numberTitles]) _⟩

theorem typed_heapUpdates {heap : String} (hheap : heap = "heap" ∨ heap = "non_heap")
    (v : Option Json) : ∀ e ∈ c.heapUpdates heap v, e.Typed := by
  apply typed_present
  intro v
  simp only [List.forall_mem_append]
  rcases hheap with rfl | rfl <;>
    exact ⟨⟨typed_averageGauge (by simp [numberTitles]) _,
      typed_averageGauge (by simp [numberTitles]) _⟩,
      typed_averageGauge (by simp [numberTitles]) _⟩

theorem typed_jvmUpdates (jvm : Option Json) : ∀ e ∈ c.jvmUpdates jvm, e.Typed := by
  unfold MetricContext.jvmUpdates
  simp only [List.forall_mem_append]
  refine ⟨⟨typed_present fun _ => typed_present typed_threadCount, typed_present fun mem => ?_⟩,
    typed_present fun _ => typed_gc _ _ _⟩
  rw [List.forall_mem_append]
  exact ⟨typed_heapUpdates (.inl rfl) _, typed_heapUpdates (.inr rfl) _⟩

theorem typed_nodejsUpdates (nodejs : Option Json) : ∀ e ∈ c.nodejsUpdates nodejs, e.Typed := by
  unfold MetricContext.nodejsUpdates
  simp only [List.forall_mem_append]
  refine ⟨typed_present fun heap => ?_, typed_present typed_eventloopLatency⟩
  rw [List.forall_mem_append]
  exact ⟨typed_present (typed_averageGauge (by simp [numberTitles])),
    typed_present (typed_averageGauge (by simp [numberTitles]))⟩

/-- The two counters of the collections of a Go process. -/
theorem typed_golangGc (totalPauseNs count : Option Json) :
    ∀ e ∈ c.totalPause totalPauseNs ++ c.totalCount count, e.Typed := by
  have hpause := names_count (cstr "golang - memory - gc - total_pause_ns") (by simp)
  have hcount := names_count (cstr "golang - memory - gc - total_count") (by simp)
  rw [List.forall_mem_append]
  exact ⟨typed_measurement (fun _ => typed_updateCounter (hpause true)) fun _ =>
      typed_updateCounter (hpause false),
    typed_measurement (fun _ => typed_updateCounter (hcount true)) fun _ =>
      typed_updateCounter (hcount false)⟩

theorem typed_goroutines (v : Option Json) : ∀ e ∈ c.goroutines v, e.Typed := by
  have h := names_number (cstr "golang - goroutines") (by simp [numberTitles])
  exact typed_measurement (fun _ => typed_updateAverage (h true)) fun _ =>
    typed_updateAverage (h false)

theorem typed_golangUpdates (golang : Option Json) : ∀ e ∈ c.golangUpdates golang, e.Typed := by
  unfold MetricContext.golangUpdates
  simp only [List.forall_mem_append]
  refine ⟨⟨typed_present (typed_averageGauge (by simp [numberTitles])), ?_⟩,
    typed_present typed_goroutines⟩
  split_ifs
  · exact typed_golangGc _ _
  · simp

theorem typed_nestedUpdates (m : Option Json) : ∀ e ∈ c.nestedUpdates m, e.Typed := by
  unfold MetricContext.nestedUpdates
  simp only [List.forall_mem_append]
  exact ⟨⟨⟨typed_systemUpdates _, typed_jvmUpdates _⟩, typed_nodejsUpdates _⟩,
    typed_golangUpdates _⟩

end Metric

/-! ### Documents -/

section Document

variable {env : Env} {m : Option Json}

theorem typed_sendUrl (serviceName : Bytes) (url : Option Bytes) :
    ∀ e ∈ (url.map (Effect.sendUrl serviceName)).toList, e.Typed := by
  cases url <;> simp [Effect.Typed]

/-- The branch for requests. -/
theorem typed_processRequest (t : Transaction) (trans : Option Json) :
    (processRequest env m t trans).Yields fun b => ∀ e ∈ b.effects, e.Typed := by
  have hmarks : ∀ e ∈ t.markService .transactional, e.Typed := typed_markService _
  intro branch hbranch
  rcases processRequest_cases hbranch with
    ⟨e, he, rfl⟩ | ⟨req, meth, cleanPath, url, aggTimestamp, statCode, -, -, -, -, rfl⟩
  · rw [List.forall_mem_append, List.forall_mem_singleton]
    refine ⟨hmarks, ?_⟩
    obtain rfl | rfl := List.mem_pair.1 he <;> trivial
  · simp only [List.forall_mem_append]
    exact ⟨⟨hmarks, typed_sendUrl _ url⟩, typed_requestUpdates⟩

theorem typed_processNamed (t : Transaction) (trans : Option Json) (type : ServiceType) :
    (processNamed env t trans type).Yields fun b => ∀ e ∈ b.effects, e.Typed := by
  unfold processNamed
  apply yields_bind
  intro aggTimestamp hcenter
  rw [yields_ok, List.forall_mem_append]
  exact ⟨typed_markService type, typed_nameUpdates _⟩

theorem typed_processByType (t : Transaction) (trans : Option Json) (type : Bytes) :
    (processByType env m t trans type).Yields fun b => ∀ e ∈ b.effects, e.Typed := by
  unfold processByType
  split_ifs with hmessage hscheduled hrequest hload
  · exact typed_processNamed t trans _
  · exact typed_processNamed t trans _
  · exact typed_processRequest t trans
  · exact yields_ok.2 (typed_markService _)
  · simp

theorem typed_processTransactionMessage :
    (processTransactionMessage env m).Yields fun effects => ∀ e ∈ effects, e.Typed := by
  unfold processTransactionMessage
  apply yields_bind
  rintro (_ | prepared) hprepared
  · exact yields_error
  apply yields_bind
  intro aggTagString hagg
  dsimp only
  split
  · apply yields_bind
    intro type htype
    apply yields_bind
    intro branch hbranch
    have heffects := typed_processByType _ _ _ _ hbranch
    split_ifs
    · exact yields_ok.2 heffects
    · rw [yields_ok, List.forall_mem_append]
      exact ⟨heffects, typed_storeTransaction _ _ _ _⟩
  · simp [Effect.Typed]

theorem typed_processSpan (s : Span) (span : Option Json) (type : Bytes) :
    (processSpan env m s span type).Yields fun effects => ∀ e ∈ effects, e.Typed := by
  unfold processSpan
  dsimp only
  split_ifs with hdb hexternal hinternal
  · apply yields_bind
    intro aggTimestamp hcenter
    apply yields_bind
    intro subtype hsubtype
    exact yields_ok.2 (typed_dbUpdates _ _)
  · apply yields_bind
    rintro ⟨externalName, url⟩ hclean
    apply yields_bind
    intro aggTimestamp hcenter
    rw [yields_ok, List.forall_mem_append]
    exact ⟨typed_sendUrl _ url, typed_externalUpdates _⟩
  · apply yields_bind
    intro aggTimestamp hcenter
    exact yields_ok.2 (typed_internalUpdates _)
  · simp

theorem typed_processSpanMessage :
    (processSpanMessage env m).Yields fun effects => ∀ e ∈ effects, e.Typed := by
  unfold processSpanMessage
  apply yields_bind
  rintro (_ | prepared) hprepared
  · exact yields_error
  dsimp only
  split
  · simp
  apply yields_bind
  intro aggTagString hagg
  split
  · simp
  split
  · simp
  split
  · simp [Effect.Typed]
  apply yields_bind
  intro type htype
  apply yields_bind
  intro updates hupdates
  rw [yields_ok, List.forall_mem_cons]
  exact ⟨trivial, typed_processSpan _ _ _ _ hupdates⟩

theorem typed_processErrorMessage :
    (processErrorMessage env m).Yields fun effects => ∀ e ∈ effects, e.Typed := by
  have hstem := names_count (cstr "transaction - apm_error_count") (by simp) false
  unfold processErrorMessage
  apply yields_bind
  rintro (_ | prepared) hprepared
  · exact yields_error
  apply yields_bind
  intro aggTagString hagg
  dsimp only
  split
  · apply yields_bind
    intro traceId htrace
    apply yields_bind
    intro aggTimestamp hcenter
    rw [yields_ok]
    simp only [List.forall_mem_append, List.forall_mem_singleton, List.forall_mem_cons]
    refine ⟨⟨⟨trivial, trivial⟩, ?_⟩, typed_updateCounter hstem⟩
    split_ifs
    · rw [List.forall_mem_singleton]
      exact typed_updateCounter hstem
    · simp
  · simp [Effect.Typed]

theorem typed_agentEffects (td : TeamData) (serviceName : Bytes) :
    ∀ e ∈ agentEffects env m td serviceName, e.Typed := by
  unfold agentEffects
  dsimp only
  split <;> simp [Effect.Typed]

theorem typed_processMetricMessage :
    (processMetricMessage env m).Yields fun effects => ∀ e ∈ effects, e.Typed := by
  unfold processMetricMessage
  apply yields_bind
  rintro (_ | prepared) hprepared
  · simp
  apply yields_bind
  intro aggTagString hagg
  dsimp only
  split
  · simp [Effect.Typed]
  apply yields_bind
  intro aggTimestamp hcenter
  split_ifs
  · exact yields_ok.2 (typed_flatUpdates m)
  · rw [yields_ok, List.forall_mem_append]
    exact ⟨typed_agentEffects _ _, typed_nestedUpdates m⟩

/-- Whatever is done to a table for a document is done under a key for its type. -/
theorem typed_processDocument (kind : DocumentKind) :
    (processDocument env m kind).Yields fun effects => ∀ e ∈ effects, e.Typed := by
  cases kind with
  | transaction => exact typed_processTransactionMessage
  | span => exact typed_processSpanMessage
  | error => exact typed_processErrorMessage
  | metric => exact typed_processMetricMessage

end Document

/-! ### Rollups -/

/-- What the names of histograms have in front of `- latency`. -/
def latencyStems : List Bytes :=
  [cstr "transaction ", cstr "db ", cstr "external ", cstr "internal ", cstr "nodejs - eventloop "]

/-- What takes the place of `- latency` in the names of the rollups. -/
def rollupWords : List Bytes :=
  [cstr "- average_latency", cstr "- min_latency", cstr "- p95_latency", cstr "- p99_latency",
    cstr "- max_latency", cstr "- stddev_latency"]

theorem map_fst_rollups (stats : HistStatistics) (h : Multiset ℕ) :
    (rollups stats h).map Prod.fst = rollupWords := rfl

theorem mem_rollupWords_of_mem {stats : HistStatistics} {h : Multiset ℕ} {e : Bytes × Statistic}
    (he : e ∈ rollups stats h) : e.1 ∈ rollupWords := by
  rw [← map_fst_rollups stats h]
  exact List.mem_map_of_mem he

theorem exists_mem_rollups (stats : HistStatistics) (h : Multiset ℕ) {word : Bytes}
    (hword : word ∈ rollupWords) : ∃ e ∈ rollups stats h, e.1 = word := by
  rw [← map_fst_rollups stats h] at hword
  exact List.mem_map.1 hword

/-- The stems of histograms; `- latency` is there for the first time at their end. -/
theorem latencyStems_spec :
    (∀ e ∈ stems false, e.2 = .histogram → ∃ pre ∈ latencyStems, e.1 = pre ++ cstr "- latency") ∧
    ∀ pre ∈ latencyStems, ¬ cstr "- latency" <:+: pre := by
  simp (disch := exact rfl) only [stems, ownStems, latencyStems, cstr_ofList]
  decide

theorem names_rollup :
    ∀ pre ∈ latencyStems, ∀ word ∈ rollupWords, Names false (pre ++ word) .number := by
  simp (disch := exact rfl) only [names_iff, stems, ownStems, latencyStems, rollupWords,
    cstr_ofList]
  decide

/-- The name of a histogram starts with the stem of one. -/
theorem latency_of_typeOf (h : typeOf name false = .histogram) :
    ∃ pre ∈ latencyStems, ∃ rest, name = pre ++ cstr "- latency" ++ rest := by
  unfold typeOf at h
  cases hfind : (stems false).find? fun e => decide (e.1 <+: name) with
  | none =>
    rw [hfind] at h
    cases h
  | some e =>
    rw [hfind] at h
    obtain ⟨pre, hpre, he⟩ := latencyStems_spec.1 e (List.mem_of_find?_eq_some hfind) h
    have hname : e.1 <+: name := by simpa using List.find?_some hfind
    obtain ⟨rest, hrest⟩ := hname
    exact ⟨pre, hpre, rest, by rw [← he, hrest]⟩

/-- The rollups of a histogram are kept under names of numbers. -/
theorem typed_buildRollupKey (h : typeOf name false = .histogram) {word rollupName : Bytes}
    (hword : word ∈ rollupWords) (hkey : buildRollupKey name word = .ok (some rollupName)) :
    typeOf rollupName false = .number := by
  obtain ⟨pre, hpre, rest, rfl⟩ := latency_of_typeOf h
  have hpos : strstr (cstr "- latency") (pre ++ cstr "- latency" ++ rest) =
      some (cstr "- latency" ++ rest) :=
    strstr_append (by decide) (latencyStems_spec.2 pre hpre) rest
  have htake : (pre ++ cstr "- latency" ++ rest).take ((pre ++ cstr "- latency" ++ rest).length -
      (cstr "- latency" ++ rest).length) = pre := by
    rw [List.append_assoc, List.length_append, Nat.add_sub_cancel, List.take_left]
  have hdrop : (cstr "- latency" ++ rest).drop 9 = rest := rfl
  unfold buildRollupKey at hkey
  rw [hpos] at hkey
  dsimp only at hkey
  rw [htake, hdrop] at hkey
  obtain ⟨start, hstart, hkey⟩ := bind_eq_ok.1 hkey
  obtain ⟨-, rfl⟩ := fitting_eq_ok.1 hstart
  obtain rfl := Option.some.inj (Except.ok.inj hkey)
  exact (names_rollup pre hpre word hword).typeOf_take (List.prefix_append _ rest) (by decide)

end Tracemate.Process
