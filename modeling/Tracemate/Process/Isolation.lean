import Tracemate.Process.Aggregate
import Tracemate.Process.MetricDocument
import Tracemate.Process.Span
import Tracemate.Process.Transaction

/-!
# Team isolation of aggregates

The name of an aggregate is put together from texts of a document, flushed to Kafka and taken
apart again by `parse_key`, which finds the team in it.

* `Isolated`: every aggregate name of a document is read as the document's team, and merging it
  changes no other team's table;
* `Labels`: what the texts of each kind of document are printed with, and what they must name;
* `KeepsTeam`: what the document prints fits the buffers, and its texts and tags name the team;
* `isolated_iff`: exactly these documents are isolated.
-/

namespace Tracemate.Process

open CStr JsonC COutcome Outcome Tracemate.Metric

variable {serviceName team : Bytes}

/-! ### Documents -/

/-- The documents whose processing makes aggregates. -/
inductive DocumentKind
  | transaction
  | span
  | error
  | metric
  deriving DecidableEq

/-- The branches of `tm_kafka_handle_message` for these documents. -/
def processDocument (env : Env) (m : Option Json) : DocumentKind → Outcome (List Effect)
  | .transaction => processTransactionMessage env m
  | .span => processSpanMessage env m
  | .error => processErrorMessage env m
  | .metric => processMetricMessage env m

/-- The key is read back from JSON, accepted with the team, and the message with it changes no
other team's table. -/
def ReadAs (team key : Bytes) : Prop :=
  ∃ read, decodeString (jsonEscapeStr key) = some read ∧
    (∃ s, parseKey read .unwritten = .ok (true, ⟨some s, some team⟩)) ∧
    ∀ stats owner now teams teams' timestamp value,
      processAggregateMessage stats owner now .unwritten teams [(read, timestamp, value)] =
        .ok teams' →
      ∀ other, other ≠ team → teams'.hash other = teams.hash other

/-- The document is processed inside all buffers, and its aggregates come back to the team. -/
def Isolated (env : Env) (m : Option Json) (kind : DocumentKind) (team : Bytes) : Prop :=
  (processDocument env m kind).Safe fun effects =>
    ∀ u, Effect.update u ∈ effects → u.key.aggregate = true → ReadAs team u.key.metricName

/-! ### The exact condition -/

/-- The names of the aggregates that are updated. -/
def aggregateNames (effects : List Effect) : List MetricName :=
  effects.filterMap fun e => match e with
    | .update u => if u.aggregate then some u.name else none
    | _ => none

/-- The key of every one of the names is read as one of the team's. -/
def AllName (team : Bytes) (effects : List Effect) : Prop :=
  ∀ n ∈ aggregateNames effects, KeyNames team n.metricName

/-- What the texts of a document are printed with: the tags of the service and those of the host. -/
structure Labels where
  team : Bytes
  td : TeamData
  agg : Bytes
  host : Bytes

namespace Labels

variable (l : Labels)

/-! The rooms are what the longest stem before a text leaves of the 4094 bytes of a name. -/

/-- The name of a message or of a scheduled transaction. -/
def NamedTexts (name : Bytes) : Prop :=
  TextNames l.team 4064 name l.agg ∧ TextNames l.team 4064 (cstr "all") l.agg ∧
  (l.td.collectHostLevelMetrics = true → TextNames l.team 4070 name l.host)

/-- The path of a request, with its method and its user agent; the stems of errors are longer. -/
def RequestTexts (path method : Bytes) (userAgent : Option Bytes) (statCode : ℤ) : Prop :=
  let room := if 400 ≤ statCode then 4059 else 4064
  let tags := Transaction.methodTags l.agg method
  TextNames l.team room path (tags ++ rollupTag l.td) ∧ TextNames l.team room (cstr "all") tags ∧
  (∀ u, userAgent = some u →
    TextNames l.team room (cstr "all") (Transaction.userAgentTags l.agg method u) ∧
    (400 ≤ statCode → TextNames l.team room path (Transaction.userAgentTags l.agg method u))) ∧
  (l.td.collectHostLevelMetrics = true →
    TextNames l.team 4070 path (Transaction.methodTags l.host method ++ rollupTag l.td))

/-- The name of a statement and its subtype. -/
def DbTexts (operation : Bytes) (subtype : Option Bytes) : Prop :=
  TextNames l.team 4079 operation (l.agg ++ rollupTag l.td) ∧
  TextNames l.team 4076 (cstr "all") l.agg ∧
  (l.td.collectHostLevelMetrics = true →
    TextNames l.team 4076 operation (l.host ++ rollupTag l.td)) ∧
  ∀ t, subtype = some t →
    TextNames l.team 4079 (t ++ cstr " - " ++ operation) (l.agg ++ rollupTag l.td) ∧
    TextNames l.team 4076 (t ++ cstr " - " ++ operation) (l.host ++ rollupTag l.td) ∧
    TextNames l.team 4079 t (l.agg ++ rollupTag l.td) ∧ TextNames l.team 4076 t l.agg

/-- The path of a call to another service. -/
def ExternalTexts (path : Bytes) : Prop :=
  TextNames l.team 4073 path (l.agg ++ rollupTag l.td) ∧
  TextNames l.team 4070 (cstr "all") l.agg ∧
  (l.td.collectHostLevelMetrics = true → TextNames l.team 4070 path (l.host ++ rollupTag l.td))

/-- The name of an internal span. -/
def InternalTexts (name : Bytes) : Prop :=
  TextNames l.team 4070 name (l.agg ++ rollupTag l.td) ∧
  TextNames l.team 4070 (cstr "all") l.agg ∧
  (l.td.collectHostLevelMetrics = true → TextNames l.team 4069 name (l.host ++ rollupTag l.td))

/-- An error has no text. -/
def ErrorTexts : Prop :=
  TextNames l.team 4065 [] l.agg ∧
  (l.td.collectHostLevelMetrics = true → TextNames l.team 4065 [] (l.host ++ rollupTag l.td))

end Labels

section Condition

variable (env : Env) (m : Option Json) (serviceName team : Bytes)

/-- The labels of a document of the service. -/
def labelsOf : Labels :=
  ⟨team, env.getTeamData team, aggTagStringOf serviceName, tagStringOf env.lib m serviceName⟩

/-- The path of a request, made generic, and its method are printed. -/
def RequestNames (l : Labels) (trans : Option Json) : Prop :=
  env.lib.getBoolean (Json.get (cstr "sampled") trans) = true →
  ∀ context req resp meth, requestContext env m = some context →
    Json.get (cstr "request") (some context) = some req →
    Json.get (cstr "response") (some context) = some resp →
    env.lib.getString (Json.get (cstr "method") (some req)) = some meth →
    meth.length < 16 ∧
      (meth.map toUpper ≠ cstr "OPTIONS" →
        isPathOk env.curlEasyUnescape (requestPath env m (some req)) = true →
        (genericizePath env.curlEasyUnescape env.chopper serviceName
          (requestPath env m (some req)) l.td).Safe fun path =>
            env.getMetricFlushFrequencyMs serviceName ≠ 0 →
              l.RequestTexts path.1 (meth.map toUpper) (userAgentOf env (some req))
                (env.lib.getInt (Json.get (cstr "status_code") (some resp))))

/-- What a transaction prints: its name, or the path of a request. -/
def TransactionNames : Prop :=
  let trans := Json.get (cstr "transaction") m
  let l := labelsOf env m serviceName team
  ∀ duration traceId type, Json.get (cstr "duration") trans = some duration →
    env.lib.getString (Json.get (cstr "id") (Json.get (cstr "trace") m)) = some traceId →
    env.lib.getString (Json.get (cstr "type") trans) = some type →
    (type ∈ [cstr "message_read", cstr "messaging", cstr "scheduled"] →
      env.getMetricFlushFrequencyMs serviceName ≠ 0 →
        l.NamedTexts (printS (env.lib.getString (Json.get (cstr "name") trans)))) ∧
    (type = cstr "request" → RequestNames env m serviceName l trans)

/-- What a span prints: its name and subtype, or the path of a call, made generic. -/
def SpanNames : Prop :=
  let l := labelsOf env m serviceName team
  ∀ span duration traceId type, Json.get (cstr "span") m = some span →
    Json.get (cstr "duration") (some span) = some duration →
    env.lib.getString (Json.get (cstr "id") (Json.get (cstr "trace") m)) = some traceId →
    env.lib.getString (Json.get (cstr "type") (some span)) = some type →
    let name := env.lib.getString (Json.get (cstr "name") (some span))
    if type.take 2 = cstr "db" then
      env.getMetricFlushFrequencyMs serviceName ≠ 0 →
        (subtypeOf env m (some span) type).Safe (l.DbTexts (printS name))
    else if type ∈ [cstr "external.http", cstr "ext.http.http", cstr "external"] then
      (genericizePath env.curlEasyUnescape env.chopper serviceName name l.td).Safe fun path =>
        env.getMetricFlushFrequencyMs serviceName ≠ 0 → l.ExternalTexts path.1
    else type ∈ [cstr "custom", cstr "app"] → env.getMetricFlushFrequencyMs serviceName ≠ 0 →
      l.InternalTexts (printS name)

/-- What an error prints: the tags alone. -/
def ErrorNames : Prop :=
  ∀ error trace traceId, Json.get (cstr "error") m = some error →
    Json.get (cstr "trace") m = some trace →
    env.lib.getString (Json.get (cstr "id") (some trace)) = some traceId →
    env.getMetricFlushFrequencyMs serviceName ≠ 0 → (labelsOf env m serviceName team).ErrorTexts

/-- The member of a document at the end of a path of names. -/
def member (path : List String) : Option Json :=
  path.foldl (fun v name => Json.get (cstr name) v) m

/-- One of the lists of members is there in full. -/
def AnyAt (members : List (List (List String))) : Prop :=
  ∃ paths ∈ members, ∀ path ∈ paths, (member m path).isSome

/-- What is recorded of a flat document; the time of the collections needs their number. -/
def flatMembers : List (List (List String)) :=
  [[["system.memory.total"]], [["system.memory.actual.free"]],
    [["system.process.cpu.total.norm.pct"]], [["system.process.memory.size"]],
    [["system.cpu.total.norm.pct"]], [["jvm.thread.count"]], [["jvm.memory.heap.committed"]],
    [["jvm.memory.heap.used"]], [["jvm.memory.heap.max"]], [["jvm.memory.non_heap.committed"]],
    [["jvm.memory.non_heap.used"]], [["jvm.memory.non_heap.max"]],
    [["jvm.gc.time"], ["jvm.gc.count"]], [["jvm.gc.alloc"]], [["nodejs.memory.heap.used.bytes"]],
    [["nodejs.memory.heap.allocated.bytes"]], [["nodejs.eventloop.delay.avg.ms"]]]

/-- What is recorded of a nested document, some of it for an object whatever its members are. -/
def nestedMembers : List (List (List String)) :=
  [[["system", "memory"]], [["system", "process", "cpu", "total", "norm"]],
    [["system", "process", "memory"]], [["system", "cpu", "total", "norm"]],
    [["jvm", "thread", "count"]], [["jvm", "memory", "heap"]], [["jvm", "memory", "non_heap"]],
    [["jvm", "gc", "time"], ["jvm", "gc", "count"]], [["jvm", "gc", "alloc"]],
    [["nodejs", "memory", "heap", "used", "bytes"]],
    [["nodejs", "memory", "heap", "allocated", "bytes"]],
    [["nodejs", "eventloop", "delay", "avg", "ms"]],
    [["golang", "heap", "allocations", "allocated"]],
    [["golang", "heap", "gc", "total_pause", "ns"], ["golang", "heap", "gc", "total_count"]],
    [["golang", "goroutines"]]]

/-- The time of the collections and the delay of the event loop are aggregates of the host too. -/
def flatHostMembers : List (List (List String)) :=
  [[["jvm.gc.time"], ["jvm.gc.count"]], [["nodejs.eventloop.delay.avg.ms"]]]

def nestedHostMembers : List (List (List String)) :=
  [[["jvm", "gc", "time"], ["jvm", "gc", "count"]],
    [["nodejs", "eventloop", "delay", "avg", "ms"]]]

/-- A metric document has no text: its titles are constants. -/
def MetricNames : Prop :=
  let l := labelsOf env m serviceName team
  env.getMetricFlushFrequencyMs serviceName ≠ 0 →
    (AnyAt m (if isFlat env m then flatMembers else nestedMembers) → ListNames l.team l.agg) ∧
    (AnyAt m (if isFlat env m then flatHostMembers else nestedHostMembers) →
      l.td.collectHostLevelSystem = true → ListNames l.team l.host)

/-- What the document prints with its tags names the team. -/
def DocumentNames : DocumentKind → Prop
  | .transaction => TransactionNames env m serviceName team
  | .span => SpanNames env m serviceName team
  | .error => ErrorNames env m serviceName team
  | .metric => MetricNames env m serviceName team

/-- What a document of the service prints fits the buffers, and its texts and tags name the
team. -/
structure KeepsTeam (kind : DocumentKind) : Prop where
  /-- only metric documents of older versions are skipped -/
  version : kind ≠ .metric → 6 ≤ tmApmServerMajorVersion env.lib m
  fits : 6 ≤ tmApmServerMajorVersion env.lib m →
    team.length < 128 ∧ (serviceName.drop (team.length + 1)).length < 256
  names : 6 ≤ tmApmServerMajorVersion env.lib m →
    (env.lib.getString (Json.get (cstr "@timestamp") m)).isSome →
      (tagStringOf env.lib m serviceName).length < 3172 ∧
        DocumentNames env m serviceName team kind

end Condition

/-! ### Effects without names -/

section Names

variable {es es' : List Effect}

theorem mem_aggregateNames {n : MetricName} :
    n ∈ aggregateNames es ↔ ∃ u, Effect.update u ∈ es ∧ u.aggregate = true ∧ u.name = n := by
  unfold aggregateNames
  rw [List.mem_filterMap]
  constructor
  · rintro ⟨e, he, hn⟩
    cases e <;> simp only [Option.ite_none_right_eq_some, reduceCtorEq] at hn
    exact ⟨_, he, hn.1, Option.some.inj hn.2⟩
  · rintro ⟨u, hu, hagg, rfl⟩
    exact ⟨_, hu, by simp [hagg]⟩

theorem allName_append : AllName team (es ++ es') ↔ AllName team es ∧ AllName team es' := by
  unfold AllName aggregateNames
  rw [List.filterMap_append, List.forall_mem_append]

theorem allName_of_names_eq_nil (h : aggregateNames es = []) : AllName team es := by
  intro n hn
  rw [h] at hn
  cases hn

theorem allName_markService (t : Transaction) (type : ServiceType) :
    AllName team (t.markService type) := by
  apply allName_of_names_eq_nil
  unfold Transaction.markService
  split_ifs <;> rfl

theorem allName_sendUrl (url : Option Bytes) :
    AllName team (url.map (Effect.sendUrl serviceName)).toList := by
  apply allName_of_names_eq_nil
  cases url <;> rfl

theorem allName_storeTransaction {env : Env} {m : Option Json} (traceId : Bytes) (durationUs : ℕ)
    (cleanPath : Option Bytes) :
    AllName team (storeTransaction env m serviceName traceId durationUs cleanPath) := by
  apply allName_of_names_eq_nil
  unfold storeTransaction
  dsimp only
  split_ifs <;> rfl

theorem allName_nil : AllName team [] := allName_of_names_eq_nil rfl

theorem allName_cons {e : Effect} :
    AllName team (e :: es) ↔ AllName team [e] ∧ AllName team es := by
  rw [← allName_append, List.singleton_append]

theorem allName_ite {p : Prop} [Decidable p] :
    AllName team (if p then es else []) ↔ (p → AllName team es) := by
  split_ifs with h <;> simp [h, allName_nil]

/-- An aggregate whose name has a constant stem. -/
theorem allName_update {stem text tags : Bytes} (hstem : (124 : UInt8) ∉ stem) {u : Update}
    {timestamp : ℕ} :
    AllName team (.update ⟨⟨stem, text, tags⟩, true, u, timestamp⟩ :: es) ↔
      TextNames team (4094 - stem.length) text tags ∧ AllName team es := by
  rw [allName_cons, ← keyNames_metricName_iff (n := ⟨stem, text, tags⟩) hstem]
  simp [AllName, aggregateNames]

end Names

/-! ### The texts of transactions -/

section Transactions

variable {es : List Effect} {t : Transaction} {aggTimestamp : ℕ}
  {what text tags path method : Bytes} {userAgent : Option Bytes}

/-- The labels of a transaction. -/
def Transaction.labels (t : Transaction) (team : Bytes) : Labels :=
  ⟨team, t.td, t.aggTagString, t.tagString⟩

theorem allName_latency :
    AllName team (t.latency aggTimestamp text tags :: es) ↔
      TextNames team 4070 text tags ∧ AllName team es := by
  have hstem : (124 : UInt8) ∉ cstr "transaction - latency - " := by decide
  exact allName_update hstem

theorem allName_count (hwhat : (124 : UInt8) ∉ what) :
    AllName team (Transaction.count aggTimestamp what text tags :: es) ↔
      TextNames team (4077 - what.length) text tags ∧ AllName team es := by
  have hstem : (124 : UInt8) ∉ cstr "transaction - " ++ what ++ cstr " - " := by
    simp only [List.mem_append, hwhat, or_false, not_or]
    decide
  have hroom : 4094 - (cstr "transaction - " ++ what ++ cstr " - ").length =
      4077 - what.length := by
    have hstart : (cstr "transaction - ").length = 14 := rfl
    have hend : (cstr " - ").length = 3 := rfl
    rw [List.length_append, List.length_append, hstart, hend]
    omega
  rw [Transaction.count, Effect.updateCounter, allName_update hstem, hroom]

theorem allName_nameUpdates_iff {name : Bytes} :
    AllName team (t.nameUpdates aggTimestamp name) ↔ (t.labels team).NamedTexts name := by
  have hcount : (124 : UInt8) ∉ cstr "request_count" := by decide
  unfold Transaction.nameUpdates Labels.NamedTexts
  simp only [allName_append, allName_ite, allName_latency, allName_count hcount, allName_nil,
    and_true]
  constructor
  · rintro ⟨⟨-, -, hname, hall⟩, hhost⟩
    exact ⟨hname, hall, hhost⟩
  · rintro ⟨hname, hall, hhost⟩
    exact ⟨⟨hname.mono (by decide), hall.mono (by decide), hname, hall⟩, hhost⟩

/-- The counters of a kind of errors, whose name has eighteen bytes. -/
theorem allName_errorUpdates_iff (hwhat : (124 : UInt8) ∉ what) (hlength : what.length = 18) :
    AllName team (t.errorUpdates aggTimestamp what path method userAgent) ↔
      TextNames team 4059 path (Transaction.methodTags t.aggTagString method ++ rollupTag t.td) ∧
      TextNames team 4059 (cstr "all") (Transaction.methodTags t.aggTagString method) ∧
      ∀ u, userAgent = some u →
        TextNames team 4059 path (Transaction.userAgentTags t.aggTagString method u) ∧
        TextNames team 4059 (cstr "all") (Transaction.userAgentTags t.aggTagString method u) := by
  have herror : (124 : UInt8) ∉ cstr "error_count" := by decide
  unfold Transaction.errorUpdates
  simp only [allName_append, allName_count hwhat, allName_count herror, hlength, allName_nil,
    and_true, Nat.reduceSub]
  cases userAgent with
  | none =>
    simp only [allName_nil, and_true, reduceCtorEq, false_imp_iff, implies_true]
    constructor
    · rintro ⟨hpath, -, hall, -⟩
      exact ⟨hpath, hall⟩
    · rintro ⟨hpath, hall⟩
      exact ⟨hpath, hpath.mono (by decide), hall, hall.mono (by decide)⟩
  | some u =>
    simp only [allName_count hwhat, allName_count herror, hlength, allName_nil, and_true,
      Nat.reduceSub, Option.some.injEq, forall_eq']
    constructor
    · rintro ⟨⟨hpath, -, hall, -⟩, hpath', -, hall', -⟩
      exact ⟨hpath, hall, hpath', hall'⟩
    · rintro ⟨hpath, hall, hpath', hall'⟩
      exact ⟨⟨hpath, hpath.mono (by decide), hall, hall.mono (by decide)⟩, hpath',
        hpath'.mono (by decide), hall', hall'.mono (by decide)⟩

theorem allName_hostUpdates_iff {statCode : ℤ} :
    AllName team (t.hostUpdates aggTimestamp path method statCode) ↔
      TextNames team 4070 path (Transaction.methodTags t.tagString method ++ rollupTag t.td) := by
  unfold Transaction.hostUpdates
  dsimp only
  rw [allName_cons, allName_latency, and_iff_left allName_nil]
  exact and_iff_right (allName_of_names_eq_nil rfl)

theorem allName_requestUpdates_iff {statCode : ℤ} :
    AllName team (t.requestUpdates aggTimestamp path method userAgent statCode) ↔
      (t.labels team).RequestTexts path method userAgent statCode := by
  have hcount : (124 : UInt8) ∉ cstr "request_count" := by decide
  have hclient := @allName_errorUpdates_iff team t aggTimestamp (cstr "client_error_count") path
    method userAgent (by decide) rfl
  have hserver := @allName_errorUpdates_iff team t aggTimestamp (cstr "server_error_count") path
    method userAgent (by decide) rfl
  unfold Transaction.requestUpdates Labels.RequestTexts
  simp only [allName_append, allName_ite, allName_latency, allName_count hcount, allName_nil,
    and_true, hclient, hserver, allName_hostUpdates_iff]
  refine (and_congr_left' (and_congr_right' (c := ∀ u, userAgent = some u →
    TextNames team 4064 (cstr "all") (Transaction.userAgentTags t.aggTagString method u)) ?_)).trans
    ?_
  · cases userAgent with
    | none => simp [allName_nil]
    | some u =>
      dsimp only
      rw [allName_count hcount, and_iff_left allName_nil]
      simp only [Option.some.injEq, forall_eq']
      rfl
  by_cases herror : 400 ≤ statCode
  · simp only [if_pos herror]
    constructor
    · rintro ⟨⟨⟨⟨⟨-, hclient⟩, hserver⟩, -⟩, -⟩, hhost⟩
      obtain ⟨hpath, hall, hagent⟩ :=
        (lt_or_ge statCode 500).elim (fun hlt => hclient ⟨herror, hlt⟩) hserver
      exact ⟨hpath, hall, fun u hu => ⟨(hagent u hu).2, fun _ => (hagent u hu).1⟩, hhost⟩
    · rintro ⟨hpath, hall, hagent, hhost⟩
      have herrors := And.intro hpath (And.intro hall fun u hu =>
        And.intro ((hagent u hu).2 herror) (hagent u hu).1)
      exact ⟨⟨⟨⟨⟨⟨hpath.mono (by decide), hall.mono (by decide)⟩, fun _ => herrors⟩,
        fun _ => herrors⟩, hpath.mono (by decide), hall.mono (by decide)⟩,
        fun u hu => (hagent u hu).1.mono (by decide)⟩, hhost⟩
  · simp only [if_neg herror]
    constructor
    · rintro ⟨⟨⟨-, hpath, hall⟩, hagent⟩, hhost⟩
      exact ⟨hpath, hall, fun u hu => ⟨hagent u hu, fun h => absurd h herror⟩, hhost⟩
    · rintro ⟨hpath, hall, hagent, hhost⟩
      exact ⟨⟨⟨⟨⟨⟨hpath.mono (by decide), hall.mono (by decide)⟩,
        fun h => absurd h.1 herror⟩, fun h => absurd (le_trans (by decide) h) herror⟩,
        hpath, hall⟩, fun u hu => (hagent u hu).1⟩, hhost⟩

end Transactions

/-! ### The texts of spans -/

section Spans

variable {s : Span} {aggTimestamp : ℕ} {text : Bytes}

/-- The labels of a span. -/
def Span.labels (s : Span) (team : Bytes) : Labels := ⟨team, s.td, s.aggTagString, s.tagString⟩

theorem allName_dbUpdates_iff {subtype : Option Bytes} :
    AllName team (s.dbUpdates aggTimestamp text subtype) ↔
      (s.labels team).DbTexts text subtype := by
  have hlatency : (124 : UInt8) ∉ cstr "db - latency - " := by decide
  have hcount : (124 : UInt8) ∉ cstr "db - stmt_count - " := by decide
  unfold Span.dbUpdates Labels.DbTexts
  simp only [Span.latency, Span.count, Effect.updateHistogram, Effect.updateCounter,
    allName_append, allName_ite, allName_update hlatency, allName_update hcount, allName_nil,
    and_true]
  constructor
  · rintro ⟨⟨⟨hname, hhost⟩, hsubtype⟩, -, hall⟩
    refine ⟨hname, hall, fun hcollect => (hhost hcollect).2, ?_⟩
    rintro t rfl
    simp only [allName_update hlatency, allName_update hcount, allName_nil, and_true] at hsubtype
    exact hsubtype
  · rintro ⟨hname, hall, hhost, hsubtype⟩
    refine ⟨⟨⟨hname, fun hcollect => ⟨(hhost hcollect).mono (by decide), hhost hcollect⟩⟩, ?_⟩,
      hall.mono (by decide), hall⟩
    cases subtype with
    | none => exact allName_nil
    | some t =>
      simp only [allName_update hlatency, allName_update hcount, allName_nil, and_true]
      exact hsubtype t rfl

theorem allName_externalUpdates_iff :
    AllName team (s.externalUpdates aggTimestamp text) ↔ (s.labels team).ExternalTexts text := by
  have hlatency : (124 : UInt8) ∉ cstr "external - latency - " := by decide
  have hcount : (124 : UInt8) ∉ cstr "external - call_count - " := by decide
  unfold Span.externalUpdates Labels.ExternalTexts
  simp only [Span.latency, Span.count, Effect.updateHistogram, Effect.updateCounter,
    allName_append, allName_ite, allName_update hlatency, allName_update hcount, allName_nil,
    and_true]
  constructor
  · rintro ⟨⟨⟨hname, -⟩, hhost⟩, hall⟩
    exact ⟨hname, hall, fun hcollect => (hhost hcollect).2⟩
  · rintro ⟨hname, hall, hhost⟩
    exact ⟨⟨⟨hname, hall.mono (by decide)⟩, fun hcollect =>
      ⟨(hhost hcollect).mono (by decide), hhost hcollect⟩⟩, hall⟩

theorem allName_internalUpdates_iff :
    AllName team (s.internalUpdates aggTimestamp text) ↔ (s.labels team).InternalTexts text := by
  have hlatency : (124 : UInt8) ∉ cstr "internal - latency - " := by decide
  have hcount : (124 : UInt8) ∉ cstr "internal - call_count - " := by decide
  have hcount' : (124 : UInt8) ∉ cstr "intternal - call_count - " := by decide
  unfold Span.internalUpdates Labels.InternalTexts
  simp only [Span.latency, Span.count, Effect.updateHistogram, Effect.updateCounter,
    allName_append, allName_ite, allName_update hlatency, allName_update hcount,
    allName_update hcount', allName_nil, and_true]
  constructor
  · rintro ⟨⟨-, -, hname, hall⟩, hhost⟩
    exact ⟨hname, hall, fun hcollect => (hhost hcollect).2⟩
  · rintro ⟨hname, hall, hhost⟩
    exact ⟨⟨hname.mono (by decide), hall.mono (by decide), hname, hall⟩, fun hcollect =>
      ⟨(hhost hcollect).mono (by decide), hhost hcollect⟩⟩

end Spans

/-! ### The counters of errors -/

theorem allName_errorCounters_iff {l : Labels} {traceId : Bytes} {aggTimestamp : ℕ} :
    AllName l.team ([.addChild traceId, .markTraceable traceId] ++
      (if l.td.collectHostLevelMetrics then
        [.updateCounter ⟨cstr "transaction - apm_error_count", [], l.host ++ rollupTag l.td⟩ true 1
          aggTimestamp]
      else []) ++
      [.updateCounter ⟨cstr "transaction - apm_error_count", [], l.agg⟩ true 1 aggTimestamp]) ↔
      l.ErrorTexts := by
  have hstem : (124 : UInt8) ∉ cstr "transaction - apm_error_count" := by decide
  have hnames : AllName l.team [.addChild traceId, .markTraceable traceId] :=
    allName_of_names_eq_nil rfl
  unfold Labels.ErrorTexts
  simp only [Effect.updateCounter, allName_append, allName_ite, allName_update hstem, allName_nil,
    and_true, hnames, true_and]
  exact and_comm

/-! ### The measurements of metric documents -/

section Metrics

/-- The titles of all measurements. -/
def titles : List Bytes :=
  numberTitles ++ ["jvm - thread - count", "jvm - memory - gc - count",
    "nodejs - eventloop - latency", "golang - memory - gc - total_pause_ns",
    "golang - memory - gc - total_count"].map cstr

theorem titles_clean : ∀ title ∈ titles, (124 : UInt8) ∉ title ∧ title.length ≤ 40 := by
  simp (disch := exact rfl) only [titles, numberTitles, List.map, cstr_ofList]
  decide

theorem mem_titles_of_number {title : Bytes} (h : title ∈ numberTitles) : title ∈ titles :=
  List.mem_append_left _ h

/-- The tags fit their buffers. -/
structure MetricContext.Fits (c : MetricContext) : Prop where
  agg : c.aggTagString.length < 3172
  tag : c.tagString.length < 3172

/-- The effects keep to the team exactly if the tags of the service name it, where something is
recorded, and those of the host, where something is recorded for the host. -/
def MetricContext.Asks (c : MetricContext) (team : Bytes) (recorded host : Prop)
    (es : List Effect) : Prop :=
  AllName team es ↔ (recorded → ListNames team c.aggTagString) ∧
    (host → c.td.collectHostLevelSystem = true → ListNames team c.tagString)

variable {c : MetricContext} {recorded host recorded' host' : Prop} {es es' : List Effect}

theorem asks_nil : c.Asks team False False [] := by
  simp [MetricContext.Asks, allName_nil]

theorem MetricContext.Asks.append (h : c.Asks team recorded host es)
    (h' : c.Asks team recorded' host' es') :
    c.Asks team (recorded ∨ recorded') (host ∨ host') (es ++ es') := by
  unfold MetricContext.Asks at *
  rw [allName_append, h, h', or_imp, or_imp, and_and_and_comm]

theorem MetricContext.Asks.ite {p : Prop} [Decidable p] (h : c.Asks team recorded host es) :
    c.Asks team (p ∧ recorded) (p ∧ host) (if p then es else []) := by
  split_ifs with hp
  · simpa [hp] using h
  · simpa [hp] using asks_nil

theorem MetricContext.Asks.present {v : Option Json} {f : Option Json → List Effect}
    (h : c.Asks team recorded host (f v)) :
    c.Asks team (v.isSome ∧ recorded) (v.isSome ∧ host) (present v f) :=
  h.ite

theorem MetricContext.Asks.congr (h : c.Asks team recorded host es)
    (hrecorded : recorded ↔ recorded') (hhost : host ↔ host') : c.Asks team recorded' host' es := by
  rwa [← propext hrecorded, ← propext hhost]

/-- An aggregate that is called by a title. -/
theorem allName_titled {title tags : Bytes} (htitle : title ∈ titles) (htags : tags.length < 3172)
    {u : Update} {timestamp : ℕ} :
    AllName team [.update ⟨⟨title, [], tags⟩, true, u, timestamp⟩] ↔ ListNames team tags := by
  obtain ⟨hbar, hlength⟩ := titles_clean title htitle
  have hshort := (List.takeWhile_prefix (fun c : UInt8 => c ≠ 93) (l := tags)).length_le
  rw [allName_update hbar, and_iff_left allName_nil, textNames_iff_of_plain (by decide)]
  refine and_iff_right ?_
  simp only [List.length_nil]
  omega

/-- What is not an aggregate asks for nothing. -/
theorem allName_iff_of_names_eq_nil {p : Prop} (h : aggregateNames es = []) :
    AllName team es ↔ (False → p) :=
  iff_of_true (allName_of_names_eq_nil h) False.elim

theorem asks_measurement (hc : c.Fits) {title : Bytes} (htitle : title ∈ titles)
    {hostEffect : MetricName → Effect} {u : Update} {timestamp : ℕ}
    (h : AllName team [hostEffect ⟨title, [], c.tagString⟩] ↔ (host → ListNames team c.tagString)) :
    c.Asks team True host
      (c.measurement title hostEffect fun n => .update ⟨n, true, u, timestamp⟩) := by
  unfold MetricContext.measurement MetricContext.Asks
  rw [allName_append, allName_ite, h, allName_titled htitle hc.agg, imp_iff_right trivial, and_comm]
  exact and_congr_right fun _ => imp.swap

/-- A measurement that is an aggregate of the host as well. -/
theorem asks_hostMeasurement (hc : c.Fits) {title : Bytes} (htitle : title ∈ titles)
    {u u' : Update} {timestamp timestamp' : ℕ} :
    c.Asks team True True (c.measurement title (fun n => .update ⟨n, true, u, timestamp⟩)
      fun n => .update ⟨n, true, u', timestamp'⟩) :=
  asks_measurement hc htitle ((allName_titled htitle hc.tag).trans (imp_iff_right trivial).symm)

theorem asks_numericGauge (hc : c.Fits) {title : Bytes} (htitle : title ∈ numberTitles)
    (v : Option Json) : c.Asks team True False (c.numericGauge title v) :=
  asks_measurement hc (mem_titles_of_number htitle) (allName_iff_of_names_eq_nil rfl)

theorem asks_averageGauge (hc : c.Fits) {title : Bytes} (htitle : title ∈ numberTitles)
    (v : Option Json) : c.Asks team True False (c.averageGauge title v) :=
  asks_measurement hc (mem_titles_of_number htitle) (allName_iff_of_names_eq_nil rfl)

theorem asks_threadCount (hc : c.Fits) (v : Option Json) :
    c.Asks team True False (c.threadCount v) :=
  asks_measurement hc (by simp [titles]) (allName_iff_of_names_eq_nil rfl)

theorem asks_eventloopLatency (hc : c.Fits) (v : Option Json) :
    c.Asks team True True (c.eventloopLatency v) :=
  asks_hostMeasurement hc (by simp [titles])

theorem asks_gc (hc : c.Fits) (time count alloc : Option Json) :
    c.Asks team (time.isSome ∧ count.isSome ∨ alloc.isSome) (time.isSome ∧ count.isSome)
      (c.gc time count alloc) := by
  have htime : c.Asks team True True (c.gcTime time) :=
    asks_hostMeasurement hc (mem_titles_of_number (by simp [numberTitles]))
  have hcount : c.Asks team True False (c.gcCount count) :=
    asks_measurement hc (by simp [titles]) (allName_iff_of_names_eq_nil rfl)
  have halloc : c.Asks team True False (c.gcAlloc alloc) :=
    asks_measurement hc (mem_titles_of_number (by simp [numberTitles]))
      (allName_iff_of_names_eq_nil rfl)
  exact ((htime.append hcount).ite.append halloc.present).congr (by simp) (by simp)

theorem asks_flatUpdates (hc : c.Fits) (m : Option Json) :
    c.Asks team (AnyAt m flatMembers) (AnyAt m flatHostMembers) (c.flatUpdates m) := by
  have hnumeric : ∀ title ∈ numberTitles, ∀ v,
      c.Asks team (v.isSome ∧ True) (v.isSome ∧ False) (present v (c.numericGauge title)) :=
    fun _ htitle v => .present (asks_numericGauge hc htitle v)
  have haverage : ∀ title ∈ numberTitles, ∀ v,
      c.Asks team (v.isSome ∧ True) (v.isSome ∧ False) (present v (c.averageGauge title)) :=
    fun _ htitle v => .present (asks_averageGauge hc htitle v)
  unfold MetricContext.flatUpdates
  dsimp only
  refine MetricContext.Asks.congr
    (.append (.append (.append (.append (.append (.append (.append (.append
      (.append (.append (.append (.append (.append (.append (.append (hnumeric _ ?_ _)
        (hnumeric _ ?_ _)) (hnumeric _ ?_ _)) (hnumeric _ ?_ _)) (hnumeric _ ?_ _))
        (.present (asks_threadCount hc _))) (haverage _ ?_ _)) (haverage _ ?_ _))
        (haverage _ ?_ _)) (haverage _ ?_ _)) (haverage _ ?_ _)) (haverage _ ?_ _))
        (asks_gc hc _ _ _)) (haverage _ ?_ _)) (haverage _ ?_ _))
        (.present (asks_eventloopLatency hc _))) ?recorded ?host
  case recorded => simp [AnyAt, flatMembers, member, or_assoc]
  case host => simp [AnyAt, flatHostMembers, member]
  all_goals simp [numberTitles]

/-! The measurements of nested documents, below the members of the document. -/

theorem get_none (name : Bytes) : Json.get name none = none := rfl

theorem asks_cpuTotal (hc : c.Fits) {title : String} (htitle : cstr title ∈ numberTitles)
    (cpu : Option Json) :
    c.Asks team (member cpu ["total", "norm"]).isSome False (c.cpuTotal title cpu) := by
  refine MetricContext.Asks.congr
    (.present (.present (.present (asks_numericGauge hc htitle _)))) ?_ (by simp)
  cases cpu with
  | none => simp [member, get_none]
  | some cpu =>
    cases htotal : Json.get (cstr "total") (some cpu) <;> simp [member, htotal, get_none]

theorem asks_systemUpdates (hc : c.Fits) (system : Option Json) :
    c.Asks team ((member system ["memory"]).isSome ∨
      (member system ["process", "cpu", "total", "norm"]).isSome ∨
      (member system ["process", "memory"]).isSome ∨
      (member system ["cpu", "total", "norm"]).isSome) False (c.systemUpdates system) := by
  unfold MetricContext.systemUpdates
  refine MetricContext.Asks.congr (.append (.append
    (.present (.append (asks_numericGauge hc ?_ _) (.present (asks_numericGauge hc ?_ _))))
    (.present (.append (asks_cpuTotal hc ?_ _) (.present (asks_numericGauge hc ?_ _)))))
    (asks_cpuTotal hc ?_ _)) ?recorded (by simp)
  case recorded =>
    cases hprocess : Json.get (cstr "process") system <;>
      simp [member, hprocess, get_none, or_assoc]
  all_goals simp [numberTitles]

theorem asks_heapUpdates (hc : c.Fits) {heap : String} (hheap : heap = "heap" ∨ heap = "non_heap")
    (v : Option Json) : c.Asks team v.isSome False (c.heapUpdates heap v) := by
  unfold MetricContext.heapUpdates
  refine MetricContext.Asks.congr (.present (.append (.append (asks_averageGauge hc ?_ _)
    (asks_averageGauge hc ?_ _)) (asks_averageGauge hc ?_ _))) (by simp) (by simp)
  all_goals rcases hheap with rfl | rfl <;> simp [numberTitles]

theorem asks_jvmUpdates (hc : c.Fits) (jvm : Option Json) :
    c.Asks team ((member jvm ["thread", "count"]).isSome ∨ (member jvm ["memory", "heap"]).isSome ∨
      (member jvm ["memory", "non_heap"]).isSome ∨
      (member jvm ["gc", "time"]).isSome ∧ (member jvm ["gc", "count"]).isSome ∨
      (member jvm ["gc", "alloc"]).isSome)
      ((member jvm ["gc", "time"]).isSome ∧ (member jvm ["gc", "count"]).isSome)
      (c.jvmUpdates jvm) := by
  unfold MetricContext.jvmUpdates
  refine MetricContext.Asks.congr (.append (.append
    (.present (.present (asks_threadCount hc _)))
    (.present (.append (asks_heapUpdates hc (.inl rfl) _) (asks_heapUpdates hc (.inr rfl) _))))
    (.present (asks_gc hc _ _ _))) ?_ ?_
  · cases hthread : Json.get (cstr "thread") jvm <;> cases hmem : Json.get (cstr "memory") jvm <;>
      cases hgc : Json.get (cstr "gc") jvm <;>
      simp [member, hthread, hmem, hgc, get_none, or_assoc]
  · cases hgc : Json.get (cstr "gc") jvm <;> simp [member, hgc, get_none]

theorem asks_nodejsUpdates (hc : c.Fits) (nodejs : Option Json) :
    c.Asks team ((member nodejs ["memory", "heap", "used", "bytes"]).isSome ∨
      (member nodejs ["memory", "heap", "allocated", "bytes"]).isSome ∨
      (member nodejs ["eventloop", "delay", "avg", "ms"]).isSome)
      (member nodejs ["eventloop", "delay", "avg", "ms"]).isSome (c.nodejsUpdates nodejs) := by
  unfold MetricContext.nodejsUpdates
  dsimp only
  refine MetricContext.Asks.congr (.append
    (.present (.append (.present (asks_averageGauge hc ?_ _))
      (.present (asks_averageGauge hc ?_ _))))
    (.present (asks_eventloopLatency hc _))) ?recorded (by simp [member])
  case recorded =>
    cases hheap : Json.get (cstr "heap") (Json.get (cstr "memory") nodejs) <;>
      simp [member, hheap, get_none, or_assoc]
  all_goals simp [numberTitles]

theorem asks_golangUpdates (hc : c.Fits) (golang : Option Json) :
    c.Asks team ((member golang ["heap", "allocations", "allocated"]).isSome ∨
      (member golang ["heap", "gc", "total_pause", "ns"]).isSome ∧
        (member golang ["heap", "gc", "total_count"]).isSome ∨
      (member golang ["goroutines"]).isSome) False (c.golangUpdates golang) := by
  have hpause : ∀ v, c.Asks team True False (c.totalPause v) := fun v =>
    asks_measurement hc (by simp [titles]) (allName_iff_of_names_eq_nil rfl)
  have hcount : ∀ v, c.Asks team True False (c.totalCount v) := fun v =>
    asks_measurement hc (by simp [titles]) (allName_iff_of_names_eq_nil rfl)
  have hgoroutines : ∀ v, c.Asks team True False (c.goroutines v) := fun v =>
    asks_measurement hc (mem_titles_of_number (by simp [numberTitles]))
      (allName_iff_of_names_eq_nil rfl)
  unfold MetricContext.golangUpdates
  dsimp only
  refine MetricContext.Asks.congr (.append (.append
    (.present (asks_averageGauge hc ?_ _)) (.ite (.append (hpause _) (hcount _))))
    (.present (hgoroutines _))) ?recorded (by simp)
  case recorded => simp [member, or_assoc]
  all_goals simp [numberTitles]

theorem asks_nestedUpdates (hc : c.Fits) (m : Option Json) :
    c.Asks team (AnyAt m nestedMembers) (AnyAt m nestedHostMembers) (c.nestedUpdates m) := by
  refine MetricContext.Asks.congr (.append (.append (.append (asks_systemUpdates hc _)
    (asks_jvmUpdates hc _)) (asks_nodejsUpdates hc _)) (asks_golangUpdates hc _)) ?_ ?_
  · simp [AnyAt, nestedMembers, member, or_assoc]
  · simp [AnyAt, nestedHostMembers, member]

end Metrics

/-! ### One key -/

section Documents

variable {env : Env} {m : Option Json} {kind : DocumentKind}

/-- A key is read as the team's exactly if its first list of tags names the team. -/
theorem readAs_iff {key : Bytes} : ReadAs team key ↔ KeyNames team key := by
  constructor
  · rintro ⟨read, hread, hparse, -⟩
    rw [decodeString_jsonEscapeStr] at hread
    obtain rfl := Option.some.inj hread
    exact parseKey_unwritten_iff.1 hparse
  · intro h
    obtain ⟨s, hs⟩ := parseKey_unwritten_iff.2 h
    refine ⟨key, decodeString_jsonEscapeStr _, ⟨s, hs⟩, ?_⟩
    intro stats owner now teams teams' timestamp value hprocess other hne
    obtain ⟨mid, hmid, hrest⟩ := processAggregateMessage_cons hs hprocess
    obtain rfl : mid = teams' := Except.ok.inj hrest
    exact hmid other hne

theorem isolated_iff_allName :
    Isolated env m kind team ↔ (processDocument env m kind).Safe (AllName team) := by
  refine safe_congr fun effects => ?_
  simp only [AllName, mem_aggregateNames, readAs_iff]
  constructor
  · rintro h _ ⟨u, hu, hagg, rfl⟩
    exact h u hu hagg
  · intro h u hu hagg
    exact h _ ⟨u, hu, hagg, rfl⟩

/-! ### What is prepared -/

/-- The time makes no difference to the names; a frequency of zero ends the process. -/
theorem safe_centerTimestamp_bind_iff {α : Type} {ms freq : ℕ} {P : α → Prop}
    {f : ℕ → Outcome α} {Q : Prop} (h : ∀ aggTimestamp, (f aggTimestamp).Safe P ↔ Q) :
    (centerTimestamp ms freq >>= f).Safe P ↔ (freq ≠ 0 → Q) := by
  unfold centerTimestamp
  split_ifs with hzero
  · exact iff_of_true trivial fun hne => absurd hzero hne
  · exact (h _).trans (imp_iff_right hzero).symm

/-- The document fits the buffers of `pre_process`, and meets `Q` if it has a time. -/
def Prepares (env : Env) (m : Option Json) (serviceName team : Bytes) (Q : Prop) : Prop :=
  (team.length < 128 ∧ (serviceName.drop (team.length + 1)).length < 256) ∧
    ((env.lib.getString (Json.get (cstr "@timestamp") m)).isSome →
      (tagStringOf env.lib m serviceName).length < 3172 ∧ Q)

/-- What follows `pre_process`, for a document of the service. -/
theorem safe_preProcess_bind_iff {α : Type} {P : α → Prop} {f : Option Prepared → Outcome α}
    {Q : Prop} (hservice : tmServiceName env.lib m = some serviceName)
    (hteam : tmGetTeam (some serviceName) = some team)
    (hversion : 6 ≤ tmApmServerMajorVersion env.lib m)
    (h : team.length < 128 → (serviceName.drop (team.length + 1)).length < 256 →
      (tagStringOf env.lib m serviceName).length < 3172 → ∀ timestamp,
      (f (some ⟨team, tagStringOf env.lib m serviceName, timestamp⟩)).Safe P ↔ Q) :
    (preProcess env m >>= f).Safe P ↔ Prepares env m serviceName team Q := by
  unfold preProcess Prepares
  rw [if_neg (by omega), hservice]
  dsimp only
  rw [hteam]
  simp only [safe_bind_iff, safe_fitting_iff, safe_nonNull_iff, safe_ok, and_assoc]
  refine and_congr_right fun hshort => and_congr_right fun hrest => ?_
  rw [Option.isSome_iff_exists, forall_exists_index]
  refine forall₂_congr fun ts _ => and_congr_right fun htags => ?_
  exact h hshort hrest htags _

theorem length_aggTagStringOf_lt (hteam : team.length < 128)
    (hrest : (serviceName.drop (team.length + 1)).length < 256) :
    (aggTagStringOf serviceName).length < 2048 := by
  simp only [List.length_drop] at hrest
  simp [aggTagStringOf, cstr]
  omega

/-- The tags of the service fit their buffer. -/
theorem safe_buildAggTagString_iff {P : Bytes → Prop}
    (hservice : tmServiceName env.lib m = some serviceName) (hteam : team.length < 128)
    (hrest : (serviceName.drop (team.length + 1)).length < 256) :
    (buildAggTagString env m).Safe P ↔ P (aggTagStringOf serviceName) := by
  unfold buildAggTagString
  rw [hservice, safe_fitting_iff]
  exact and_iff_right (length_aggTagStringOf_lt hteam hrest)

/-! ### The kinds of documents -/

theorem allName_agentEffects (td : TeamData) :
    AllName team (agentEffects env m td serviceName) := by
  apply allName_of_names_eq_nil
  unfold agentEffects
  dsimp only
  split <;> rfl

theorem safe_processRequest_iff {t : Transaction} {trans : Option Json}
    (ht : t.serviceName = serviceName)
    (hfreq : t.metricFlushFreqMs = env.getMetricFlushFrequencyMs serviceName) :
    (processRequest env m t trans).Safe (fun b => AllName team b.effects) ↔
      RequestNames env m serviceName (t.labels team) trans := by
  have hmarks : ∀ e, AllName team [e] →
      AllName team (t.markService .transactional ++ [e]) := fun e he =>
    allName_append.2 ⟨allName_markService t _, he⟩
  have hquiet : AllName team [Effect.messagesErrored] ∧ AllName team [Effect.messagesFiltered] :=
    ⟨allName_of_names_eq_nil rfl, allName_of_names_eq_nil rfl⟩
  unfold processRequest RequestNames
  dsimp only
  cases hsampled : env.lib.getBoolean (Json.get (cstr "sampled") trans) with
  | false => simp [hmarks, hquiet]
  | true =>
  rw [if_neg (by simp), imp_iff_right rfl]
  cases hcontext : requestContext env m with
  | none => simp [hmarks, hquiet]
  | some context =>
  dsimp only
  cases hreq : Json.get (cstr "request") (some context) with
  | none =>
    simp only [safe_ok, hmarks _ hquiet.1, true_iff]
    rintro _ _ _ _ ⟨⟩ hreq'
    rw [hreq] at hreq'
    cases hreq'
  | some req =>
  cases hresp : Json.get (cstr "response") (some context) with
  | none =>
    simp only [safe_ok, hmarks _ hquiet.1, true_iff]
    rintro _ _ _ _ ⟨⟩ - hresp'
    rw [hresp] at hresp'
    cases hresp'
  | some resp =>
  -- the members that the condition asks for are those that were read
  have hmembers : ∀ {p : Json → Json → Bytes → Prop},
      (∀ meth, env.lib.getString (Json.get (cstr "method") (some req)) = some meth →
        p req resp meth) ↔
        ∀ context' req' resp' meth, some context = some context' →
          Json.get (cstr "request") (some context') = some req' →
          Json.get (cstr "response") (some context') = some resp' →
          env.lib.getString (Json.get (cstr "method") (some req')) = some meth →
            p req' resp' meth := by
    intro p
    constructor
    · rintro h _ req' resp' meth ⟨⟩ hreq' hresp' hmeth
      obtain rfl := Option.some.inj (hreq.symm.trans hreq')
      obtain rfl := Option.some.inj (hresp.symm.trans hresp')
      exact h meth hmeth
    · intro h meth hmeth
      exact h context req resp meth rfl hreq hresp hmeth
  rw [safe_bind_iff, methodOf, safe_bind_iff, safe_nonNull_iff]
  refine Iff.trans ?_ hmembers
  refine forall₂_congr fun meth _ => ?_
  rw [safe_fitting_iff, List.length_map]
  refine and_congr_right fun _ => ?_
  split_ifs with hoptions hpath
  · simp [hoptions, hmarks, hquiet]
  · simp [hpath, hmarks, hquiet]
  · rw [imp_iff_right hoptions, imp_iff_right (by simpa using hpath), safe_bind_iff, ht]
    refine safe_congr fun path => ?_
    rw [hfreq]
    refine safe_centerTimestamp_bind_iff fun aggTimestamp => ?_
    rw [safe_ok, allName_append, allName_append, allName_requestUpdates_iff]
    exact and_iff_right ⟨allName_markService t _, allName_sendUrl _⟩

theorem safe_processNamed_iff {t : Transaction} {trans : Option Json} (type : ServiceType)
    (hfreq : t.metricFlushFreqMs = env.getMetricFlushFrequencyMs serviceName) :
    (processNamed env t trans type).Safe (fun b => AllName team b.effects) ↔
      (env.getMetricFlushFrequencyMs serviceName ≠ 0 → (t.labels team).NamedTexts
        (printS (env.lib.getString (Json.get (cstr "name") trans)))) := by
  unfold processNamed
  rw [hfreq]
  refine safe_centerTimestamp_bind_iff fun aggTimestamp => ?_
  rw [safe_ok, allName_append, allName_nameUpdates_iff]
  exact and_iff_right (allName_markService t type)

theorem safe_processByType_iff {t : Transaction} {trans : Option Json} {type : Bytes}
    (ht : t.serviceName = serviceName)
    (hfreq : t.metricFlushFreqMs = env.getMetricFlushFrequencyMs serviceName) :
    (processByType env m t trans type).Safe (fun b => AllName team b.effects) ↔
      (type ∈ [cstr "message_read", cstr "messaging", cstr "scheduled"] →
        env.getMetricFlushFrequencyMs serviceName ≠ 0 → (t.labels team).NamedTexts
          (printS (env.lib.getString (Json.get (cstr "name") trans)))) ∧
      (type = cstr "request" → RequestNames env m serviceName (t.labels team) trans) := by
  have hdistinct : cstr "request" ∉ [cstr "message_read", cstr "messaging", cstr "scheduled"] := by
    decide
  simp only [List.mem_cons, List.not_mem_nil, or_false] at hdistinct ⊢
  unfold processByType
  split_ifs with hmessage hscheduled hrequest
  · have hnamed : type = cstr "message_read" ∨ type = cstr "messaging" ∨
        type = cstr "scheduled" := hmessage.elim .inl fun h => .inr (.inl h)
    rw [safe_processNamed_iff .message hfreq]
    refine ⟨fun h => ⟨fun _ => h, fun htype => ?_⟩, fun h => h.1 hnamed⟩
    rw [htype] at hnamed
    exact absurd hnamed hdistinct
  · have hnamed : type = cstr "message_read" ∨ type = cstr "messaging" ∨
        type = cstr "scheduled" := .inr (.inr hscheduled)
    rw [safe_processNamed_iff .scheduled hfreq]
    refine ⟨fun h => ⟨fun _ => h, fun htype => ?_⟩, fun h => h.1 hnamed⟩
    rw [htype] at hnamed
    exact absurd hnamed hdistinct
  · rw [safe_processRequest_iff ht hfreq]
    refine ⟨fun h => ⟨fun htype => ?_, fun _ => h⟩, fun h => h.2 hrequest⟩
    rw [hrequest] at htype
    exact absurd htype hdistinct
  all_goals
    refine iff_of_true ?_ ⟨?_, fun htype => absurd htype hrequest⟩
    · first
        | exact allName_markService t _
        | exact allName_of_names_eq_nil rfl
    · rintro (h | h | h)
      · exact absurd (.inl h) hmessage
      · exact absurd (.inr h) hmessage
      · exact absurd h hscheduled

/-- The end of the function makes no aggregate. -/
theorem safe_branch_iff {x : Outcome Branch} {traceId : Bytes} {durationUs : ℕ} :
    (x >>= fun b => if b.returns then .ok b.effects
      else .ok (b.effects ++
        storeTransaction env m serviceName traceId durationUs b.cleanPath)).Safe (AllName team) ↔
      x.Safe fun b => AllName team b.effects := by
  rw [safe_bind_iff]
  refine safe_congr fun b => ?_
  split_ifs
  · rfl
  · rw [safe_ok, allName_append]
    exact and_iff_left (allName_storeTransaction _ _ _)

theorem safe_processTransactionMessage_iff
    (hservice : tmServiceName env.lib m = some serviceName)
    (hteam : tmGetTeam (some serviceName) = some team)
    (hversion : 6 ≤ tmApmServerMajorVersion env.lib m) :
    (processTransactionMessage env m).Safe (AllName team) ↔
      Prepares env m serviceName team (TransactionNames env m serviceName team) := by
  unfold processTransactionMessage
  refine safe_preProcess_bind_iff hservice hteam hversion fun hshort hrest _ timestamp => ?_
  dsimp only
  rw [safe_bind_iff, safe_buildAggTagString_iff hservice hshort hrest, hservice]
  unfold TransactionNames
  dsimp only
  cases hduration : Json.get (cstr "duration") (Json.get (cstr "transaction") m) with
  | none => exact iff_of_true (allName_of_names_eq_nil rfl) (by simp)
  | some duration =>
  cases htrace : env.lib.getString (Json.get (cstr "id") (Json.get (cstr "trace") m)) with
  | none => exact iff_of_true (allName_of_names_eq_nil rfl) (by simp)
  | some traceId =>
  dsimp only
  rw [safe_bind_iff, safe_nonNull_iff]
  constructor
  · rintro h _ _ type ⟨⟩ ⟨⟩ htype
    exact (safe_processByType_iff rfl rfl).1 (safe_branch_iff.1 (h type htype))
  · intro h type htype
    exact safe_branch_iff.2 ((safe_processByType_iff rfl rfl).2
      (h duration traceId type rfl rfl htype))

theorem safe_processSpan_iff {s : Span} {span : Option Json} {type : Bytes}
    (hs : s.serviceName = serviceName)
    (hfreq : s.metricFlushFreqMs = env.getMetricFlushFrequencyMs serviceName) :
    (processSpan env m s span type).Safe (AllName team) ↔
      if type.take 2 = cstr "db" then
        env.getMetricFlushFrequencyMs serviceName ≠ 0 →
          (subtypeOf env m span type).Safe ((s.labels team).DbTexts
            (printS (env.lib.getString (Json.get (cstr "name") span))))
      else if type ∈ [cstr "external.http", cstr "ext.http.http", cstr "external"] then
        (genericizePath env.curlEasyUnescape env.chopper serviceName
          (env.lib.getString (Json.get (cstr "name") span)) s.td).Safe fun path =>
            env.getMetricFlushFrequencyMs serviceName ≠ 0 →
              (s.labels team).ExternalTexts path.1
      else type ∈ [cstr "custom", cstr "app"] → env.getMetricFlushFrequencyMs serviceName ≠ 0 →
        (s.labels team).InternalTexts
          (printS (env.lib.getString (Json.get (cstr "name") span))) := by
  unfold processSpan
  simp only [List.mem_cons, List.not_mem_nil, or_false]
  rw [hfreq]
  split_ifs with hdb hexternal hinternal
  · refine safe_centerTimestamp_bind_iff fun aggTimestamp => ?_
    rw [safe_bind_iff]
    exact safe_congr fun subtype => allName_dbUpdates_iff
  · rw [safe_bind_iff, hs]
    refine safe_congr fun path => ?_
    refine safe_centerTimestamp_bind_iff fun aggTimestamp => ?_
    rw [safe_ok, allName_append, allName_externalUpdates_iff]
    exact and_iff_right (allName_sendUrl _)
  · rw [imp_iff_right hinternal]
    exact safe_centerTimestamp_bind_iff fun aggTimestamp => allName_internalUpdates_iff
  · exact iff_of_true (allName_of_names_eq_nil rfl) fun h => absurd h hinternal

theorem safe_processSpanMessage_iff
    (hservice : tmServiceName env.lib m = some serviceName)
    (hteam : tmGetTeam (some serviceName) = some team)
    (hversion : 6 ≤ tmApmServerMajorVersion env.lib m) :
    (processSpanMessage env m).Safe (AllName team) ↔
      Prepares env m serviceName team (SpanNames env m serviceName team) := by
  unfold processSpanMessage
  refine safe_preProcess_bind_iff hservice hteam hversion fun hshort hrest _ timestamp => ?_
  unfold SpanNames
  dsimp only
  cases hspan : Json.get (cstr "span") m with
  | none => exact iff_of_true (allName_of_names_eq_nil rfl) (by simp)
  | some span =>
  dsimp only
  rw [safe_bind_iff, safe_buildAggTagString_iff hservice hshort hrest]
  cases hduration : Json.get (cstr "duration") (some span) with
  | none =>
    refine iff_of_true (allName_of_names_eq_nil rfl) ?_
    rintro _ _ _ _ ⟨⟩ hduration'
    rw [hduration] at hduration'
    cases hduration'
  | some duration =>
  dsimp only
  cases htrace : env.lib.getString (Json.get (cstr "id") (Json.get (cstr "trace") m)) with
  | none => exact iff_of_true (allName_of_names_eq_nil rfl) (by simp)
  | some traceId =>
  dsimp only
  rw [hservice]
  dsimp only
  rw [safe_bind_iff, safe_nonNull_iff]
  have hcall : ∀ (s : Span) (type : Bytes), (processSpan env m s (some span) type >>=
      fun updates => .ok (.addChild traceId :: updates)).Safe (AllName team) ↔
        (processSpan env m s (some span) type).Safe (AllName team) := by
    intro s type
    rw [safe_bind_iff]
    exact safe_congr fun updates => Iff.rfl
  constructor
  · rintro h _ duration' _ type ⟨⟩ hduration' ⟨⟩ htype
    obtain rfl := Option.some.inj (hduration.symm.trans hduration')
    exact (safe_processSpan_iff rfl rfl).1 ((hcall _ type).1 (h type htype))
  · intro h type htype
    exact (hcall _ type).2 ((safe_processSpan_iff rfl rfl).2
      (h span duration traceId type rfl hduration rfl htype))

theorem safe_processErrorMessage_iff
    (hservice : tmServiceName env.lib m = some serviceName)
    (hteam : tmGetTeam (some serviceName) = some team)
    (hversion : 6 ≤ tmApmServerMajorVersion env.lib m) :
    (processErrorMessage env m).Safe (AllName team) ↔
      Prepares env m serviceName team (ErrorNames env m serviceName team) := by
  unfold processErrorMessage
  refine safe_preProcess_bind_iff hservice hteam hversion fun hshort hrest _ timestamp => ?_
  unfold ErrorNames
  dsimp only
  rw [safe_bind_iff, safe_buildAggTagString_iff hservice hshort hrest, hservice]
  cases herror : Json.get (cstr "error") m with
  | none => exact iff_of_true (allName_of_names_eq_nil rfl) (by simp)
  | some error =>
  cases htrace : Json.get (cstr "trace") m with
  | none => exact iff_of_true (allName_of_names_eq_nil rfl) (by simp)
  | some trace =>
  dsimp only
  rw [safe_bind_iff, safe_nonNull_iff]
  constructor
  · rintro h _ _ traceId ⟨⟩ ⟨⟩ htraceId
    refine (safe_centerTimestamp_bind_iff fun aggTimestamp => ?_).1 (h traceId htraceId)
    exact allName_errorCounters_iff (l := labelsOf env m serviceName team)
  · intro h traceId htraceId
    refine (safe_centerTimestamp_bind_iff fun aggTimestamp => ?_).2
      (h error trace traceId rfl rfl htraceId)
    exact allName_errorCounters_iff (l := labelsOf env m serviceName team)

theorem safe_processMetricMessage_iff
    (hservice : tmServiceName env.lib m = some serviceName)
    (hteam : tmGetTeam (some serviceName) = some team)
    (hversion : 6 ≤ tmApmServerMajorVersion env.lib m) :
    (processMetricMessage env m).Safe (AllName team) ↔
      Prepares env m serviceName team (MetricNames env m serviceName team) := by
  unfold processMetricMessage
  refine safe_preProcess_bind_iff hservice hteam hversion fun hshort hrest htags timestamp => ?_
  dsimp only
  rw [safe_bind_iff, safe_buildAggTagString_iff hservice hshort hrest, hservice]
  refine safe_centerTimestamp_bind_iff fun aggTimestamp => ?_
  have hfits : MetricContext.Fits ⟨env.lib, env.getTeamData team, tagStringOf env.lib m serviceName,
      aggTagStringOf serviceName, timestamp, aggTimestamp⟩ :=
    ⟨(length_aggTagStringOf_lt hshort hrest).trans (by decide), htags⟩
  split_ifs
  · exact asks_flatUpdates hfits m
  · rw [safe_ok, allName_append]
    exact (and_iff_right (allName_agentEffects _)).trans (asks_nestedUpdates hfits m)

/-- A document of an older version, which `pre_process` does not prepare. -/
theorem preProcess_of_older (hversion : tmApmServerMajorVersion env.lib m < 6) :
    preProcess env m = .ok none := by
  unfold preProcess
  rw [if_pos hversion]

/-- **Isolation.**  The aggregates of a document of the service come back to its team exactly if
what it prints fits the buffers, and its texts and tags name the team. -/
theorem isolated_iff (env : Env) (m : Option Json) (kind : DocumentKind)
    (serviceName team : Bytes) (hservice : tmServiceName env.lib m = some serviceName)
    (hteam : tmGetTeam (some serviceName) = some team) :
    Isolated env m kind team ↔ KeepsTeam env m serviceName team kind := by
  rw [isolated_iff_allName]
  by_cases hversion : 6 ≤ tmApmServerMajorVersion env.lib m
  · have hkind : (processDocument env m kind).Safe (AllName team) ↔
        Prepares env m serviceName team (DocumentNames env m serviceName team kind) := by
      cases kind with
      | transaction => exact safe_processTransactionMessage_iff hservice hteam hversion
      | span => exact safe_processSpanMessage_iff hservice hteam hversion
      | error => exact safe_processErrorMessage_iff hservice hteam hversion
      | metric => exact safe_processMetricMessage_iff hservice hteam hversion
    rw [hkind]
    constructor
    · rintro ⟨hfits, hnames⟩
      exact ⟨fun _ => hversion, fun _ => hfits, fun _ => hnames⟩
    · rintro ⟨-, hfits, hnames⟩
      exact ⟨hfits hversion, hnames hversion⟩
  · have hnone := preProcess_of_older (by omega : tmApmServerMajorVersion env.lib m < 6)
    by_cases hmetric : kind = .metric
    · subst hmetric
      refine iff_of_true ?_ ⟨fun h => absurd rfl h, fun h => absurd h hversion,
        fun h => absurd h hversion⟩
      show (processMetricMessage env m).Safe (AllName team)
      unfold processMetricMessage
      rw [hnone]
      exact allName_of_names_eq_nil rfl
    · refine iff_of_false (fun h => ?_) fun h => hversion (h.version hmetric)
      cases kind with
      | transaction =>
        simp only [processDocument, processTransactionMessage, hnone] at h
        exact h
      | span =>
        simp only [processDocument, processSpanMessage, hnone] at h
        exact h
      | error =>
        simp only [processDocument, processErrorMessage, hnone] at h
        exact h
      | metric => exact hmetric rfl

end Documents

/-- A job of the service `a-service:b`, whose name has the label of a tag in it. -/
def labelledTransaction : Json :=
  .obj [(cstr "@timestamp", .str (cstr "2019-03-20T17:09:03.949Z")),
    (cstr "context", .obj [(cstr "service", .obj [(cstr "name", .str (cstr "a-service:b"))])]),
    (cstr "trace", .obj [(cstr "id", .str (cstr "1f"))]),
    (cstr "transaction", .obj [(cstr "type", .str (cstr "scheduled")),
      (cstr "name", .str (cstr "nightly")), (cstr "duration", .obj [(cstr "us", .int 1500)])])]

/-- Its keys name team `a`: the first label counts within a tag. -/
theorem isolated_labelledTransaction :
    tmServiceName reference (some labelledTransaction) = some (cstr "a-service:b") ∧
      Isolated plainEnv (some labelledTransaction) .transaction (cstr "a") := by
  refine ⟨by decide,
    (isolated_iff _ _ _ (cstr "a-service:b") _ (by decide) (by decide)).2 ?_⟩
  refine ⟨fun _ => by decide, fun _ => by decide, fun _ _ => ⟨by decide, ?_⟩⟩
  intro duration traceId type _ _ htype
  obtain rfl : cstr "scheduled" = type := Option.some.inj htype
  have htags : ListNames (cstr "a") (aggTagStringOf (cstr "a-service:b")) :=
    readTags_unwritten_iff.1 ⟨cstr "a-service:b", by decide⟩
  refine ⟨fun _ _ => ⟨?_, ?_, fun hcollect => absurd hcollect (by decide)⟩,
    fun h => absurd h (by decide)⟩
  · exact (textNames_iff_of_plain (by decide)).2 ⟨by decide, htags⟩
  · exact (textNames_iff_of_plain (by decide)).2 ⟨by decide, htags⟩

/-- A name that opens the tags of another team takes the aggregate there. -/
theorem not_isolated_of_injected :
    tmServiceName reference (some (scheduledTransaction (cstr "x|ST[service:e-f]"))) =
        some (cstr "a-b") ∧
      tmGetTeam (some (cstr "a-b")) = some (cstr "a") ∧
      ¬ Isolated plainEnv (some (scheduledTransaction (cstr "x|ST[service:e-f]"))) .transaction
        (cstr "a") := by
  refine ⟨by decide, by decide, fun h => ?_⟩
  have hread := h.of_eq_ok rfl ⟨⟨cstr "transaction - request_count - ",
    cstr "x|ST[service:e-f]", aggTagStringOf (cstr "a-b")⟩, true, .counter 1, 1553101770000⟩
    (by decide) rfl
  obtain ⟨read, hdecode, ⟨s, hs⟩, -⟩ := hread
  rw [decodeString_jsonEscapeStr] at hdecode
  obtain rfl := Option.some.inj hdecode
  have hteam : parseKey (NamedUpdate.key ⟨⟨cstr "transaction - request_count - ",
      cstr "x|ST[service:e-f]", aggTagStringOf (cstr "a-b")⟩, true, .counter 1,
      1553101770000⟩).metricName .unwritten =
        .ok (true, ⟨some (cstr "e-f"), some (cstr "e")⟩) := by
    decide
  rw [hteam] at hs
  cases hs

end Tracemate.Process
