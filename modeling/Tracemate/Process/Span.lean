import Tracemate.Process.Tags

/-!
# Spans and errors

`process_span_message` and `process_error_message`.

* `parseV6Type`: the second segment of a span's type;
* `dbUpdates`, `externalUpdates`, `internalUpdates`: the updates of the three kinds of spans;
* `processSpanMessage`, `processErrorMessage`: the functions.
-/

namespace Tracemate.Process

open CStr JsonC COutcome Tracemate.Metric

/-- `parse_v6_type`, into `calloc(1, 20)`. -/
def parseV6Type (type : Bytes) : Outcome Bytes :=
  if (46 : UInt8) ∈ type then
    fitting 20 (((type.dropWhile (· ≠ 46)).drop 1).takeWhile (· ≠ 46))
  else .ok (cstr "unknown")

/-- The local variables of `process_span_message` that its branches read. -/
structure Span where
  serviceName : Bytes
  td : TeamData
  tagString : Bytes
  aggTagString : Bytes
  durationUs : ℕ
  timestamp : ℕ
  metricFlushFreqMs : ℕ

namespace Span

variable (s : Span) (aggTimestamp : ℕ)

/-- A latency of this span. -/
def latency (stem text tags : Bytes) : Effect :=
  .updateHistogram ⟨stem, text, tags⟩ s.durationUs aggTimestamp

/-- One more call or statement. -/
def count (stem text tags : Bytes) : Effect :=
  .updateCounter ⟨stem, text, tags⟩ true 1 aggTimestamp

/-- The updates of a database span. -/
def dbUpdates (operation : Bytes) (subtype : Option Bytes) : List Effect :=
  let agg := s.aggTagString ++ rollupTag s.td
  let tags := s.tagString ++ rollupTag s.td
  [s.latency aggTimestamp (cstr "db - latency - ") operation agg] ++
  (if s.td.collectHostLevelMetrics then
    [s.latency aggTimestamp (cstr "db - latency - ") operation tags,
      count aggTimestamp (cstr "db - stmt_count - ") operation tags]
  else []) ++
  (match subtype with
    | none => []
    | some subtype =>
      [s.latency aggTimestamp (cstr "db - latency - ") (subtype ++ cstr " - " ++ operation) agg,
        count aggTimestamp (cstr "db - stmt_count - ") (subtype ++ cstr " - " ++ operation) tags,
        s.latency aggTimestamp (cstr "db - latency - ") subtype agg,
        count aggTimestamp (cstr "db - stmt_count - ") subtype s.aggTagString]) ++
  [s.latency aggTimestamp (cstr "db - latency - ") (cstr "all") s.aggTagString,
    count aggTimestamp (cstr "db - stmt_count - ") (cstr "all") s.aggTagString]

/-- The updates of a call to another service. -/
def externalUpdates (externalName : Bytes) : List Effect :=
  let tags := s.tagString ++ rollupTag s.td
  [s.latency aggTimestamp (cstr "external - latency - ") externalName (s.aggTagString ++ rollupTag s.td),
    s.latency aggTimestamp (cstr "external - latency - ") (cstr "all") s.aggTagString] ++
  (if s.td.collectHostLevelMetrics then
    [s.latency aggTimestamp (cstr "external - latency - ") externalName tags,
      count aggTimestamp (cstr "external - call_count - ") externalName tags]
  else []) ++
  [count aggTimestamp (cstr "external - call_count - ") (cstr "all") s.aggTagString]

/-- The updates of an internal span. -/
def internalUpdates (spanName : Bytes) : List Effect :=
  let agg := s.aggTagString ++ rollupTag s.td
  let tags := s.tagString ++ rollupTag s.td
  [s.latency aggTimestamp (cstr "internal - latency - ") spanName agg,
    s.latency aggTimestamp (cstr "internal - latency - ") (cstr "all") s.aggTagString,
    count aggTimestamp (cstr "internal - call_count - ") spanName agg,
    count aggTimestamp (cstr "internal - call_count - ") (cstr "all") s.aggTagString] ++
  if s.td.collectHostLevelMetrics then
    [s.latency aggTimestamp (cstr "internal - latency - ") spanName tags,
      count aggTimestamp (cstr "intternal - call_count - ") spanName tags]
  else []

end Span

section Document

variable (env : Env) (m : Option Json)

/-- The variable `subtype` of a database span. -/
def subtypeOf (span : Option Json) (type : Bytes) : Outcome (Option Bytes) :=
  if tmApmServerMajorVersion env.lib m > 6 then
    .ok (env.lib.getString (Json.get (cstr "subtype") span))
  else (parseV6Type type).map some

/-- The branches over the type of the span. -/
def processSpan (s : Span) (span : Option Json) (type : Bytes) : Outcome (List Effect) := do
  let name := env.lib.getString (Json.get (cstr "name") span)
  if type.take 2 = cstr "db" then
    let aggTimestamp ← centerTimestamp s.timestamp s.metricFlushFreqMs
    let subtype ← subtypeOf env m span type
    .ok (s.dbUpdates aggTimestamp (printS name) subtype)
  else if type = cstr "external.http" ∨ type = cstr "ext.http.http" ∨ type = cstr "external" then
    let (externalName, url) ←
      genericizePath env.curlEasyUnescape env.chopper s.serviceName name s.td
    let aggTimestamp ← centerTimestamp s.timestamp s.metricFlushFreqMs
    .ok ((url.map (Effect.sendUrl s.serviceName)).toList ++
      s.externalUpdates aggTimestamp externalName)
  else if type = cstr "custom" ∨ type = cstr "app" then
    let aggTimestamp ← centerTimestamp s.timestamp s.metricFlushFreqMs
    .ok (s.internalUpdates aggTimestamp (printS name))
  else .ok []

/-- `process_span_message`. -/
def processSpanMessage : Outcome (List Effect) := do
  match ← preProcess env m with
  -- `team` is read, which `pre_process` has not written
  | none => .error .outOfBounds
  | some prepared =>
    match Json.get (cstr "span") m with
    | none => .ok []
    | some span => do
      let aggTagString ← buildAggTagString env m
      match Json.get (cstr "duration") (some span) with
      | none => .ok []
      | some duration =>
        let durationUs := env.lib.getUint64 (Json.get (cstr "us") (some duration))
        let timestamp := (prepared.timestamp + durationUs / 1000) % 2 ^ 64
        match env.lib.getString (Json.get (cstr "id") (Json.get (cstr "trace") m)) with
        | none => .ok []
        | some traceId =>
          match tmServiceName env.lib m with
          | none => .ok [.addChild traceId, .messagesErrored]
          | some serviceName => do
            let type ← nonNull (env.lib.getString (Json.get (cstr "type") (some span)))
            let s : Span :=
              ⟨serviceName, env.getTeamData prepared.team, prepared.tagString, aggTagString,
                durationUs, timestamp, env.getMetricFlushFrequencyMs serviceName⟩
            let updates ← processSpan env m s (some span) type
            .ok (.addChild traceId :: updates)

/-- `process_error_message`. -/
def processErrorMessage : Outcome (List Effect) := do
  match ← preProcess env m with
  -- `team` is read, which `pre_process` has not written
  | none => .error .outOfBounds
  | some prepared =>
    let aggTagString ← buildAggTagString env m
    match tmServiceName env.lib m, Json.get (cstr "error") m, Json.get (cstr "trace") m with
    | some serviceName, some _, some traceJson => do
      let traceId ← nonNull (env.lib.getString (Json.get (cstr "id") (some traceJson)))
      let aggTimestamp ←
        centerTimestamp prepared.timestamp (env.getMetricFlushFrequencyMs serviceName)
      let td := env.getTeamData prepared.team
      let stem := cstr "transaction - apm_error_count"
      .ok ([.addChild traceId, .markTraceable traceId] ++
        (if td.collectHostLevelMetrics then
          [.updateCounter ⟨stem, [], prepared.tagString ++ rollupTag td⟩ true 1 aggTimestamp]
        else []) ++
        [.updateCounter ⟨stem, [], aggTagString⟩ true 1 aggTimestamp])
    | _, _, _ => .ok [.messagesErrored]

end Document

end Tracemate.Process
