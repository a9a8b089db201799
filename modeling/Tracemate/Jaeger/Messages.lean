import Tracemate.Jaeger.Ids
import Tracemate.Process.AggregateMessage
import Tracemate.Process.JaegerSpan

/-!
# Messages to Jaeger

`jaegerize_transaction` and `jaegerize_span` of `tm_jaeger.cpp`: the `proto::Span` that is sent for
a document, with the error that goes with it.

* `Span`: the messages of `jaeger.proto`, with the fields that are set;
* `buildStackTrace`: the text of a stack trace;
* `errorLog`, `jaegerizeError`: what an error adds to a span;
* `Draft`: what is set of a span before its id is read; `transactionDraft`, `spanDraft`;
* `finish`: the error, the ids, the times and the parent, for both kinds of documents;
* `send`: the functions.
-/

namespace Tracemate.Jaeger.Proto

open CStr COutcome Outcome Endian JsonC
open Tracemate.Process (ProtoTime foreachMember)
open Tracemate.Metric (printD)

/-! ### The message -/

/-- `proto::ValueType`. -/
inductive ValueType
  | string
  | bool
  | int64
  deriving DecidableEq

/-- A `proto::KeyValue`. -/
structure KeyValue where
  key : Bytes
  vType : ValueType
  vStr : Bytes
  vBool : Bool
  vInt64 : ℤ
  deriving DecidableEq

namespace KeyValue

def string (key vStr : Bytes) : KeyValue := ⟨key, .string, vStr, false, 0⟩

def bool (key : Bytes) (vBool : Bool) : KeyValue := ⟨key, .bool, [], vBool, 0⟩

def int64 (key : Bytes) (vInt64 : ℤ) : KeyValue := ⟨key, .int64, [], false, vInt64⟩

end KeyValue

/-- The seconds and nanoseconds that are set for a number of microseconds. -/
def protoTime (us : ℤ) : ProtoTime := ⟨us.tdiv 1000000, us.tmod 1000000 * 1000⟩

/-- A `proto::Log`. -/
structure Log where
  timestamp : ProtoTime
  fields : List KeyValue

/-- `proto::SpanRefType`. -/
inductive SpanRefType
  | childOf
  | followsFrom
  deriving DecidableEq

/-- A `proto::SpanRef`. -/
structure SpanRef where
  traceId : Bytes
  spanId : Bytes
  refType : SpanRefType
  deriving DecidableEq

/-- A `proto::Process`. -/
structure Process where
  serviceName : Bytes
  tags : List KeyValue

/-- A `proto::Span`.  It is sent as the only span of a batch, with its process as that of the
batch. -/
structure Span where
  traceId : Bytes
  spanId : Bytes
  operationName : Bytes
  references : List SpanRef
  flags : ℕ
  startTime : ProtoTime
  duration : ProtoTime
  tags : List KeyValue
  logs : List Log
  process : Process

/-- What is set of a span before its id is read. -/
structure Draft where
  operationName : Bytes
  tags : List KeyValue
  logs : List Log
  process : Process

/-- What only `tm_jaeger.cpp` calls of the JSON library. -/
structure Accessors where
  /-- `mtev_json_object_get_int64` -/
  getInt64 : Option Json → ℤ
  /-- The first item of what is no array, by way of `mtev_json_object_array_length` and
  `mtev_json_object_array_get_idx`. -/
  firstOther : Option Json → Outcome (Option Json)

variable (o : ByteOrder) (lib : Conversions) (acc : Accessors)

/-! ### Parts of documents -/

/-- The string of a value that is there. -/
def textOf : Json → Bytes
  | .str s => s
  | j => lib.toJsonString j

@[simp] theorem getString_some (j : Json) : lib.getString (some j) = some (textOf lib j) := by
  cases j <;> rfl

/-- A value that is added if it is there. -/
def ifThere (key : String) (x : Option Json) : List KeyValue :=
  match x with
  | none => []
  | some j => [.string (cstr key) (textOf lib j)]

/-- A value whose string is read without a check. -/
def required (key : String) (x : Option Json) : Outcome KeyValue := do
  let s ← nonNull (lib.getString x)
  .ok (.string (cstr key) s)

/-- A `std::ostringstream`: its text, and whether its `badbit` is set. -/
structure OStream where
  text : Bytes
  bad : Bool

/-- `operator<<`.  A null pointer sets the `badbit`, and nothing is written from then on. -/
def OStream.put (trace : OStream) (s : Option Bytes) : OStream :=
  if trace.bad then trace
  else match s with
    | none => { trace with bad := true }
    | some s => { trace with text := trace.text ++ s }

/-- What is written for the file of a frame, if it is there. -/
def filePieces (s : Option Json) : List (Option Bytes) :=
  match Json.get (cstr "filename") s with
  | none => []
  | some filename =>
    [some (cstr "("), lib.getString (some filename)] ++
    (match Json.get (cstr "line") s with
    | none => []
    | some line =>
      [some (cstr ":"), some (printD (lib.getInt (Json.get (cstr "number") (some line))))]) ++
    [some (cstr ")")]

/-- What is written for a frame. -/
def framePieces (s : Option Json) : List (Option Bytes) :=
  -- newer agents use "module" instead of "abs_path"
  let path := (Json.get (cstr "abs_path") s).or (Json.get (cstr "module") s)
  [lib.getString path, some (cstr ".")] ++
  (match Json.get (cstr "function") s with
  | none => []
  | some func => [lib.getString (some func)]) ++
  filePieces lib s ++ [some (cstr "\n")]

/-- What is written for a stack trace of these frames: twenty of them at most. -/
def tracePieces (frames : List Json) : List (Option Bytes) :=
  (frames.take 20).flatMap (fun s => framePieces lib s.pointer) ++
  if frames.length > 20 then [some (cstr "...\n")] else []

/-- `build_stack_trace`. -/
def buildStackTrace (stackTrace : Option Json) : Bytes :=
  match stackTrace with
  | some (.arr frames) => ((tracePieces lib frames).foldl OStream.put ⟨[], false⟩).text
  | _ => []

/-- The field for a stack trace that is there. -/
def stackTraceField (stackTrace : Option Json) : List KeyValue :=
  match stackTrace with
  | none => []
  | some st => [.string (cstr "stacktrace") (buildStackTrace lib (some st))]

/-- `RETURN_IF_MISSING`. -/
def returnIfMissing {α : Type} (o : Option Json) (field : String)
    (rest : Json → Outcome (Option α)) : Outcome (Option α) :=
  match Json.get (cstr field) o with
  | none => .ok none
  | some result => rest result

/-- The number `timestamp.us`. -/
def timestampUs (message : Option Json) : ℤ :=
  acc.getInt64 (Json.get (cstr "us") (Json.get (cstr "timestamp") message))

/-! ### Errors -/

/-- `first_exception`.  From version 7 on, "exception" is an array. -/
def firstException (mv : ℕ) (exception : Option Json) : Outcome (Option Json) :=
  if mv = 6 then .ok exception
  else if mv > 6 then
    match exception with
    | some (.arr items) => .ok (Json.item 0 (some (.arr items)))
    | _ => acc.firstOther exception
  else .ok none

/-- The fields for the exception. -/
def exceptionFields (culprit first : Option Json) : List KeyValue :=
  if first.isSome then
    ifThere lib "culprit" culprit ++ ifThere lib "message" (Json.get (cstr "message") first) ++
    ifThere lib "module" (Json.get (cstr "module") first) ++
    ifThere lib "type" (Json.get (cstr "type") first) ++
    stackTraceField lib (Json.get (cstr "stacktrace") first)
  else []

/-- The fields for the request, the response and the system. -/
def requestFields (mv : ℕ) (message : Option Json) : List KeyValue :=
  let context := Json.get (cstr "context") message
  let http := Json.get (cstr "http") message
  if mv = 6 then
    ifThere lib "request" (Json.get (cstr "request") context) ++
    ifThere lib "response" (Json.get (cstr "response") context) ++
    ifThere lib "system" (Json.get (cstr "system") context)
  else if mv > 6 then
    ifThere lib "request" (Json.get (cstr "request") http) ++
    ifThere lib "response" (Json.get (cstr "response") http) ++
    ifThere lib "system" (Json.get (cstr "host") message)
  else []

/-- The log of an error; there is none if a required member is missing. -/
def errorLog (message : Option Json) : Outcome (Option Log) :=
  returnIfMissing message "error" fun errorJson =>
  returnIfMissing message "timestamp" fun timestamp =>
  returnIfMissing (some timestamp) "us" fun _ =>
  returnIfMissing message "trace" fun _ => do
    let mv := tmApmServerMajorVersion lib message
    let first ← firstException acc mv (Json.get (cstr "exception") (some errorJson))
    return some
      { timestamp := protoTime (timestampUs acc message)
        fields := exceptionFields lib (Json.get (cstr "culprit") (some errorJson)) first ++
          requestFields lib mv message }

/-- The span with the log of its error, if there is one. -/
def Draft.record (span : Draft) : Option Log → Draft
  | none => span
  | some log =>
    { span with
      tags := span.tags ++ [.bool (cstr "error") true]
      logs := span.logs ++ [log] }

/-- `jaegerize_error`. -/
def jaegerizeError (message : Option Json) (span : Draft) : Outcome Draft := do
  let log ← errorLog lib acc message
  return span.record log

/-! ### Transactions -/

/-- `context` of a transaction. -/
def transactionContext (mv : ℕ) (message : Option Json) : Option Json :=
  if mv = 6 then Json.get (cstr "context") message
  else if mv > 6 then message
  else none

/-- A tag for each member of the labels. -/
def labelTags (labels : Option Json) : Outcome (List KeyValue) :=
  match labels with
  | none => .ok []
  | some (.obj members) =>
    .ok ((foreachMember members).filterMap fun m =>
      m.2.pointer.map fun v => .string m.1 (textOf lib v))
  -- the macro reads the value as an object
  | some _ => .error .outOfBounds

/-- What the type of a transaction adds: tags and logs of the span, and tags of the process. -/
structure Parts where
  tags : List KeyValue
  logs : List Log
  processTags : List KeyValue

/-- The parts for the request `req` and its response; `path` is the path of its `url`. -/
def requestParts (ts : ℤ) (context service req resp url path : Option Json) : Parts where
  tags := ifThere lib "http.method" (Json.get (cstr "method") req) ++
    ifThere lib "http.url" path ++
    (match Json.get (cstr "status_code") resp with
    | none => []
    | some statusCode => [.int64 (cstr "http.status_code") (lib.getInt (some statusCode))])
  logs := [⟨protoTime ts,
    ifThere lib "request.headers" (Json.get (cstr "headers") req) ++
    ifThere lib "response.headers" (Json.get (cstr "headers") resp) ++
    ifThere lib "request.socket" (Json.get (cstr "socket") req) ++
    ifThere lib "request.url" url⟩]
  processTags := ifThere lib "environment" (Json.get (cstr "environment") service) ++
    ifThere lib "user" (Json.get (cstr "user") context)

/-- The branch for requests; nothing is sent without a request and a response. -/
def requestBranch (mv : ℕ) (ts : ℤ) (message context service : Option Json) : Option Parts :=
  let root := if mv = 6 then context else Json.get (cstr "http") message
  let req := Json.get (cstr "request") root
  let resp := Json.get (cstr "response") root
  let url := if mv = 6 then Json.get (cstr "url") req
    else if mv > 6 then Json.get (cstr "url") message
    else none
  let path := if mv = 6 then Json.get (cstr "pathname") url
    else if mv > 6 then Json.get (cstr "path") url
    else none
  if req.isSome ∧ resp.isSome then some (requestParts lib ts context service req resp url path)
  else none

/-- The branches over the type of a transaction. -/
def transactionBranch (mv : ℕ) (ts : ℤ) (type : Bytes) (message context service : Option Json) :
    Option Parts :=
  if type = cstr "request" then requestBranch lib mv ts message context service
  else if type = cstr "page-load" then
    some ⟨[.string (cstr "span.kind") (cstr "client")], [], []⟩
  else some ⟨[], [], []⟩

/-- The tags for the name and the version of an agent or a runtime. -/
def nameAndVersion (name version : String) (x : Option Json) : Outcome (List KeyValue) :=
  match x with
  | none => .ok []
  | some j => do
    let name ← required lib name (Json.get (cstr "name") (some j))
    let version ← required lib version (Json.get (cstr "version") (some j))
    .ok [name, version]

/-- The tag for the process of the agent. -/
def pidTag (process : Option Json) : List KeyValue :=
  match process with
  | none => []
  | some process =>
    [.int64 (cstr "process.pid") (acc.getInt64 (Json.get (cstr "pid") (some process)))]

/-- `jaegerize_transaction` before the id is read, once all required members are there. -/
def draftTransaction (message : Option Json) (transName transType trace : Json) :
    Outcome (Option Draft) := do
  let mv := tmApmServerMajorVersion lib message
  let context := transactionContext mv message
  let service := Json.get (cstr "service") context
  let serviceName ← nonNull (tmServiceName lib message)
  -- the trace id is also a tag, for the correlation with logs
  let traceIdTag ← required lib "trace.id" (Json.get (cstr "id") (some trace))
  let labels ← labelTags lib
    (Json.get (if mv = 6 then cstr "tags" else cstr "labels") context)
  match transactionBranch lib mv (timestampUs acc message) (textOf lib transType) message context
    service with
  | none => return none
  | some parts => do
    let agent ← nameAndVersion lib "elastic_apm_agent.name" "elastic_apm_agent.version"
      (Json.get (cstr "agent") (if mv = 6 then service else context))
    let runtime ← nameAndVersion lib "runtime.name" "runtime.version"
      (Json.get (cstr "runtime") service)
    let system := Json.get (if mv = 6 then cstr "system" else cstr "host") context
    return some
      { operationName := textOf lib transName
        tags := traceIdTag :: labels ++ [.string (cstr "span.kind") (cstr "server")] ++ parts.tags
        logs := parts.logs
        process := ⟨serviceName, parts.processTags ++ agent ++ runtime ++
          pidTag acc (Json.get (cstr "process") context) ++ ifThere lib "system" system⟩ }

/-- `jaegerize_transaction` before the id is read. -/
def transactionDraft (message : Option Json) : Outcome (Option Draft) :=
  returnIfMissing message "transaction" fun trans =>
  returnIfMissing message "timestamp" fun timestamp =>
  returnIfMissing (some timestamp) "us" fun _ =>
  returnIfMissing (some trans) "name" fun transName =>
  returnIfMissing (some trans) "type" fun transType =>
  returnIfMissing message "trace" fun trace =>
  draftTransaction lib acc message transName transType trace

/-! ### Spans -/

/-- The tags and the logs that depend on the type of a span. -/
def typeBranch (mv : ℕ) (ts : ℤ) (type : Bytes) (message context spanJson : Option Json) :
    List KeyValue × List Log :=
  let server : KeyValue := .string (cstr "span.kind") (cstr "server")
  let client : KeyValue := .string (cstr "span.kind") (cstr "client")
  let subtype := Json.get (cstr "subtype") spanJson
  let stacktrace := stackTraceField lib (Json.get (cstr "stacktrace") spanJson)
  if (cstr "message_read").isPrefixOf type ∨ (cstr "messaging").isPrefixOf type then
    ([server, .string (cstr "type") type] ++ ifThere lib "subtype" subtype, [])
  else if (cstr "db").isPrefixOf type then
    let db := if mv = 6 then Json.get (cstr "db") context
      else if mv > 6 then Json.get (cstr "db") spanJson
      else none
    ([server], [⟨protoTime ts, ifThere lib "context.db" db ++ ifThere lib "subtype" subtype ++
      ifThere lib "action" (Json.get (cstr "action") spanJson) ++ stacktrace⟩])
  else if type = cstr "external.http" ∨ type = cstr "ext.http.http" ∨
      type = cstr "external" then
    let http := if mv = 6 then Json.get (cstr "http") context
      else if mv > 6 then Json.get (cstr "http") spanJson
      else none
    let orig := Json.get (cstr "original") (Json.get (cstr "url") message)
    ([server] ++ ifThere lib "http.url" orig, [⟨protoTime ts, ifThere lib "context.http" http ++
      ifThere lib "context.destination" (Json.get (cstr "destination") spanJson) ++ stacktrace⟩])
  else if type = cstr "resource" ∨ type = cstr "hard-navigation" then
    ([client, .string (cstr "type") type], [])
  else if type = cstr "cache" then
    ([server, .string (cstr "span.type") (cstr "cache")] ++ ifThere lib "cache.type" subtype,
      [⟨protoTime ts, stacktrace⟩])
  else if type = cstr "app" ∨ type = cstr "custom" then
    -- custom or app are internal function calls or internal code blocks
    ([server, .string (cstr "type") type], [])
  else ([], [])

/-- `jaegerize_span` before the id is read. -/
def spanDraft (message : Option Json) : Outcome (Option Draft) :=
  let mv := tmApmServerMajorVersion lib message
  let context := if mv = 6 then Json.get (cstr "context") message else message
  returnIfMissing message "span" fun spanJson =>
  returnIfMissing message "timestamp" fun timestamp =>
  returnIfMissing (some timestamp) "us" fun _ =>
  returnIfMissing (some spanJson) "name" fun spanName =>
  returnIfMissing context "service" fun _ =>
  returnIfMissing message "trace" fun _ => do
    let serviceName ← nonNull (tmServiceName lib message)
    let type ← nonNull (lib.getString (Json.get (cstr "type") (some spanJson)))
    let branch := typeBranch lib mv (timestampUs acc message) type message context (some spanJson)
    return some
      { operationName := textOf lib spanName
        tags := branch.1
        logs := branch.2
        process := ⟨serviceName, []⟩ }

/-! ### Both kinds -/

/-- The bytes of the trace id. -/
def traceIdBytes (message : Option Json) : Bytes :=
  (fillTraceId o (lib.getString
    (Json.get (cstr "id") (Json.get (cstr "trace") message)))).bytes o

/-- The reference to the parent, in the trace of the span. -/
def parentReference (tid : Bytes) (parent : Option Json) : Outcome (List SpanRef) :=
  match parent with
  | none => .ok []
  | some parent => do
    let parentHex ← nonNull (lib.getString (Json.get (cstr "id") (some parent)))
    .ok [⟨tid, spanIdBytes o parentHex, .childOf⟩]

/-- The member of a document that has its name and its duration. -/
def bodyOf (kind : Kind) (message : Option Json) : Option Json :=
  match kind with
  | .transaction => Json.get (cstr "transaction") message
  | .span => Json.get (cstr "span") message

/-- The number `duration.us`. -/
def durationUs (kind : Kind) (message : Option Json) : ℤ :=
  acc.getInt64 (Json.get (cstr "us") (Json.get (cstr "duration") (bodyOf kind message)))

/-- The ids, the times and the references are set. -/
def Draft.complete (span : Draft) (kind : Kind) (message : Option Json) (tid id : Bytes)
    (references : List SpanRef) : Span where
  traceId := tid
  spanId := spanIdBytes o id
  operationName := span.operationName
  references := references
  -- sampled
  flags := 1
  startTime := protoTime (timestampUs acc message)
  duration := protoTime (durationUs acc kind message)
  tags := span.tags
  logs := span.logs
  process := span.process

/-- The span with the error that is found for its id, if there is one. -/
def attachError (error : Option Json) (span : Draft) : Outcome Draft :=
  match error with
  | none => .ok span
  | some error => jaegerizeError lib acc (some error) span

/-- What is done from the id on: the error of the span, and what is set after it. -/
def finish (errors : Bytes → Option Json) (kind : Kind) (message : Option Json) (span : Draft) :
    Outcome Span := do
  let id ← nonNull (lib.getString (kind.id lib message))
  let span ← attachError lib acc (errors id) span
  let tid := traceIdBytes o lib message
  let references ← parentReference o lib tid (Json.get (cstr "parent") message)
  return span.complete o acc kind message tid id references

/-- What is set before the id is read; nothing if the document is not sent. -/
def draftOf (kind : Kind) (message : Option Json) : Outcome (Option Draft) :=
  match kind with
  | .transaction => transactionDraft lib acc message
  | .span => spanDraft lib acc message

/-- `jaegerize_transaction` and `jaegerize_span`: the span that is sent, if any.  There is no
client for an empty URL. -/
def send (kind : Kind) (jaegerUrl : Bytes) (errors : Bytes → Option Json)
    (message : Option Json) : Outcome (Option Span) :=
  if jaegerUrl = [] then .ok none
  else do
    let some span ← draftOf lib acc kind message | return none
    let span ← finish o lib acc errors kind message span
    return some span

/-! ### What is sent -/

theorem returnIfMissing_eq_some {α : Type} {m : Option Json} {field : String}
    {rest : Json → Outcome (Option α)} {a : α} :
    returnIfMissing m field rest = .ok (some a) ↔
      ∃ result, Json.get (cstr field) m = some result ∧ rest result = .ok (some a) := by
  unfold returnIfMissing
  cases Json.get (cstr field) m with
  | none => simp
  | some result => simp

variable {o lib acc} {errors : Bytes → Option Json} {kind : Kind} {jaegerUrl : Bytes}
  {message : Option Json} {draft : Draft} {span : Span}

/-- The log of the error that is found for an id. -/
def foundLog (lib : Conversions) (acc : Accessors) (error : Option Json) : Outcome (Option Log) :=
  match error with
  | none => .ok none
  | some error => errorLog lib acc (some error)

theorem attachError_eq_ok {error : Option Json} {recorded : Draft} :
    attachError lib acc error draft = .ok recorded ↔
      ∃ log, foundLog lib acc error = .ok log ∧ recorded = draft.record log := by
  cases error with
  | none =>
    constructor
    · intro h
      exact ⟨none, rfl, (Except.ok.inj h).symm⟩
    · rintro ⟨log, hlog, rfl⟩
      obtain rfl := Except.ok.inj hlog
      rfl
  | some error =>
    constructor
    · intro h
      obtain ⟨log, hlog, h⟩ := bind_eq_ok.1 h
      exact ⟨log, hlog, (Except.ok.inj h).symm⟩
    · rintro ⟨log, hlog, rfl⟩
      exact bind_eq_ok.2 ⟨log, hlog, rfl⟩

theorem finish_eq_ok : finish o lib acc errors kind message draft = .ok span ↔
    ∃ id log references, lib.getString (kind.id lib message) = some id ∧
      foundLog lib acc (errors id) = .ok log ∧
      parentReference o lib (traceIdBytes o lib message) (Json.get (cstr "parent") message) =
        .ok references ∧
      span = (draft.record log).complete o acc kind message (traceIdBytes o lib message) id
        references := by
  constructor
  · intro h
    obtain ⟨id, hid, h⟩ := bind_eq_ok.1 h
    obtain ⟨recorded, hrecorded, h⟩ := bind_eq_ok.1 h
    obtain ⟨references, hreferences, h⟩ := bind_eq_ok.1 h
    obtain rfl := Except.ok.inj h
    obtain ⟨log, hlog, rfl⟩ := attachError_eq_ok.1 hrecorded
    exact ⟨id, log, references, nonNull_eq_ok.1 hid, hlog, hreferences, rfl⟩
  · rintro ⟨id, log, references, hid, hlog, hreferences, rfl⟩
    have hrecorded : attachError lib acc (errors id) draft = .ok (draft.record log) :=
      attachError_eq_ok.2 ⟨log, hlog, rfl⟩
    exact bind_eq_ok.2 ⟨id, nonNull_eq_ok.2 hid, bind_eq_ok.2 ⟨_, hrecorded,
      bind_eq_ok.2 ⟨references, hreferences, rfl⟩⟩⟩

theorem send_eq_some : send o lib acc kind jaegerUrl errors message = .ok (some span) ↔
    jaegerUrl ≠ [] ∧ ∃ draft, draftOf lib acc kind message = .ok (some draft) ∧
      finish o lib acc errors kind message draft = .ok span := by
  unfold send
  by_cases hurl : jaegerUrl = []
  · simp [hurl]
  · rw [if_neg hurl]
    constructor
    · intro h
      obtain ⟨draft, hdraft, h⟩ := bind_eq_ok.1 h
      cases draft with
      | none => cases h
      | some draft =>
        obtain ⟨span', hfinish, h⟩ := bind_eq_ok.1 h
        obtain rfl := Option.some.inj (Except.ok.inj h)
        exact ⟨hurl, draft, hdraft, hfinish⟩
    · rintro ⟨-, draft, hdraft, hfinish⟩
      exact bind_eq_ok.2 ⟨some draft, hdraft, bind_eq_ok.2 ⟨span, hfinish, rfl⟩⟩

section Drafts

variable {transName transType trace : Json}

/-- What a transaction is drafted from. -/
theorem draftTransaction_eq_some :
    draftTransaction lib acc message transName transType trace = .ok (some draft) ↔
    let mv := tmApmServerMajorVersion lib message
    let context := transactionContext mv message
    let service := Json.get (cstr "service") context
    ∃ serviceName traceIdTag labels parts agent runtime,
      tmServiceName lib message = some serviceName ∧
      required lib "trace.id" (Json.get (cstr "id") (some trace)) = .ok traceIdTag ∧
      labelTags lib (Json.get (if mv = 6 then cstr "tags" else cstr "labels") context) =
        .ok labels ∧
      transactionBranch lib mv (timestampUs acc message) (textOf lib transType) message context
        service = some parts ∧
      nameAndVersion lib "elastic_apm_agent.name" "elastic_apm_agent.version"
        (Json.get (cstr "agent") (if mv = 6 then service else context)) = .ok agent ∧
      nameAndVersion lib "runtime.name" "runtime.version" (Json.get (cstr "runtime") service) =
        .ok runtime ∧
      draft = ⟨textOf lib transName,
        traceIdTag :: labels ++ [.string (cstr "span.kind") (cstr "server")] ++ parts.tags,
        parts.logs,
        ⟨serviceName, parts.processTags ++ agent ++ runtime ++
          pidTag acc (Json.get (cstr "process") context) ++
          ifThere lib "system"
            (Json.get (if mv = 6 then cstr "system" else cstr "host") context)⟩⟩ := by
  constructor
  · intro h
    obtain ⟨serviceName, hservice, h⟩ := bind_eq_ok.1 h
    obtain ⟨traceIdTag, htrace, h⟩ := bind_eq_ok.1 h
    obtain ⟨labels, hlabels, h⟩ := bind_eq_ok.1 h
    split at h
    · cases h
    · rename_i parts hparts
      obtain ⟨agent, hagent, h⟩ := bind_eq_ok.1 h
      obtain ⟨runtime, hruntime, h⟩ := bind_eq_ok.1 h
      obtain rfl := Option.some.inj (Except.ok.inj h)
      exact ⟨serviceName, traceIdTag, labels, parts, agent, runtime, nonNull_eq_ok.1 hservice,
        htrace, hlabels, hparts, hagent, hruntime, rfl⟩
  · rintro ⟨serviceName, traceIdTag, labels, parts, agent, runtime, hservice, htrace, hlabels,
      hparts, hagent, hruntime, rfl⟩
    refine bind_eq_ok.2 ⟨serviceName, nonNull_eq_ok.2 hservice, bind_eq_ok.2 ⟨traceIdTag, htrace,
      bind_eq_ok.2 ⟨labels, hlabels, ?_⟩⟩⟩
    rw [hparts]
    exact bind_eq_ok.2 ⟨agent, hagent, bind_eq_ok.2 ⟨runtime, hruntime, rfl⟩⟩

/-- A transaction that is drafted has the required members. -/
theorem transactionDraft_eq_some : transactionDraft lib acc message = .ok (some draft) ↔
    ∃ trans us transName transType trace,
      Json.get (cstr "transaction") message = some trans ∧
      Json.get (cstr "us") (Json.get (cstr "timestamp") message) = some us ∧
      Json.get (cstr "name") (some trans) = some transName ∧
      Json.get (cstr "type") (some trans) = some transType ∧
      Json.get (cstr "trace") message = some trace ∧
      draftTransaction lib acc message transName transType trace = .ok (some draft) := by
  unfold transactionDraft
  simp only [returnIfMissing_eq_some]
  constructor
  · rintro ⟨trans, htrans, timestamp, htimestamp, us, hus, transName, hname, transType, htype,
      trace, htrace, h⟩
    exact ⟨trans, us, transName, transType, trace, htrans, by rw [htimestamp, hus], hname, htype,
      htrace, h⟩
  · rintro ⟨trans, us, transName, transType, trace, htrans, hus, hname, htype, htrace, h⟩
    cases htimestamp : Json.get (cstr "timestamp") message with
    | none =>
      rw [htimestamp] at hus
      cases hus
    | some timestamp =>
      rw [htimestamp] at hus
      exact ⟨trans, htrans, timestamp, rfl, us, hus, transName, hname, transType, htype, trace,
        htrace, h⟩

/-- What a span is drafted from. -/
theorem spanDraft_eq_some : spanDraft lib acc message = .ok (some draft) ↔
    let mv := tmApmServerMajorVersion lib message
    let context := if mv = 6 then Json.get (cstr "context") message else message
    ∃ spanJson us spanName serviceName type,
      Json.get (cstr "span") message = some spanJson ∧
      Json.get (cstr "us") (Json.get (cstr "timestamp") message) = some us ∧
      Json.get (cstr "name") (some spanJson) = some spanName ∧
      (Json.get (cstr "service") context).isSome ∧
      (Json.get (cstr "trace") message).isSome ∧
      tmServiceName lib message = some serviceName ∧
      lib.getString (Json.get (cstr "type") (some spanJson)) = some type ∧
      draft = ⟨textOf lib spanName,
        (typeBranch lib mv (timestampUs acc message) type message context (some spanJson)).1,
        (typeBranch lib mv (timestampUs acc message) type message context (some spanJson)).2,
        ⟨serviceName, []⟩⟩ := by
  unfold spanDraft
  simp only [returnIfMissing_eq_some, Option.isSome_iff_exists]
  constructor
  · rintro ⟨spanJson, hspan, timestamp, htimestamp, us, hus, spanName, hname, service, hservice,
      trace, htrace, h⟩
    obtain ⟨serviceName, hserviceName, h⟩ := bind_eq_ok.1 h
    obtain ⟨type, htype, h⟩ := bind_eq_ok.1 h
    obtain rfl := Option.some.inj (Except.ok.inj h)
    exact ⟨spanJson, us, spanName, serviceName, type, hspan, by rw [htimestamp, hus], hname,
      ⟨service, hservice⟩, ⟨trace, htrace⟩, nonNull_eq_ok.1 hserviceName, nonNull_eq_ok.1 htype,
      rfl⟩
  · rintro ⟨spanJson, us, spanName, serviceName, type, hspan, hus, hname, ⟨service, hservice⟩,
      ⟨trace, htrace⟩, hserviceName, htype, rfl⟩
    cases htimestamp : Json.get (cstr "timestamp") message with
    | none =>
      rw [htimestamp] at hus
      cases hus
    | some timestamp =>
      rw [htimestamp] at hus
      exact ⟨spanJson, hspan, timestamp, rfl, us, hus, spanName, hname, service, hservice, trace,
        htrace, bind_eq_ok.2 ⟨serviceName, nonNull_eq_ok.2 hserviceName, bind_eq_ok.2 ⟨type,
          nonNull_eq_ok.2 htype, rfl⟩⟩⟩

end Drafts

/-! ### Ids and times -/

/-- A `google.protobuf.Timestamp`: the nanoseconds count forward, also before 1970. -/
def NormalTimestamp (t : ProtoTime) : Prop := 0 ≤ t.nanos ∧ t.nanos < 1000000000

/-- A `google.protobuf.Duration`: the nanoseconds are below a second, with the sign of the
seconds. -/
structure NormalDuration (t : ProtoTime) : Prop where
  lt : t.nanos.natAbs < 1000000000
  nonneg : 0 < t.seconds → 0 ≤ t.nanos
  nonpos : t.seconds < 0 → t.nanos ≤ 0

/-- The time that is read is the one that was set. -/
theorem us_protoTime (us : ℤ) : (protoTime us).us = us := by
  have hnanos : (us.tmod 1000000 * 1000).tdiv 1000 = us.tmod 1000000 :=
    Int.mul_tdiv_cancel _ (by omega)
  rw [ProtoTime.us, protoTime, hnanos, Int.mul_comm]
  exact Int.mul_tdiv_add_tmod us 1000000

theorem protoTime_neg (us : ℤ) :
    protoTime (-us) = ⟨-(protoTime us).seconds, -(protoTime us).nanos⟩ := by
  rw [protoTime, protoTime, Int.neg_tdiv, Int.neg_tmod, Int.neg_mul]

theorem normalDuration_protoTime (us : ℤ) : NormalDuration (protoTime us) := by
  have hnonneg : ∀ us : ℤ, 0 ≤ us → 0 ≤ (protoTime us).seconds ∧ 0 ≤ (protoTime us).nanos ∧
      (protoTime us).nanos < 1000000000 := by
    intro us h
    rw [protoTime, Int.tdiv_eq_ediv_of_nonneg h, Int.tmod_eq_emod_of_nonneg h]
    dsimp only
    omega
  rcases Int.le_total 0 us with h | h
  · obtain ⟨hs, hn, hlt⟩ := hnonneg us h
    exact ⟨by omega, fun _ => hn, by omega⟩
  · obtain ⟨hs, hn, hlt⟩ := hnonneg (-us) (by omega)
    rw [protoTime_neg] at hs hn hlt
    dsimp only at hs hn hlt
    exact ⟨by omega, by omega, by omega⟩

/-- The division rounds towards zero, which is the wrong way before 1970. -/
theorem normalTimestamp_protoTime (us : ℤ) :
    NormalTimestamp (protoTime us) ↔ 0 ≤ us ∨ 1000000 ∣ us := by
  have hbound := (normalDuration_protoTime us).lt
  have hnanos : 0 ≤ us.tmod 1000000 ↔ 0 ≤ us ∨ 1000000 ∣ us := by
    constructor
    · intro h
      by_contra hno
      obtain ⟨hneg, hdvd⟩ := not_or.1 hno
      have hle : us.tmod 1000000 ≤ 0 := by
        rw [← Int.neg_neg us, Int.neg_tmod]
        have := Int.tmod_nonneg 1000000 (a := -us) (by omega)
        omega
      exact hdvd (Int.dvd_of_tmod_eq_zero (le_antisymm hle h))
    · rintro (h | h)
      · exact Int.tmod_nonneg 1000000 h
      · rw [Int.tmod_eq_zero_of_dvd h]
  rw [← hnanos]
  unfold NormalTimestamp
  unfold protoTime at hbound ⊢
  dsimp only at hbound ⊢
  omega

theorem stamped_typeBranch {mv : ℕ} {ts : ℤ} {type : Bytes} {context spanJson : Option Json} :
    ∀ log ∈ (typeBranch lib mv ts type message context spanJson).2,
      log.timestamp = protoTime ts := by
  unfold typeBranch
  split_ifs <;> simp

theorem stamped_transactionBranch {mv : ℕ} {ts : ℤ} {type : Bytes} {context service : Option Json}
    {parts : Parts}
    (h : transactionBranch lib mv ts type message context service = some parts) :
    ∀ log ∈ parts.logs, log.timestamp = protoTime ts := by
  unfold transactionBranch at h
  split_ifs at h
  · obtain ⟨-, h⟩ := Option.ite_none_right_eq_some.1 h
    obtain rfl := Option.some.inj h
    simp [requestParts]
  · obtain rfl := Option.some.inj h
    simp
  · obtain rfl := Option.some.inj h
    simp

/-- The logs of a draft have the time of the document. -/
theorem stamped_draftOf (h : draftOf lib acc kind message = .ok (some draft)) :
    ∀ log ∈ draft.logs, log.timestamp = protoTime (timestampUs acc message) := by
  cases kind with
  | transaction =>
    obtain ⟨trans, us, transName, transType, trace, -, -, -, -, -, h⟩ :=
      transactionDraft_eq_some.1 h
    obtain ⟨serviceName, traceIdTag, labels, parts, agent, runtime, -, -, -, hparts, -, -, rfl⟩ :=
      draftTransaction_eq_some.1 h
    exact stamped_transactionBranch hparts
  | span =>
    obtain ⟨spanJson, us, spanName, serviceName, type, -, -, -, -, -, -, -, rfl⟩ :=
      spanDraft_eq_some.1 h
    exact stamped_typeBranch

/-- The log of an error has the time of the error. -/
theorem stamped_foundLog {error : Option Json} {log : Log}
    (h : foundLog lib acc error = .ok (some log)) :
    ∃ e, error = some e ∧ log.timestamp = protoTime (timestampUs acc (some e)) := by
  cases error with
  | none => cases h
  | some e =>
    refine ⟨e, rfl, ?_⟩
    unfold foundLog errorLog at h
    simp only [returnIfMissing_eq_some] at h
    obtain ⟨errorJson, -, timestamp, -, us, -, trace, -, h⟩ := h
    obtain ⟨first, -, h⟩ := bind_eq_ok.1 h
    obtain rfl := Option.some.inj (Except.ok.inj h)
    rfl

/-- The ids of a span, with those of its parent. -/
def Span.ids (span : Span) : SpanIds :=
  ⟨span.traceId, span.spanId, span.references.head?.map fun r => ⟨r.traceId, r.spanId⟩⟩

/-- The ids of a transaction that is drafted are read. -/
theorem ids_of_draft (hdraft : draftOf lib acc kind message = .ok (some draft)) {id : Bytes}
    {references : List SpanRef} (hid : lib.getString (kind.id lib message) = some id)
    (hreferences : parentReference o lib (traceIdBytes o lib message)
      (Json.get (cstr "parent") message) = .ok references) :
    kind.jaegerize o lib message = .ok ⟨traceIdBytes o lib message, spanIdBytes o id,
      references.head?.map fun r => ⟨r.traceId, r.spanId⟩⟩ ∧
      ∀ r ∈ references, r.refType = .childOf := by
  have hset : setIds o lib (kind.id lib message) message = .ok ⟨traceIdBytes o lib message,
      spanIdBytes o id, references.head?.map fun r => ⟨r.traceId, r.spanId⟩⟩ ∧
      ∀ r ∈ references, r.refType = .childOf := by
    cases hparent : Json.get (cstr "parent") message with
    | none =>
      rw [hparent] at hreferences
      obtain rfl := Except.ok.inj hreferences
      refine ⟨bind_eq_ok.2 ⟨id, nonNull_eq_ok.2 hid, ?_⟩, nofun⟩
      rw [hparent]
      rfl
    | some parent =>
      rw [hparent] at hreferences
      obtain ⟨parentHex, hhex, h⟩ := bind_eq_ok.1 hreferences
      obtain rfl := Except.ok.inj h
      refine ⟨bind_eq_ok.2 ⟨id, nonNull_eq_ok.2 hid, ?_⟩, fun r hr => ?_⟩
      · rw [hparent]
        exact bind_eq_ok.2 ⟨parentHex, hhex, rfl⟩
      · rw [List.mem_singleton.1 hr]
  cases kind with
  | span => exact hset
  | transaction =>
    obtain ⟨trans, us, transName, transType, trace, -, -, -, -, htrace, h⟩ :=
      transactionDraft_eq_some.1 hdraft
    obtain ⟨serviceName, traceIdTag, labels, parts, agent, runtime, -, htag, -⟩ :=
      draftTransaction_eq_some.1 h
    obtain ⟨s, hs, -⟩ := bind_eq_ok.1 htag
    refine ⟨bind_eq_ok.2 ⟨s, ?_, hset.1⟩, hset.2⟩
    rw [htrace, hs]

/-- **Ids and times.**  A span that is sent has the ids of its document, at most the one reference
to its parent, and times from which the microseconds of the document come back.  Its duration is a
normal one of the protocol buffers; its start is a normal timestamp exactly if it is not before 1970
or has no fraction of a second.  Each of its logs has the time of the document or of the error that
goes with it. -/
theorem sent_ids_times (h : send o lib acc kind jaegerUrl errors message = .ok (some span)) :
    kind.jaegerize o lib message = .ok span.ids ∧ span.references.length ≤ 1 ∧
      (∀ r ∈ span.references, r.refType = .childOf) ∧
      span.startTime.us = timestampUs acc message ∧
      span.duration.us = durationUs acc kind message ∧ NormalDuration span.duration ∧
      (NormalTimestamp span.startTime ↔
        0 ≤ timestampUs acc message ∨ 1000000 ∣ timestampUs acc message) ∧
      ∀ log ∈ span.logs,
        (NormalTimestamp log.timestamp ↔ 0 ≤ log.timestamp.us ∨ 1000000 ∣ log.timestamp.us) ∧
        (log.timestamp.us = timestampUs acc message ∨
          ∃ id error, lib.getString (kind.id lib message) = some id ∧ errors id = some error ∧
            log.timestamp.us = timestampUs acc (some error)) := by
  obtain ⟨-, draft, hdraft, hfinish⟩ := send_eq_some.1 h
  obtain ⟨id, log, references, hid, hlog, hreferences, rfl⟩ := finish_eq_ok.1 hfinish
  have hnormal : ∀ us, NormalTimestamp (protoTime us) ↔
      0 ≤ (protoTime us).us ∨ 1000000 ∣ (protoTime us).us := fun us => by
    rw [us_protoTime]
    exact normalTimestamp_protoTime us
  have hstamped : ∀ l ∈ draft.logs, l.timestamp = protoTime (timestampUs acc message) :=
    fun l hl => stamped_draftOf hdraft l hl
  obtain ⟨hids, hchild⟩ := ids_of_draft hdraft hid hreferences
  refine ⟨hids, ?_, hchild, us_protoTime _, us_protoTime _, normalDuration_protoTime _,
    normalTimestamp_protoTime _, ?_⟩
  · show references.length ≤ 1
    unfold parentReference at hreferences
    split at hreferences
    · obtain rfl := Except.ok.inj hreferences
      exact Nat.zero_le _
    · obtain ⟨parentHex, -, hreferences⟩ := bind_eq_ok.1 hreferences
      obtain rfl := Except.ok.inj hreferences
      exact le_rfl
  · intro l hl
    have hown : l ∈ draft.logs → (NormalTimestamp l.timestamp ↔
        0 ≤ l.timestamp.us ∨ 1000000 ∣ l.timestamp.us) ∧
        l.timestamp.us = timestampUs acc message := fun hl => by
      rw [hstamped l hl]
      exact ⟨hnormal _, us_protoTime _⟩
    cases log with
    | none => exact ⟨(hown hl).1, .inl (hown hl).2⟩
    | some log =>
      rcases List.mem_append.1 hl with hl | hl
      · exact ⟨(hown hl).1, .inl (hown hl).2⟩
      · obtain rfl := List.mem_singleton.1 hl
        obtain ⟨error, herror, hstamp⟩ := stamped_foundLog hlog
        rw [hstamp]
        exact ⟨hnormal _, .inr ⟨id, error, hid, herror, us_protoTime _⟩⟩

/-- Numbers that are what they are. -/
def plainAccessors : Accessors where
  getInt64
    | some (.int n) => n
    | _ => 0
  firstOther _ := .error .crash

/-- A span of version 6 below a parent, with a time before 1970. -/
def callSpan : Json := .obj [
  (cstr "processor", .obj [(cstr "event", .str (cstr "span"))]),
  (cstr "context", .obj [(cstr "service", .obj [(cstr "name", .str (cstr "a-web"))])]),
  (cstr "parent", .obj [(cstr "id", .str (cstr "07"))]),
  (cstr "timestamp", .obj [(cstr "us", .int (-1500000))]),
  (cstr "trace", .obj [(cstr "id", .str (cstr "1f"))]),
  (cstr "span", .obj [(cstr "hex_id", .str (cstr "01")), (cstr "name", .str (cstr "call")),
    (cstr "type", .str (cstr "app"))])]

/-- The error of the span, two seconds later. -/
def callError (id : Bytes) : Option Json :=
  if id = cstr "01" then some (.obj [
    (cstr "trace", .obj [(cstr "id", .str (cstr "1f"))]),
    (cstr "timestamp", .obj [(cstr "us", .int 500000)]),
    (cstr "error", .obj [(cstr "culprit", .str (cstr "main"))])])
  else none

/-- The span has its reference, its log and its times; the start is no normal timestamp. -/
theorem sent_ids_times_call : ∃ span, send .little reference plainAccessors .span (cstr "j:14250")
      callError (some callSpan) = .ok (some span) ∧
    Kind.span.jaegerize .little reference (some callSpan) = .ok span.ids ∧
    span.references.length = 1 ∧ span.startTime.us = -1500000 ∧ NormalDuration span.duration ∧
    ¬ NormalTimestamp span.startTime ∧
    ∃ log ∈ span.logs, log.timestamp.us = 500000 ∧ NormalTimestamp log.timestamp := by
  have hspan : ∃ span, send .little reference plainAccessors .span (cstr "j:14250")
      callError (some callSpan) = .ok (some span) ∧ span.references.length = 1 ∧
        ∃ log ∈ span.logs, log.timestamp.us = 500000 :=
    ⟨_, rfl, rfl, _, List.mem_singleton_self _, rfl⟩
  obtain ⟨span, hspan, hreferences, log, hlog, hlogTime⟩ := hspan
  obtain ⟨hids, -, -, hstart, -, hduration, hnormal, hlogs⟩ := sent_ids_times hspan
  refine ⟨span, hspan, hids, hreferences, hstart, hduration, fun h => ?_, log, hlog, hlogTime,
    (hlogs log hlog).1.2 (.inl (by rw [hlogTime]; decide))⟩
  have hneg : ¬ (0 ≤ (-1500000 : ℤ) ∨ (1000000 : ℤ) ∣ -1500000) := by decide
  exact hneg (hnormal.1 h)

end Tracemate.Jaeger.Proto
