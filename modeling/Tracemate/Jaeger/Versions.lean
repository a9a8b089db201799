import Tracemate.Jaeger.Messages
import Tracemate.Process.Layouts

/-!
# Messages for two versions of documents

The servers of version 6 put the service, the request and the host of a document below `context`;
later ones put them beside the transaction, and what a span did below the span.

* `TransactionParts`, `SpanParts`: the members of a document, with any values;
* `document6`, `document7`: the documents of both versions;
* `TransactionParts.draft`, `SpanParts.draft`: what both functions make of either;
* `transactions_sent_alike`, `spans_sent_alike`: both documents are sent as the same span.
-/

namespace Tracemate.Jaeger.Proto

open CStr COutcome Outcome Endian JsonC
open Tracemate.Process (ServerVersion Header digit_of_major_six)

/-! ### Transactions -/

/-- A request; its method is always there. -/
structure Request where
  method : Value
  headers : Option Value
  socket : Option Value
  path : Option Value
  full : Option Value

namespace Request

variable (r : Request)

/-- The object `url` of version 6. -/
def url6 : Option Value := group [(cstr "pathname", r.path), (cstr "full", r.full)]

/-- The object `url` of later versions. -/
def url7 : Option Value := group [(cstr "path", r.path), (cstr "full", r.full)]

def object6 : Option Value :=
  group [(cstr "method", some r.method), (cstr "headers", r.headers), (cstr "socket", r.socket),
    (cstr "url", r.url6)]

def object7 : Option Value :=
  group [(cstr "method", some r.method), (cstr "headers", r.headers), (cstr "socket", r.socket)]

end Request

/-- The members of the document of a transaction. -/
structure TransactionParts where
  transaction : Option Value
  timestamp : Option Value
  trace : Option Value
  parent : Option Value
  serviceName : Option Value
  environment : Option Value
  runtime : Option Value
  agent : Option Value
  labels : Option Value
  request : Option Request
  response : Option Value
  user : Option Value
  process : Option Value
  system : Option Value

/-- The members that both versions have in one place. -/
def commonMembers (v : ServerVersion) (timestamp trace parent : Option Value) :
    List (Bytes × Option Value) :=
  [(cstr "@metadata", Header.metadata v), (cstr "timestamp", timestamp), (cstr "trace", trace),
    (cstr "parent", parent)]

namespace TransactionParts

variable (p : TransactionParts) (v : ServerVersion)

/-- The members of `context.service` of version 6. -/
def serviceMembers6 : List (Bytes × Option Value) :=
  [(cstr "name", p.serviceName), (cstr "environment", p.environment),
    (cstr "runtime", p.runtime), (cstr "agent", p.agent)]

/-- The members of `context` of version 6. -/
def contextMembers6 : List (Bytes × Option Value) :=
  [(cstr "service", group p.serviceMembers6), (cstr "tags", p.labels),
    (cstr "request", p.request.bind Request.object6), (cstr "response", p.response),
    (cstr "user", p.user), (cstr "process", p.process), (cstr "system", p.system)]

def members6 : List (Bytes × Option Value) :=
  commonMembers v p.timestamp p.trace p.parent ++
  [(cstr "transaction", p.transaction), (cstr "context", group p.contextMembers6)]

/-- The members of `service` of later versions. -/
def serviceMembers7 : List (Bytes × Option Value) :=
  [(cstr "name", p.serviceName), (cstr "environment", p.environment), (cstr "runtime", p.runtime)]

/-- The members of `http` of later versions. -/
def httpMembers7 : List (Bytes × Option Value) :=
  [(cstr "request", p.request.bind Request.object7), (cstr "response", p.response)]

def members7 : List (Bytes × Option Value) :=
  commonMembers v p.timestamp p.trace p.parent ++
  [(cstr "transaction", p.transaction), (cstr "service", group p.serviceMembers7), (cstr "agent", p.agent),
    (cstr "labels", p.labels), (cstr "http", group p.httpMembers7),
    (cstr "url", p.request.bind Request.url7), (cstr "user", p.user),
    (cstr "process", p.process), (cstr "host", p.system)]

/-- The document of version 6. -/
def document6 : Option Json := some (object (p.members6 v)).val

/-- The document of a later version. -/
def document7 : Option Json := some (object (p.members7 v)).val

end TransactionParts

variable {o : ByteOrder} {lib : Conversions} {acc : Accessors} {v : ServerVersion}
  {p : TransactionParts}

/-! ### What is read of the documents -/

/-- A document of a version has the members `ms`. -/
structure Reads (lib : Conversions) (message : Option Json) (mv : ℕ)
    (ms : List (Bytes × Option Value)) : Prop where
  version : tmApmServerMajorVersion lib message = mv
  get : ∀ m ∈ ms, Json.get m.1 message = ptr m.2

/-- A member that two documents have in common. -/
theorem Reads.alike {message message' : Option Json} {mv mv' : ℕ}
    {ms ms' : List (Bytes × Option Value)} (h : Reads lib message mv ms)
    (h' : Reads lib message' mv' ms') (m : Bytes × Option Value) (hm : m ∈ ms) (hm' : m ∈ ms') :
    Json.get m.1 message = Json.get m.1 message' :=
  (h.get m hm).trans (h'.get m hm').symm

theorem reads_object {ms : List (Bytes × Option Value)} (hnames : (ms.map Prod.fst).Nodup)
    (hmem : (cstr "@metadata", Header.metadata v) ∈ ms) :
    Reads lib (some (object ms).val) v.digit ms := by
  refine ⟨?_, fun m hm => get_members hnames hm⟩
  obtain ⟨c, s, hs⟩ := List.exists_cons_of_ne_nil (Tracemate.Process.text_ne_nil v)
  have hversion : metadataVersion lib (some (object ms).val) = some v.text := by
    unfold metadataVersion
    rw [get_members hnames hmem, Header.metadata, get_group_cons_self]
    simp only [Option.or_none, get_group_nil, hs]
    rfl
  unfold tmApmServerMajorVersion ServerVersion.digit
  rw [hversion, hs]
  rfl

theorem get_group_of_mem {ms : List (Bytes × Option Value)} (hnames : (ms.map Prod.fst).Nodup) :
    ∀ m ∈ ms, Json.get m.1 (ptr (group ms)) = ptr m.2 :=
  fun m hm => (get_group m.1 ms).trans (get_members hnames hm)

theorem reads_document6 (hv : v.major = 6) : Reads lib (p.document6 v) 6 (p.members6 v) := by
  have hnames : (p.members6 v).map Prod.fst = [cstr "@metadata", cstr "timestamp", cstr "trace",
      cstr "parent", cstr "transaction", cstr "context"] := rfl
  rw [← digit_of_major_six hv]
  refine reads_object ?_ List.mem_cons_self
  rw [hnames]
  decide

theorem reads_document7 : Reads lib (p.document7 v) v.digit (p.members7 v) := by
  have hnames : (p.members7 v).map Prod.fst = [cstr "@metadata", cstr "timestamp", cstr "trace",
      cstr "parent", cstr "transaction", cstr "service", cstr "agent", cstr "labels", cstr "http",
      cstr "url", cstr "user", cstr "process", cstr "host"] := rfl
  refine reads_object ?_ List.mem_cons_self
  rw [hnames]
  decide

theorem get_service6 : ∀ m ∈ p.serviceMembers6,
    Json.get m.1 (ptr (group p.serviceMembers6)) = ptr m.2 := by
  have hnames : p.serviceMembers6.map Prod.fst =
      [cstr "name", cstr "environment", cstr "runtime", cstr "agent"] := rfl
  exact get_group_of_mem (by rw [hnames]; decide)

theorem get_context6 : ∀ m ∈ p.contextMembers6,
    Json.get m.1 (ptr (group p.contextMembers6)) = ptr m.2 := by
  have hnames : p.contextMembers6.map Prod.fst = [cstr "service", cstr "tags", cstr "request",
      cstr "response", cstr "user", cstr "process", cstr "system"] := rfl
  exact get_group_of_mem (by rw [hnames]; decide)

theorem get_service7 : ∀ m ∈ p.serviceMembers7,
    Json.get m.1 (ptr (group p.serviceMembers7)) = ptr m.2 := by
  have hnames : p.serviceMembers7.map Prod.fst =
      [cstr "name", cstr "environment", cstr "runtime"] := rfl
  exact get_group_of_mem (by rw [hnames]; decide)

theorem get_http7 : ∀ m ∈ p.httpMembers7,
    Json.get m.1 (ptr (group p.httpMembers7)) = ptr m.2 := by
  have hnames : p.httpMembers7.map Prod.fst = [cstr "request", cstr "response"] := rfl
  exact get_group_of_mem (by rw [hnames]; decide)

/-- A later version is one that the code takes for a later one. -/
theorem six_lt_digit (hv : v.Processed) (hmajor : v.major ≠ 6) : 6 < v.digit := by
  have hne : v.digit ≠ 6 := mt hv.2.1 hmajor
  have := hv.1
  omega

/-! ### What is made of them -/

namespace TransactionParts

variable (lib acc p)

/-- The parts for a request. -/
def requestParts (ts : ℤ) (r : Request) (response : Json) (url : Option Value) : Parts where
  tags := ifThere lib "http.method" (some r.method.val) ++ ifThere lib "http.url" (ptr r.path) ++
    (match Json.get (cstr "status_code") (some response) with
    | none => []
    | some statusCode => [.int64 (cstr "http.status_code") (lib.getInt (some statusCode))])
  logs := [⟨protoTime ts, ifThere lib "request.headers" (ptr r.headers) ++
    ifThere lib "response.headers" (Json.get (cstr "headers") (some response)) ++
    ifThere lib "request.socket" (ptr r.socket) ++ ifThere lib "request.url" (ptr url)⟩]
  processTags := ifThere lib "environment" (ptr p.environment) ++ ifThere lib "user" (ptr p.user)

/-- What the type adds; a request without a response is not sent. -/
def branch (url : Request → Option Value) (ts : ℤ) (type : Bytes) : Option Parts :=
  if type = cstr "request" then
    p.request.bind fun r => (ptr p.response).map fun response =>
      p.requestParts lib ts r response (url r)
  else if type = cstr "page-load" then
    some ⟨[.string (cstr "span.kind") (cstr "client")], [], []⟩
  else some ⟨[], [], []⟩

/-- The draft of a transaction, where `url` is the object of the request's URL. -/
def draft (url : Request → Option Value) (ts : ℤ) (transName transType trace : Json) :
    Outcome (Option Draft) := do
  let serviceName ← nonNull (lib.getString (ptr p.serviceName))
  let traceIdTag ← required lib "trace.id" (Json.get (cstr "id") (some trace))
  let labels ← labelTags lib (ptr p.labels)
  match p.branch lib url ts (textOf lib transType) with
  | none => return none
  | some parts => do
    let agent ← nameAndVersion lib "elastic_apm_agent.name" "elastic_apm_agent.version"
      (ptr p.agent)
    let runtime ← nameAndVersion lib "runtime.name" "runtime.version" (ptr p.runtime)
    return some
      { operationName := textOf lib transName
        tags := traceIdTag :: labels ++ [.string (cstr "span.kind") (cstr "server")] ++ parts.tags
        logs := parts.logs
        process := ⟨serviceName, parts.processTags ++ agent ++ runtime ++
          pidTag acc (ptr p.process) ++ ifThere lib "system" (ptr p.system)⟩ }

end TransactionParts

variable {ts : ℤ} {type : Bytes} {transName transType trace : Json}
  {message context service : Option Json} {mv : ℕ}

/-- Where the service is in version 6. -/
theorem tmServiceName_six (h : tmApmServerMajorVersion lib message = 6) :
    tmServiceName lib message = lib.getString (Json.get (cstr "name") (Json.get (cstr "service")
      (Json.get (cstr "context") message))) := by
  unfold tmServiceName
  rw [h]
  rfl

/-- Where the service is in later versions. -/
theorem tmServiceName_later (hmv : 6 < mv) (h : tmApmServerMajorVersion lib message = mv) :
    tmServiceName lib message =
      lib.getString (Json.get (cstr "name") (Json.get (cstr "service") message)) := by
  unfold tmServiceName
  rw [h]
  dsimp only
  rw [if_neg (by omega : mv ≠ 0), if_neg (by omega), if_neg (by omega : mv ≠ 6)]

theorem transactionBranch_six
    (hcontext : ∀ m ∈ p.contextMembers6, Json.get m.1 context = ptr m.2)
    (hservice : ∀ m ∈ p.serviceMembers6, Json.get m.1 service = ptr m.2) :
    transactionBranch lib 6 ts type message context service =
      p.branch lib Request.url6 ts type := by
  simp only [TransactionParts.contextMembers6, TransactionParts.serviceMembers6,
    List.forall_mem_cons] at hcontext hservice
  unfold transactionBranch TransactionParts.branch
  by_cases hrequest : type = cstr "request"
  · rw [if_pos hrequest, if_pos hrequest]
    unfold requestBranch requestParts TransactionParts.requestParts
    simp only [if_true, hcontext, hservice]
    cases p.request with
    | none => rfl
    | some r =>
      cases p.response with
      | none => rfl
      | some response =>
        have hpresent : (ptr (Request.object6 r)).isSome := by
          rw [isSome_ptr, Request.object6, isSome_group_cons]
          rfl
        dsimp only [Option.bind_some]
        rw [if_pos ⟨hpresent, rfl⟩]
        unfold Request.object6 Request.url6
        simp (disch := decide) only [get_group_cons_self, get_group_cons_ne, get_group_nil,
          Option.or_none]
        rfl
  · rw [if_neg hrequest, if_neg hrequest]

theorem transactionBranch_later (hmv : 6 < mv)
    (hmessage : ∀ m ∈ p.members7 v, Json.get m.1 message = ptr m.2)
    (hservice : ∀ m ∈ p.serviceMembers7, Json.get m.1 service = ptr m.2) :
    transactionBranch lib mv ts type message message service =
      p.branch lib Request.url7 ts type := by
  have hhttp := @get_http7 p
  simp only [TransactionParts.members7, TransactionParts.serviceMembers7, commonMembers,
    List.cons_append, List.nil_append, List.forall_mem_cons] at hmessage hservice
  simp only [TransactionParts.httpMembers7, List.forall_mem_cons] at hhttp
  have hne : mv ≠ 6 := by omega
  unfold transactionBranch TransactionParts.branch
  by_cases hrequest : type = cstr "request"
  · rw [if_pos hrequest, if_pos hrequest]
    unfold requestBranch requestParts TransactionParts.requestParts
    simp only [if_neg hne, if_pos hmv, hmessage, hservice]
    simp only [TransactionParts.httpMembers7, hhttp]
    cases p.request with
    | none => rfl
    | some r =>
      cases p.response with
      | none => rfl
      | some response =>
        have hpresent : (ptr (Request.object7 r)).isSome := by
          rw [isSome_ptr, Request.object7, isSome_group_cons]
          rfl
        dsimp only [Option.bind_some]
        rw [if_pos ⟨hpresent, rfl⟩]
        unfold Request.object7 Request.url7
        simp (disch := decide) only [get_group_cons_self, get_group_cons_ne, get_group_nil,
          Option.or_none]
        rfl
  · rw [if_neg hrequest, if_neg hrequest]

/-- The draft, from what is read of the document. -/
theorem draftTransaction_eq_draft {url : Request → Option Value}
    (hmv : tmApmServerMajorVersion lib message = mv)
    (hcontext : transactionContext mv message = context)
    (hservice : Json.get (cstr "service") context = service)
    (hname : tmServiceName lib message = lib.getString (ptr p.serviceName))
    (hlabels : Json.get (if mv = 6 then cstr "tags" else cstr "labels") context = ptr p.labels)
    (hbranch : ∀ type, transactionBranch lib mv (timestampUs acc message) type message context
      service = p.branch lib url (timestampUs acc message) type)
    (hagent : Json.get (cstr "agent") (if mv = 6 then service else context) = ptr p.agent)
    (hruntime : Json.get (cstr "runtime") service = ptr p.runtime)
    (hprocess : Json.get (cstr "process") context = ptr p.process)
    (hsystem : Json.get (if mv = 6 then cstr "system" else cstr "host") context = ptr p.system) :
    draftTransaction lib acc message transName transType trace =
      p.draft lib acc url (timestampUs acc message) transName transType trace := by
  unfold draftTransaction
  dsimp only
  rw [hmv, hcontext, hservice, hname, hlabels, hbranch, hagent, hruntime, hprocess, hsystem]
  rfl

theorem draftTransaction_six (h : Reads lib message 6 (p.members6 v)) :
    draftTransaction lib acc message transName transType trace =
      p.draft lib acc Request.url6 (timestampUs acc message) transName transType trace := by
  have hcontext : Json.get (cstr "context") message = ptr (group p.contextMembers6) :=
    h.get (cstr "context", group p.contextMembers6) (by simp [TransactionParts.members6])
  have hmember : ∀ m ∈ p.contextMembers6, Json.get m.1 (Json.get (cstr "context") message) =
      ptr m.2 := by
    rw [hcontext]
    exact get_context6
  have hservice : Json.get (cstr "service") (Json.get (cstr "context") message) =
      ptr (group p.serviceMembers6) :=
    hmember (cstr "service", group p.serviceMembers6) (by simp [TransactionParts.contextMembers6])
  have hbranch : ∀ type, transactionBranch lib 6 (timestampUs acc message) type message
      (Json.get (cstr "context") message) (ptr (group p.serviceMembers6)) =
        p.branch lib Request.url6 (timestampUs acc message) type :=
    fun type => transactionBranch_six hmember get_service6
  refine draftTransaction_eq_draft h.version rfl hservice ?_ ?_ hbranch ?_ ?_ ?_ ?_
  · rw [tmServiceName_six h.version, hservice,
      get_service6 (cstr "name", p.serviceName) List.mem_cons_self]
  · exact hmember (cstr "tags", p.labels) (by simp [TransactionParts.contextMembers6])
  · exact get_service6 (cstr "agent", p.agent) (by simp [TransactionParts.serviceMembers6])
  · exact get_service6 (cstr "runtime", p.runtime) (by simp [TransactionParts.serviceMembers6])
  · exact hmember (cstr "process", p.process) (by simp [TransactionParts.contextMembers6])
  · exact hmember (cstr "system", p.system) (by simp [TransactionParts.contextMembers6])

theorem draftTransaction_later (hmv : 6 < mv) (h : Reads lib message mv (p.members7 v)) :
    draftTransaction lib acc message transName transType trace =
      p.draft lib acc Request.url7 (timestampUs acc message) transName transType trace := by
  have hne : mv ≠ 6 := by omega
  have hservice : Json.get (cstr "service") message = ptr (group p.serviceMembers7) :=
    h.get (cstr "service", group p.serviceMembers7) (by simp [TransactionParts.members7])
  have hbranch : ∀ type, transactionBranch lib mv (timestampUs acc message) type message message
      (ptr (group p.serviceMembers7)) = p.branch lib Request.url7 (timestampUs acc message) type :=
    fun type => transactionBranch_later hmv h.get get_service7
  have hcontext : transactionContext mv message = message := by
    unfold transactionContext
    rw [if_neg hne, if_pos hmv]
  refine draftTransaction_eq_draft h.version hcontext hservice ?_ ?_ hbranch ?_ ?_ ?_ ?_
  · rw [tmServiceName_later hmv h.version, hservice,
      get_service7 (cstr "name", p.serviceName) List.mem_cons_self]
  · rw [if_neg hne]
    exact h.get (cstr "labels", p.labels) (by simp [TransactionParts.members7])
  · rw [if_neg hne]
    exact h.get (cstr "agent", p.agent) (by simp [TransactionParts.members7])
  · exact get_service7 (cstr "runtime", p.runtime) (by simp [TransactionParts.serviceMembers7])
  · exact h.get (cstr "process", p.process) (by simp [TransactionParts.members7])
  · rw [if_neg hne]
    exact h.get (cstr "host", p.system) (by simp [TransactionParts.members7])

/-! ### All but the text of the URL -/

/-- The log without the text of the URL. -/
def Log.withoutUrl (log : Log) : Log :=
  { log with fields := log.fields.filter fun f => f.key ≠ cstr "request.url" }

def Parts.withoutUrl (parts : Parts) : Parts :=
  { parts with logs := parts.logs.map Log.withoutUrl }

def Draft.withoutUrl (draft : Draft) : Draft :=
  { draft with logs := draft.logs.map Log.withoutUrl }

/-- The span without the text of the URL in its logs. -/
def Span.withoutUrl (span : Span) : Span := { span with logs := span.logs.map Log.withoutUrl }

section Url

variable {url url' : Request → Option Value} {draft draft' : Draft} {kind : Kind}
  {errors : Bytes → Option Json} {message' : Option Json}

theorem branch_withoutUrl : (p.branch lib url ts type).map Parts.withoutUrl =
    (p.branch lib url' ts type).map Parts.withoutUrl := by
  have hurl : ∀ x : Option Json,
      (ifThere lib "request.url" x).filter (fun f => f.key ≠ cstr "request.url") = [] := by
    intro x
    cases x with
    | none => rfl
    | some j => simp [ifThere, KeyValue.string]
  unfold TransactionParts.branch
  split_ifs
  · cases p.request with
    | none => rfl
    | some r =>
      cases p.response with
      | none => rfl
      | some response =>
        simp only [Option.bind_some, ptr_some, Option.map_some, Parts.withoutUrl,
          TransactionParts.requestParts, List.map_cons, List.map_nil, Log.withoutUrl,
          List.filter_append, hurl]
  · rfl
  · rfl

theorem draft_withoutUrl :
    (p.draft lib acc url ts transName transType trace).map (Option.map Draft.withoutUrl) =
      (p.draft lib acc url' ts transName transType trace).map (Option.map Draft.withoutUrl) := by
  have hbranch := @branch_withoutUrl lib p ts (textOf lib transType) url url'
  unfold TransactionParts.draft
  refine map_bind_congr_left fun serviceName => map_bind_congr_left fun traceIdTag =>
    map_bind_congr_left fun labels => ?_
  cases hparts : p.branch lib url ts (textOf lib transType) with
  | none =>
    rw [hparts, Option.map_none] at hbranch
    rw [Option.map_eq_none_iff.1 hbranch.symm]
  | some parts =>
    rw [hparts, Option.map_some] at hbranch
    obtain ⟨parts', hparts', hsame⟩ := Option.map_eq_some_iff.1 hbranch.symm
    rw [hparts']
    refine map_bind_congr_left fun agent => map_bind_congr_left fun runtime => ?_
    obtain ⟨htags, hlogs, hprocess⟩ : parts'.tags = parts.tags ∧
        parts'.logs.map Log.withoutUrl = parts.logs.map Log.withoutUrl ∧
        parts'.processTags = parts.processTags := by
      simpa [Parts.withoutUrl] using hsame
    simp only [Except.map, pure, Except.pure, Option.map_some, Draft.withoutUrl, htags, hlogs,
      hprocess]

theorem returnIfMissing_withoutUrl {m m' : Option Json} {field : String}
    {rest rest' : Json → Outcome (Option Draft)}
    (hget : Json.get (cstr field) m = Json.get (cstr field) m')
    (hrest : ∀ j, (rest j).map (Option.map Draft.withoutUrl) =
      (rest' j).map (Option.map Draft.withoutUrl)) :
    (returnIfMissing m field rest).map (Option.map Draft.withoutUrl) =
      (returnIfMissing m' field rest').map (Option.map Draft.withoutUrl) := by
  unfold returnIfMissing
  rw [hget]
  cases Json.get (cstr field) m' with
  | none => rfl
  | some j => exact hrest j

/-- What `finish` reads of two documents is the same. -/
structure SameHead (lib : Conversions) (acc : Accessors) (kind : Kind)
    (message message' : Option Json) : Prop where
  id : kind.id lib message = kind.id lib message'
  trace : Json.get (cstr "trace") message = Json.get (cstr "trace") message'
  parent : Json.get (cstr "parent") message = Json.get (cstr "parent") message'
  timestamp : timestampUs acc message = timestampUs acc message'
  duration : durationUs acc kind message = durationUs acc kind message'

theorem record_withoutUrl (draft : Draft) (log : Option Log) :
    (draft.record log).withoutUrl = draft.withoutUrl.record (log.map Log.withoutUrl) := by
  cases log with
  | none => rfl
  | some log => simp [Draft.record, Draft.withoutUrl]

theorem attachError_withoutUrl {error : Option Json}
    (hdraft : draft.withoutUrl = draft'.withoutUrl) :
    (attachError lib acc error draft).map Draft.withoutUrl =
      (attachError lib acc error draft').map Draft.withoutUrl := by
  cases error with
  | none => exact congrArg Except.ok hdraft
  | some e =>
    refine map_bind_congr_left fun log => congrArg Except.ok ?_
    rw [record_withoutUrl, record_withoutUrl, hdraft]

theorem finish_withoutUrl (hhead : SameHead lib acc kind message message')
    (hdraft : draft.withoutUrl = draft'.withoutUrl) :
    (finish o lib acc errors kind message draft).map Span.withoutUrl =
      (finish o lib acc errors kind message' draft').map Span.withoutUrl := by
  unfold finish traceIdBytes
  rw [hhead.id, hhead.trace, hhead.parent]
  refine map_bind_congr_left fun id => map_bind_congr (attachError_withoutUrl hdraft)
    fun d d' hd => map_bind_congr_left fun references => congrArg Except.ok ?_
  have hpush : ∀ (d : Draft) (m : Option Json) (tid : Bytes),
      (d.complete o acc kind m tid id references).withoutUrl =
        d.withoutUrl.complete o acc kind m tid id references := fun _ _ _ => rfl
  rw [hpush, hpush, hd]
  unfold Draft.complete
  rw [hhead.timestamp, hhead.duration]

/-- Two documents with one head and alike drafts are sent alike. -/
theorem send_withoutUrl {jaegerUrl : Bytes} (hhead : SameHead lib acc kind message message')
    (hdraft : (draftOf lib acc kind message).map (Option.map Draft.withoutUrl) =
      (draftOf lib acc kind message').map (Option.map Draft.withoutUrl)) :
    (send o lib acc kind jaegerUrl errors message).map (Option.map Span.withoutUrl) =
      (send o lib acc kind jaegerUrl errors message').map (Option.map Span.withoutUrl) := by
  unfold send
  split_ifs
  · rfl
  · refine map_bind_congr hdraft fun draft draft' hsame => ?_
    cases draft with
    | none =>
      rw [Option.map_none] at hsame
      rw [Option.map_eq_none_iff.1 hsame.symm]
    | some draft =>
      rw [Option.map_some] at hsame
      obtain ⟨draft', rfl, hd⟩ := Option.map_eq_some_iff.1 hsame.symm
      refine map_bind_congr (finish_withoutUrl hhead hd.symm) fun span span' hspan => ?_
      exact congrArg (fun s => Except.ok (some s)) hspan

end Url

/-- Both documents have the same head. -/
theorem sameHead_transaction {v' : ServerVersion} {message' : Option Json}
    (h : Reads lib message 6 (p.members6 v)) (h' : Reads lib message' mv (p.members7 v')) :
    SameHead lib acc .transaction message message' := by
  have htransaction := h.alike h' (cstr "transaction", p.transaction)
    (by simp [TransactionParts.members6]) (by simp [TransactionParts.members7])
  have htimestamp := h.alike h' (cstr "timestamp", p.timestamp)
    (by simp [TransactionParts.members6, commonMembers])
    (by simp [TransactionParts.members7, commonMembers])
  refine ⟨?_, ?_, ?_, ?_, ?_⟩
  · show Json.get _ (Json.get _ message) = Json.get _ (Json.get _ message')
    rw [htransaction]
  · exact h.alike h' (cstr "trace", p.trace) (by simp [TransactionParts.members6, commonMembers])
      (by simp [TransactionParts.members7, commonMembers])
  · exact h.alike h' (cstr "parent", p.parent)
      (by simp [TransactionParts.members6, commonMembers])
      (by simp [TransactionParts.members7, commonMembers])
  · unfold timestampUs
    rw [htimestamp]
  · unfold durationUs bodyOf
    rw [htransaction]

theorem transactionDraft_withoutUrl {v' : ServerVersion} {message' : Option Json} (hmv : 6 < mv)
    (h : Reads lib message 6 (p.members6 v)) (h' : Reads lib message' mv (p.members7 v')) :
    (transactionDraft lib acc message).map (Option.map Draft.withoutUrl) =
      (transactionDraft lib acc message').map (Option.map Draft.withoutUrl) := by
  have hhead : SameHead lib acc .transaction message message' := sameHead_transaction h h'
  have htransaction := h.alike h' (cstr "transaction", p.transaction)
    (by simp [TransactionParts.members6]) (by simp [TransactionParts.members7])
  have htimestamp := h.alike h' (cstr "timestamp", p.timestamp)
    (by simp [TransactionParts.members6, commonMembers])
    (by simp [TransactionParts.members7, commonMembers])
  unfold transactionDraft
  refine returnIfMissing_withoutUrl htransaction fun trans =>
    returnIfMissing_withoutUrl htimestamp fun timestamp =>
    returnIfMissing_withoutUrl rfl fun us => returnIfMissing_withoutUrl rfl fun transName =>
    returnIfMissing_withoutUrl rfl fun transType =>
    returnIfMissing_withoutUrl hhead.trace fun trace => ?_
  rw [draftTransaction_six h, draftTransaction_later hmv h', hhead.timestamp]
  exact draft_withoutUrl

/-- **Two versions of a transaction.**  A transaction is sent as the same span from its document of
version 6 and from that of a later version, with any of its members missing, but for the text of the
URL in the log of a request; or it is not sent for either. -/
theorem transactions_sent_alike (o : ByteOrder) (lib : Conversions) (acc : Accessors)
    {v v' : ServerVersion} (hv : v.major = 6) (hv' : v'.Processed) (hlater : v'.major ≠ 6)
    (p : TransactionParts) (jaegerUrl : Bytes) (errors : Bytes → Option Json) :
    (send o lib acc .transaction jaegerUrl errors (p.document6 v)).map
        (Option.map Span.withoutUrl) =
      (send o lib acc .transaction jaegerUrl errors (p.document7 v')).map
        (Option.map Span.withoutUrl) :=
  send_withoutUrl (sameHead_transaction (reads_document6 hv) reads_document7)
    (transactionDraft_withoutUrl (six_lt_digit hv' hlater) (reads_document6 hv) reads_document7)

/-! ### Spans -/

/-- The members of the document of a span. -/
structure SpanParts where
  name : Option Value
  type : Option Value
  subtype : Option Value
  action : Option Value
  stacktrace : Option Value
  destination : Option Value
  duration : Option Value
  id : Option Value
  db : Option Value
  http : Option Value
  url : Option Value
  timestamp : Option Value
  trace : Option Value
  parent : Option Value
  serviceName : Option Value

namespace SpanParts

variable (q : SpanParts) (v : ServerVersion)

/-- The members of the object `span` in both versions. -/
def bodyMembers : List (Bytes × Option Value) :=
  [(cstr "name", q.name), (cstr "type", q.type), (cstr "subtype", q.subtype),
    (cstr "action", q.action), (cstr "stacktrace", q.stacktrace),
    (cstr "destination", q.destination), (cstr "duration", q.duration)]

/-- The object `service` in both versions. -/
def serviceObject : Option Value := group [(cstr "name", q.serviceName)]

def spanMembers6 : List (Bytes × Option Value) := q.bodyMembers ++ [(cstr "hex_id", q.id)]

def contextMembers6 : List (Bytes × Option Value) :=
  [(cstr "service", q.serviceObject), (cstr "db", q.db), (cstr "http", q.http)]

def members6 : List (Bytes × Option Value) :=
  commonMembers v q.timestamp q.trace q.parent ++
  [(cstr "span", group q.spanMembers6), (cstr "context", group q.contextMembers6),
    (cstr "url", q.url)]

def spanMembers7 : List (Bytes × Option Value) :=
  q.bodyMembers ++ [(cstr "id", q.id), (cstr "db", q.db), (cstr "http", q.http)]

def members7 : List (Bytes × Option Value) :=
  commonMembers v q.timestamp q.trace q.parent ++
  [(cstr "span", group q.spanMembers7), (cstr "service", q.serviceObject), (cstr "url", q.url)]

/-- The document of version 6. -/
def document6 : Option Json := some (object (q.members6 v)).val

/-- The document of a later version. -/
def document7 : Option Json := some (object (q.members7 v)).val

end SpanParts

section Spans

variable {q : SpanParts} {v' : ServerVersion} {message' spanJson spanJson' : Option Json}

theorem reads_span6 (hv : v.major = 6) : Reads lib (q.document6 v) 6 (q.members6 v) := by
  have hnames : (q.members6 v).map Prod.fst = [cstr "@metadata", cstr "timestamp", cstr "trace",
      cstr "parent", cstr "span", cstr "context", cstr "url"] := rfl
  rw [← digit_of_major_six hv]
  refine reads_object ?_ List.mem_cons_self
  rw [hnames]
  decide

theorem reads_span7 : Reads lib (q.document7 v) v.digit (q.members7 v) := by
  have hnames : (q.members7 v).map Prod.fst = [cstr "@metadata", cstr "timestamp", cstr "trace",
      cstr "parent", cstr "span", cstr "service", cstr "url"] := rfl
  refine reads_object ?_ List.mem_cons_self
  rw [hnames]
  decide

theorem get_spanMembers6 : ∀ m ∈ q.spanMembers6,
    Json.get m.1 (ptr (group q.spanMembers6)) = ptr m.2 := by
  have hnames : q.spanMembers6.map Prod.fst = [cstr "name", cstr "type", cstr "subtype",
      cstr "action", cstr "stacktrace", cstr "destination", cstr "duration", cstr "hex_id"] := rfl
  exact get_group_of_mem (by rw [hnames]; decide)

theorem get_spanMembers7 : ∀ m ∈ q.spanMembers7,
    Json.get m.1 (ptr (group q.spanMembers7)) = ptr m.2 := by
  have hnames : q.spanMembers7.map Prod.fst = [cstr "name", cstr "type", cstr "subtype",
      cstr "action", cstr "stacktrace", cstr "destination", cstr "duration", cstr "id", cstr "db",
      cstr "http"] := rfl
  exact get_group_of_mem (by rw [hnames]; decide)

theorem get_spanContext6 : ∀ m ∈ q.contextMembers6,
    Json.get m.1 (ptr (group q.contextMembers6)) = ptr m.2 := by
  have hnames : q.contextMembers6.map Prod.fst = [cstr "service", cstr "db", cstr "http"] := rfl
  exact get_group_of_mem (by rw [hnames]; decide)

/-- A span without a name is not drafted. -/
theorem spanDraft_of_no_name
    (hname : Json.get (cstr "name") (Json.get (cstr "span") message) = none) :
    spanDraft lib acc message = .ok none := by
  unfold spanDraft returnIfMissing
  dsimp only
  cases hspan : Json.get (cstr "span") message with
  | none => rfl
  | some spanJson =>
    rw [hspan] at hname
    dsimp only
    cases Json.get (cstr "timestamp") message with
    | none => rfl
    | some timestamp =>
      dsimp only
      cases Json.get (cstr "us") (some timestamp) with
      | none => rfl
      | some us =>
        dsimp only
        rw [hname]

theorem returnIfMissing_some {m : Option Json} {field : String} {j : Json}
    {rest : Json → Outcome (Option Draft)} (hget : Json.get (cstr field) m = some j) :
    returnIfMissing m field rest = rest j := by
  unfold returnIfMissing
  rw [hget]

theorem returnIfMissing_congr {m m' : Option Json} {field : String}
    {rest rest' : Json → Outcome (Option Draft)}
    (hget : Json.get (cstr field) m = Json.get (cstr field) m') (hrest : ∀ j, rest j = rest' j) :
    returnIfMissing m field rest = returnIfMissing m' field rest' := by
  obtain rfl : rest = rest' := funext hrest
  unfold returnIfMissing
  rw [hget]

/-- What depends on the type of a span is read in two places. -/
theorem typeBranch_alike (hmv : 6 < mv)
    (hcontext : ∀ m ∈ q.contextMembers6, Json.get m.1 context = ptr m.2)
    (hspan : ∀ m ∈ q.spanMembers6, Json.get m.1 spanJson = ptr m.2)
    (hspan' : ∀ m ∈ q.spanMembers7, Json.get m.1 spanJson' = ptr m.2)
    (hurl : Json.get (cstr "url") message = Json.get (cstr "url") message') :
    typeBranch lib 6 ts type message context spanJson =
      typeBranch lib mv ts type message' message' spanJson' := by
  have hne : mv ≠ 6 := by omega
  simp only [SpanParts.contextMembers6, SpanParts.spanMembers6, SpanParts.spanMembers7,
    SpanParts.bodyMembers, List.cons_append, List.nil_append, List.forall_mem_cons]
    at hcontext hspan hspan'
  unfold typeBranch
  simp only [if_true, if_neg hne, if_pos hmv, hcontext, hspan, hspan', hurl]

theorem sameHead_span (hmv : 6 < mv) (h : Reads lib message 6 (q.members6 v))
    (h' : Reads lib message' mv (q.members7 v')) : SameHead lib acc .span message message' := by
  have hspan : Json.get (cstr "span") message = ptr (group q.spanMembers6) :=
    h.get (cstr "span", group q.spanMembers6) (by simp [SpanParts.members6])
  have hspan' : Json.get (cstr "span") message' = ptr (group q.spanMembers7) :=
    h'.get (cstr "span", group q.spanMembers7) (by simp [SpanParts.members7])
  have hsame : ∀ w, w ∈ commonMembers v q.timestamp q.trace q.parent →
      w ∈ commonMembers v' q.timestamp q.trace q.parent →
      Json.get w.1 message = Json.get w.1 message' := fun w hw hw' =>
    h.alike h' w (List.mem_append_left _ hw) (List.mem_append_left _ hw')
  refine ⟨?_, ?_, ?_, ?_, ?_⟩
  · unfold Kind.id spanId
    dsimp only
    rw [h.version, h'.version, if_pos rfl, if_neg (by omega : mv ≠ 6), hspan, hspan',
      get_spanMembers6 (cstr "hex_id", q.id) (by simp [SpanParts.spanMembers6]),
      get_spanMembers7 (cstr "id", q.id) (by simp [SpanParts.spanMembers7])]
  · exact hsame (cstr "trace", q.trace) (by simp [commonMembers]) (by simp [commonMembers])
  · exact hsame (cstr "parent", q.parent) (by simp [commonMembers]) (by simp [commonMembers])
  · unfold timestampUs
    rw [hsame (cstr "timestamp", q.timestamp) (by simp [commonMembers]) (by simp [commonMembers])]
  · unfold durationUs bodyOf
    dsimp only
    rw [hspan, hspan', get_spanMembers6 (cstr "duration", q.duration)
        (by simp [SpanParts.spanMembers6, SpanParts.bodyMembers]),
      get_spanMembers7 (cstr "duration", q.duration)
        (by simp [SpanParts.spanMembers7, SpanParts.bodyMembers])]

/-- The members of a span with a name are there, in both documents. -/
theorem exists_spanMembers {name : Value} (hname : q.name = some name) :
    (∃ j, ptr (group q.spanMembers6) = some j) ∧ ∃ j', ptr (group q.spanMembers7) = some j' := by
  have hvalue : (cstr "name", q.name).2.isSome = true := by rw [hname]; rfl
  constructor
  · rw [← Option.isSome_iff_exists, isSome_ptr, isSome_group]
    exact ⟨(cstr "name", q.name), List.mem_cons_self, hvalue⟩
  · rw [← Option.isSome_iff_exists, isSome_ptr, isSome_group]
    exact ⟨(cstr "name", q.name), List.mem_cons_self, hvalue⟩

/-- The drafts of both documents are the same. -/
theorem spanDraft_alike (hmv : 6 < mv) (h : Reads lib message 6 (q.members6 v))
    (h' : Reads lib message' mv (q.members7 v')) :
    spanDraft lib acc message = spanDraft lib acc message' := by
  have hne : mv ≠ 6 := by omega
  have hspan : Json.get (cstr "span") message = ptr (group q.spanMembers6) :=
    h.get (cstr "span", group q.spanMembers6) (by simp [SpanParts.members6])
  have hspan' : Json.get (cstr "span") message' = ptr (group q.spanMembers7) :=
    h'.get (cstr "span", group q.spanMembers7) (by simp [SpanParts.members7])
  have hcontext : Json.get (cstr "context") message = ptr (group q.contextMembers6) :=
    h.get (cstr "context", group q.contextMembers6) (by simp [SpanParts.members6])
  have hservice : Json.get (cstr "service") (Json.get (cstr "context") message) =
      Json.get (cstr "service") message' := by
    rw [hcontext, get_spanContext6 (cstr "service", q.serviceObject) List.mem_cons_self]
    exact (h'.get (cstr "service", q.serviceObject) (by simp [SpanParts.members7])).symm
  have hurl := h.alike h' (cstr "url", q.url) (by simp [SpanParts.members6])
    (by simp [SpanParts.members7])
  have htime := h.alike h' (cstr "timestamp", q.timestamp)
    (by simp [SpanParts.members6, commonMembers]) (by simp [SpanParts.members7, commonMembers])
  have hhead : SameHead lib acc .span message message' := sameHead_span hmv h h'
  have hserviceName : tmServiceName lib message = tmServiceName lib message' := by
    rw [tmServiceName_six h.version, tmServiceName_later hmv h'.version, hservice]
  cases hname : q.name with
  | none =>
    rw [spanDraft_of_no_name, spanDraft_of_no_name]
    · rw [hspan', get_spanMembers7 (cstr "name", q.name)
        (by simp [SpanParts.spanMembers7, SpanParts.bodyMembers]), hname]
      rfl
    · rw [hspan, get_spanMembers6 (cstr "name", q.name)
        (by simp [SpanParts.spanMembers6, SpanParts.bodyMembers]), hname]
      rfl
  | some name =>
    obtain ⟨⟨j, hj⟩, j', hj'⟩ := exists_spanMembers hname
    have hread := @get_spanMembers6 q
    have hread' := @get_spanMembers7 q
    rw [hj] at hread
    rw [hj'] at hread'
    have hbranch : ∀ ts type, typeBranch lib 6 ts type message (Json.get (cstr "context") message)
        (some j) = typeBranch lib mv ts type message' message' (some j') := fun ts type =>
      typeBranch_alike hmv (by rw [hcontext]; exact get_spanContext6) hread hread' hurl
    have hbody : ∀ w, w ∈ q.bodyMembers → Json.get w.1 (some j) = Json.get w.1 (some j') :=
      fun w hw => (hread w (List.mem_append_left _ hw)).trans
        (hread' w (List.mem_append_left _ hw)).symm
    unfold spanDraft
    dsimp only
    rw [h.version, h'.version, if_pos rfl, if_neg hne]
    rw [returnIfMissing_some (hspan.trans hj), returnIfMissing_some (hspan'.trans hj')]
    refine returnIfMissing_congr htime fun timestamp => returnIfMissing_congr rfl fun us =>
      returnIfMissing_congr (hbody (cstr "name", q.name) List.mem_cons_self) fun spanName =>
      returnIfMissing_congr hservice fun _ => returnIfMissing_congr hhead.trace fun _ => ?_
    rw [hserviceName, hbody (cstr "type", q.type) (by simp [SpanParts.bodyMembers]),
      hhead.timestamp]
    simp only [hbranch]

/-- Two documents with one head and one draft are sent as one span. -/
theorem send_congr {kind : Kind} {jaegerUrl : Bytes} {errors : Bytes → Option Json}
    (hhead : SameHead lib acc kind message message')
    (hdraft : draftOf lib acc kind message = draftOf lib acc kind message') :
    send o lib acc kind jaegerUrl errors message =
      send o lib acc kind jaegerUrl errors message' := by
  have hfinish : finish o lib acc errors kind message = finish o lib acc errors kind message' := by
    funext draft
    unfold finish traceIdBytes Draft.complete
    rw [hhead.id, hhead.trace, hhead.parent, hhead.timestamp, hhead.duration]
  unfold send
  rw [hdraft, hfinish]

/-- **Two versions of a span.**  A span is sent as the same span from its document of version 6 and
from that of a later version, with any of its members missing, or it is not sent for either. -/
theorem spans_sent_alike (o : ByteOrder) (lib : Conversions) (acc : Accessors)
    {v v' : ServerVersion} (hv : v.major = 6) (hv' : v'.Processed) (hlater : v'.major ≠ 6)
    (q : SpanParts) (jaegerUrl : Bytes) (errors : Bytes → Option Json) :
    send o lib acc .span jaegerUrl errors (q.document6 v) =
      send o lib acc .span jaegerUrl errors (q.document7 v') :=
  send_congr (sameHead_span (six_lt_digit hv' hlater) (reads_span6 hv) reads_span7)
    (spanDraft_alike (six_lt_digit hv' hlater) (reads_span6 hv) reads_span7)

end Spans

/-! ### A request and a query -/

/-- A member that is a text. -/
def textMember (s : String) : Option Value := some ⟨.str (cstr s), nofun⟩

/-- An object `{"us": …}`. -/
def usMember (us : ℤ) : Option Value := some ⟨.obj [(cstr "us", .int us)], nofun⟩

/-- An object `{"id": …}`. -/
def idMember (id : String) : Option Value := some ⟨.obj [(cstr "id", .str (cstr id))], nofun⟩

def version68 : ServerVersion := ⟨6, 8, [], nofun⟩

def version717 : ServerVersion := ⟨7, 17, [], nofun⟩

/-- A request without headers. -/
def checkout : TransactionParts where
  transaction := some ⟨.obj [(cstr "id", .str (cstr "01")), (cstr "name", .str (cstr "GET /")),
    (cstr "type", .str (cstr "request")), (cstr "duration", .obj [(cstr "us", .int 1500)])], nofun⟩
  timestamp := usMember 1600000
  trace := idMember "1f"
  parent := none
  serviceName := textMember "shop-web"
  environment := none
  runtime := none
  agent := none
  labels := none
  request := some ⟨⟨.str (cstr "GET"), nofun⟩, none, none, textMember "/", none⟩
  response := some ⟨.obj [(cstr "status_code", .int 200)], nofun⟩
  user := none
  process := none
  system := textMember "h1"

/-- The request is sent as the same span but for the text of its URL. -/
theorem transactions_sent_alike_checkout : ∃ span span',
    send .little reference plainAccessors .transaction (cstr "j:14250") (fun _ => none)
      (checkout.document6 version68) = .ok (some span) ∧
    send .little reference plainAccessors .transaction (cstr "j:14250") (fun _ => none)
      (checkout.document7 version717) = .ok (some span') ∧
    span.withoutUrl = span'.withoutUrl ∧ span.tags.length = 5 := by
  have hspan : ∃ span, send .little reference plainAccessors .transaction (cstr "j:14250")
      (fun _ => none) (checkout.document6 version68) = .ok (some span) ∧ span.tags.length = 5 :=
    ⟨_, rfl, rfl⟩
  have hspan' : ∃ span', send .little reference plainAccessors .transaction (cstr "j:14250")
      (fun _ => none) (checkout.document7 version717) = .ok (some span') := ⟨_, rfl⟩
  obtain ⟨span, hspan, htags⟩ := hspan
  obtain ⟨span', hspan'⟩ := hspan'
  have halike := @transactions_sent_alike .little reference plainAccessors version68 version717 rfl
    (by decide) (by decide) checkout (cstr "j:14250") fun _ => none
  rw [hspan, hspan'] at halike
  exact ⟨span, span', hspan, hspan', Option.some.inj (Except.ok.inj halike), htags⟩

/-- A query of a database. -/
def query : SpanParts where
  name := textMember "SELECT"
  type := textMember "db.postgresql"
  subtype := textMember "postgresql"
  action := none
  stacktrace := none
  destination := none
  duration := usMember 700
  id := textMember "02"
  db := some ⟨.obj [(cstr "statement", .str (cstr "SELECT 1"))], nofun⟩
  http := none
  url := none
  timestamp := usMember 1600300
  trace := idMember "1f"
  parent := idMember "01"
  serviceName := textMember "shop-web"

/-- The query is sent as the same span. -/
theorem spans_sent_alike_query : ∃ span,
    send .little reference plainAccessors .span (cstr "j:14250") (fun _ => none)
      (query.document6 version68) = .ok (some span) ∧
    send .little reference plainAccessors .span (cstr "j:14250") (fun _ => none)
      (query.document7 version717) = .ok (some span) ∧ span.logs.length = 1 := by
  have hspan : ∃ span, send .little reference plainAccessors .span (cstr "j:14250")
      (fun _ => none) (query.document6 version68) = .ok (some span) ∧ span.logs.length = 1 :=
    ⟨_, rfl, rfl⟩
  obtain ⟨span, hspan, hlogs⟩ := hspan
  have halike := @spans_sent_alike .little reference plainAccessors version68 version717 rfl
    (by decide) (by decide) query (cstr "j:14250") fun _ => none
  exact ⟨span, hspan, halike.symm.trans hspan, hlogs⟩

end Tracemate.Jaeger.Proto
