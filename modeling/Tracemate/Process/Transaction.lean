import Tracemate.Lib.Base64
import Tracemate.Process.Tags

/-!
# Transactions

`process_transaction_message`.

* `nameUpdates`: the updates of a message or scheduled transaction;
* `requestUpdates`: those of a request, with `errorUpdates` for a status code from 400 on;
* `processRequest`: the branch of a request, with `processRequest_cases` for what it returns;
* `processByType`: the branches over the type of the transaction;
* `storeTransaction`: the end of the function, which stores the document;
* `processTransactionMessage`: the function.
-/

namespace Tracemate.Process

open CStr JsonC COutcome Tracemate.Metric

/-- The local variables of `process_transaction_message` that its branches read. -/
structure Transaction where
  serviceName : Bytes
  td : TeamData
  tagString : Bytes
  aggTagString : Bytes
  durationUs : ℕ
  metricTimestamp : ℕ
  metricFlushFreqMs : ℕ

/-- What a branch over the type ends in: a return, or the end of the function with `clean_path`. -/
structure Branch where
  effects : List Effect
  returns : Bool
  cleanPath : Option Bytes

namespace Transaction

/-- The type of a service that the team knows. -/
def markService (t : Transaction) (type : ServiceType) : List Effect :=
  if t.serviceName ∈ t.td.serviceData then [.serviceType t.serviceName type] else []

variable (t : Transaction) (aggTimestamp : ℕ)

/-- A latency of this transaction. -/
def latency (text tags : Bytes) : Effect :=
  .updateHistogram ⟨cstr "transaction - latency - ", text, tags⟩ t.durationUs aggTimestamp

/-- One more of what `what` counts. -/
def count (what text tags : Bytes) : Effect :=
  .updateCounter ⟨cstr "transaction - " ++ what ++ cstr " - ", text, tags⟩ true 1 aggTimestamp

/-- The updates of the types `message_read`, `messaging` and `scheduled`. -/
def nameUpdates (name : Bytes) : List Effect :=
  [t.latency aggTimestamp name t.aggTagString,
    t.latency aggTimestamp (cstr "all") t.aggTagString,
    count aggTimestamp (cstr "request_count") name t.aggTagString,
    count aggTimestamp (cstr "request_count") (cstr "all") t.aggTagString] ++
  if t.td.collectHostLevelMetrics then [t.latency aggTimestamp name t.tagString] else []

/-! ### Requests -/

/-- The tags of a request. -/
def methodTags (tags method : Bytes) : Bytes := tags ++ cstr ",method:" ++ method

/-- The tags of a request with its user agent. -/
def userAgentTags (tags method userAgent : Bytes) : Bytes :=
  methodTags tags method ++ cstr ",user_agent:b\"" ++ userAgent ++ cstr "\",__rollup:false"

/-- The counters of a failed request: `what` is `client_error_count` or `server_error_count`. -/
def errorUpdates (what cleanPath method : Bytes) (userAgent : Option Bytes) : List Effect :=
  let tags := methodTags t.aggTagString method
  let rollup := rollupTag t.td
  [count aggTimestamp what cleanPath (tags ++ rollup),
    count aggTimestamp (cstr "error_count") cleanPath (tags ++ rollup),
    count aggTimestamp what (cstr "all") tags,
    count aggTimestamp (cstr "error_count") (cstr "all") tags] ++
  match userAgent with
  | none => []
  | some userAgent =>
    let tags := userAgentTags t.aggTagString method userAgent
    [count aggTimestamp what cleanPath tags,
      count aggTimestamp (cstr "error_count") cleanPath tags,
      count aggTimestamp what (cstr "all") tags,
      count aggTimestamp (cstr "error_count") (cstr "all") tags]

/-- The text metric and the latency of a request for its host. -/
def hostUpdates (cleanPath method : Bytes) (statCode : ℤ) : List Effect :=
  let tags := methodTags t.tagString method ++ rollupTag t.td
  [.updateText ⟨cstr "transaction - status_code - ", cleanPath, tags⟩ (cstr (toString statCode))
      t.metricTimestamp,
    t.latency aggTimestamp cleanPath tags]

/-- The updates of a request. -/
def requestUpdates (cleanPath method : Bytes) (userAgent : Option Bytes) (statCode : ℤ) :
    List Effect :=
  let tags := methodTags t.aggTagString method
  let rollup := rollupTag t.td
  [t.latency aggTimestamp cleanPath (tags ++ rollup), t.latency aggTimestamp (cstr "all") tags] ++
  (if statCode ≥ 400 ∧ statCode < 500 then
    t.errorUpdates aggTimestamp (cstr "client_error_count") cleanPath method userAgent else []) ++
  (if statCode ≥ 500 then
    t.errorUpdates aggTimestamp (cstr "server_error_count") cleanPath method userAgent else []) ++
  [count aggTimestamp (cstr "request_count") cleanPath (tags ++ rollup),
    count aggTimestamp (cstr "request_count") (cstr "all") tags] ++
  (match userAgent with
    | none => []
    | some userAgent =>
      [count aggTimestamp (cstr "request_count") (cstr "all")
        (userAgentTags t.aggTagString method userAgent)]) ++
  if t.td.collectHostLevelMetrics then t.hostUpdates aggTimestamp cleanPath method statCode else []

end Transaction

/-- `toupper`, of the letters of ASCII. -/
def toUpper (c : UInt8) : UInt8 := if 97 ≤ c ∧ c ≤ 122 then c - 32 else c

theorem not_lower_toUpper (c : UInt8) : ¬ (97 ≤ toUpper c ∧ toUpper c ≤ 122) := by
  unfold toUpper
  split_ifs with h
  · rintro ⟨hlow, -⟩
    have hsub : (c - 32).toNat = c.toNat - 32 := UInt8.toNat_sub_of_le c 32 (by
      exact UInt8.le_trans (by decide) h.1)
    have h122 : c.toNat ≤ 122 := h.2
    have h97 : 97 ≤ (c - 32).toNat := hlow
    omega
  · exact h

section Document

variable (env : Env) (m : Option Json)

/-- The first word of the header `User-Agent`, in Base64. -/
def userAgentOf (req : Option Json) : Option Bytes :=
  (env.lib.getString
    (Json.item 0 (Json.get (cstr "User-Agent") (Json.get (cstr "headers") req)))).map
    fun userAgent => Base64.encode (((strtok 32 userAgent).head?).getD (cstr "Other"))

/-- `METHOD[16]`. -/
def methodOf (req : Option Json) : Outcome Bytes := do
  let meth ← nonNull (env.lib.getString (Json.get (cstr "method") req))
  fitting 16 (meth.map toUpper)

/-- The objects `context` and `path` of a request. -/
def requestContext : Option Json :=
  if tmApmServerMajorVersion env.lib m = 6 then Json.get (cstr "context") m
  else Json.get (cstr "http") m

def requestPath (req : Option Json) : Option Bytes :=
  env.lib.getString <|
    if tmApmServerMajorVersion env.lib m = 6 then
      Json.get (cstr "pathname") (Json.get (cstr "url") req)
    else Json.get (cstr "path") (Json.get (cstr "url") m)

/-- The branch for requests. -/
def processRequest (t : Transaction) (trans : Option Json) : Outcome Branch :=
  let marks := t.markService .transactional
  let errored : Branch := ⟨marks ++ [.messagesErrored], true, none⟩
  let filtered : Branch := ⟨marks ++ [.messagesFiltered], true, none⟩
  if env.lib.getBoolean (Json.get (cstr "sampled") trans) = false then .ok errored
  else
    match requestContext env m with
    | none => .ok errored
    | some context =>
      match Json.get (cstr "request") (some context), Json.get (cstr "response") (some context) with
      | some req, some resp => do
        let method ← methodOf env (some req)
        if method = cstr "OPTIONS" then .ok filtered
        else
          let path := requestPath env m (some req)
          if isPathOk env.curlEasyUnescape path = false then .ok filtered
          else
            let statCode := env.lib.getInt (Json.get (cstr "status_code") (some resp))
            let (cleanPath, url) ←
              genericizePath env.curlEasyUnescape env.chopper t.serviceName path t.td
            let sent := (url.map (Effect.sendUrl t.serviceName)).toList
            let aggTimestamp ← centerTimestamp t.metricTimestamp t.metricFlushFreqMs
            .ok ⟨marks ++ sent ++ t.requestUpdates aggTimestamp cleanPath method
              (userAgentOf env (some req)) statCode, false, some cleanPath⟩
      | _, _ => .ok errored

/-- The branch of a request that returns: the document is refused, or its path is made generic and
its metrics are updated. -/
theorem processRequest_cases {env : Env} {m : Option Json} {t : Transaction} {trans : Option Json}
    {branch : Branch} (h : processRequest env m t trans = .ok branch) :
    (∃ e ∈ [Effect.messagesErrored, .messagesFiltered],
      branch = ⟨t.markService .transactional ++ [e], true, none⟩) ∨
    ∃ req method cleanPath url aggTimestamp statCode,
      Json.get (cstr "request") (requestContext env m) = some req ∧
      methodOf env (some req) = .ok method ∧
      genericizePath env.curlEasyUnescape env.chopper t.serviceName (requestPath env m (some req))
        t.td = .ok (cleanPath, url) ∧
      centerTimestamp t.metricTimestamp t.metricFlushFreqMs = .ok aggTimestamp ∧
      branch = ⟨t.markService .transactional ++ (url.map (Effect.sendUrl t.serviceName)).toList ++
        t.requestUpdates aggTimestamp cleanPath method (userAgentOf env (some req)) statCode,
        false, some cleanPath⟩ := by
  unfold processRequest at h
  dsimp only at h
  split_ifs at h with hsampled
  · exact .inl ⟨_, List.mem_cons_self, (Except.ok.inj h).symm⟩
  cases hcontext : requestContext env m with
  | none =>
    rw [hcontext] at h
    exact .inl ⟨_, List.mem_cons_self, (Except.ok.inj h).symm⟩
  | some context =>
    rw [hcontext] at h
    dsimp only at h
    split at h
    · next req resp hreq hresp =>
      obtain ⟨method, hmethod, h⟩ := Outcome.bind_eq_ok.1 h
      split_ifs at h with hoptions hpath
      · exact .inl ⟨_, by simp, (Except.ok.inj h).symm⟩
      · exact .inl ⟨_, by simp, (Except.ok.inj h).symm⟩
      · obtain ⟨⟨cleanPath, url⟩, hclean, h⟩ := Outcome.bind_eq_ok.1 h
        obtain ⟨aggTimestamp, hcenter, h⟩ := Outcome.bind_eq_ok.1 h
        exact .inr ⟨req, method, cleanPath, url, aggTimestamp, _, hreq, hmethod, hclean, hcenter,
          (Except.ok.inj h).symm⟩
    · exact .inl ⟨_, List.mem_cons_self, (Except.ok.inj h).symm⟩

/-- The branches for the types that are named by `transaction.name`. -/
def processNamed (t : Transaction) (trans : Option Json) (type : ServiceType) :
    Outcome Branch := do
  let aggTimestamp ← centerTimestamp t.metricTimestamp t.metricFlushFreqMs
  let name := printS (env.lib.getString (Json.get (cstr "name") trans))
  .ok ⟨t.markService type ++ t.nameUpdates aggTimestamp name, false, none⟩

/-- The branches over the type of the transaction. -/
def processByType (t : Transaction) (trans : Option Json) (type : Bytes) : Outcome Branch :=
  if type = cstr "message_read" ∨ type = cstr "messaging" then processNamed env t trans .message
  else if type = cstr "scheduled" then processNamed env t trans .scheduled
  else if type = cstr "request" then processRequest env m t trans
  else if type = cstr "page-load" then .ok ⟨t.markService .transactional, false, none⟩
  else .ok ⟨[], false, none⟩

/-- The end of the function: a child goes to its trace, a root is marked and stored. -/
def storeTransaction (serviceName traceId : Bytes) (durationUs : ℕ) (cleanPath : Option Bytes) :
    List Effect :=
  if env.kafkaLag < 50000 ∧ env.traceHookAborts then []
  else if (Json.get (cstr "parent") m).isSome then
    if env.kafkaLag < 50000 then [.addChild traceId] else []
  else
    let thresholdUs := env.getJaegerThresholdUs serviceName
    (if durationUs ≥ thresholdUs then [.markTraceable traceId] else []) ++
    if env.kafkaLag < 50000 ∨ durationUs ≥ thresholdUs then
      [.put traceId (cleanPath.getD (cstr "none"))]
    else []

/-- `process_transaction_message`. -/
def processTransactionMessage : Outcome (List Effect) := do
  match ← preProcess env m with
  -- `team` is read, which `pre_process` has not written
  | none => .error .outOfBounds
  | some prepared =>
    let aggTagString ← buildAggTagString env m
    let trans := Json.get (cstr "transaction") m
    let duration := Json.get (cstr "duration") trans
    let traceId := env.lib.getString (Json.get (cstr "id") (Json.get (cstr "trace") m))
    match duration, traceId, tmServiceName env.lib m with
    | some duration, some traceId, some serviceName => do
      let durationUs := env.lib.getUint64 (Json.get (cstr "us") (some duration))
      let metricTimestamp := (prepared.timestamp + durationUs / 1000) % 2 ^ 64
      let type ← nonNull (env.lib.getString (Json.get (cstr "type") trans))
      let t : Transaction :=
        ⟨serviceName, env.getTeamData prepared.team, prepared.tagString, aggTagString, durationUs,
          metricTimestamp, env.getMetricFlushFrequencyMs serviceName⟩
      let branch ← processByType env m t trans type
      if branch.returns then .ok branch.effects
      else .ok (branch.effects ++
        storeTransaction env m serviceName traceId durationUs branch.cleanPath)
    | _, _, _ => .ok [.messagesErrored]

end Document

/-- The libraries, without teams that are configured. -/
def plainEnv : Env where
  lib := reference
  curlEasyUnescape := some
  chopper := none
  mktime := utcTime
  timeStack := ⟨0, 0, 0, 0, 0, 0, 0, 0⟩
  getMetricFlushFrequencyMs _ := 60000
  getJaegerThresholdUs _ := 1000000
  traceHookAborts := false
  kafkaLag := 0
  teams := ∅

/-- A scheduled transaction of the service `a-b`. -/
def scheduledTransaction (name : Bytes) : Json :=
  .obj [(cstr "@timestamp", .str (cstr "2019-03-20T17:09:03.949Z")),
    (cstr "context", .obj [(cstr "service", .obj [(cstr "name", .str (cstr "a-b"))])]),
    (cstr "trace", .obj [(cstr "id", .str (cstr "1f"))]),
    (cstr "transaction", .obj [(cstr "type", .str (cstr "scheduled")), (cstr "name", .str name),
      (cstr "duration", .obj [(cstr "us", .int 1500)])])]

end Tracemate.Process
