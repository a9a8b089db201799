import Tracemate.Lib.JsonNumber
import Tracemate.Metric.Documents
import Tracemate.Process.Isolation
import Tracemate.Process.ServiceTotals

/-!
# Spans of the OpenTelemetry collector

`otel_process_jaeger_span`: the metrics of a span that comes from the topic `otlp_spans` as a
message of `jaeger.proto`.

* `ProtoSpan`: the message, as far as it is read;
* `makeSafe`, `parseDomain`, `simplifyStatusCode`: texts of names;
* `otelProcessJaegerSpan`: the function, with the team whose table it changes;
* `readTags_team`: the last tag `team:` decides which team is read from a name;
* `jaeger_span_isolated`: the metrics of a span come back to its team;
* `samples`, `durations_match_counts`: every latency has one sample for each request counted.
-/

namespace Tracemate.Process

open CStr COutcome Outcome Tracemate.Metric

/-! ### The message -/

/-- A `proto::KeyValue`. -/
structure KeyValue where
  key : Bytes
  vStr : Bytes
  vInt64 : ℤ

/-- A `google::protobuf::Timestamp`, or a `Duration`. -/
structure ProtoTime where
  seconds : ℤ
  nanos : ℤ

/-- A `proto::Process`. -/
structure ProtoProcess where
  serviceName : Bytes
  tags : List KeyValue

/-- A `proto::Span`. -/
structure ProtoSpan where
  process : Option ProtoProcess
  operationName : Bytes
  tags : List KeyValue
  startTime : ProtoTime
  duration : ProtoTime

/-- `get_tag`. -/
def getTag (span : ProtoSpan) (name : Bytes) : Option KeyValue :=
  span.tags.find? fun kv => kv.key = name

/-- `make_safe`. -/
def makeSafe (s : Bytes) : Bytes := s.map fun c => if vtagmapValue c then c else 95

/-- `std::tolower`. -/
def toLower (c : UInt8) : UInt8 := if 65 ≤ c ∧ c ≤ 90 then c + 32 else c

/-- `parse_domain`. -/
def parseDomain (url : Bytes) : Option Bytes :=
  match strstr (cstr "://") url with
  | none => none
  | some prot => some (((prot.drop 3).takeWhile (· ≠ 47)).map toLower)

/-- `simplify_status_code`. -/
def simplifyStatusCode (code : ℤ) : Bytes :=
  printD ((code.tdiv 100).bmod (2 ^ 32)) ++ cstr "XX"

/-- A number that is assigned to a `uint64_t`. -/
def toU64 (i : ℤ) : ℕ := (i % 2 ^ 64).toNat

/-- The microseconds of a time. -/
def ProtoTime.us (t : ProtoTime) : ℤ := t.seconds * 1000000 + t.nanos.tdiv 1000

/-! ### The updates -/

/-- The local variables that the branches read. -/
structure JaegerSpan where
  aggTagString : Bytes
  durationUs : ℕ
  aggTimestamp : ℕ

namespace JaegerSpan

variable (s : JaegerSpan)

/-- A latency under the tags, with those of every metric behind them. -/
def latency (tags : Bytes) : Effect :=
  .updateHistogram ⟨cstr "latency", [], tags ++ 44 :: s.aggTagString⟩ s.durationUs s.aggTimestamp

/-- A counter. -/
def count (stem tags : Bytes) : Effect :=
  .updateCounter ⟨stem, [], tags ++ 44 :: s.aggTagString⟩ true 1 s.aggTimestamp

/-- Latency and counter, for the name and for all names. -/
def updates (stem named all : Bytes) : List Effect :=
  [s.latency named, s.latency all, s.count stem named, s.count stem all]

/-- The tags of a server span. -/
def serverTags (name method : Bytes) (code : Option Bytes) (flavor : Bytes) : Bytes :=
  cstr "type:server,name:" ++ name ++ cstr ",method:" ++ method ++ cstr ",code:" ++ printS code ++
    cstr ",flavor:" ++ flavor

/-- The tags of an error of a server span. -/
def errorTags (code : Option Bytes) (name method flavor : Bytes) : Bytes :=
  cstr "type:server,code:" ++ printS code ++ cstr ",name:" ++ name ++ cstr ",method:" ++ method ++
    cstr ",flavor:" ++ flavor

def dbTags (system opName : Bytes) : Bytes :=
  cstr "type:client,subtype:db,system:" ++ system ++ cstr ",op_name:" ++ opName

def httpTags (method domain code : Bytes) : Bytes :=
  cstr "type:client,subtype:http,method:" ++ method ++ cstr ",domain:" ++ domain ++
    cstr ",code:" ++ code

def rpcTags (system method : Bytes) : Bytes :=
  cstr "type:client,subtype:rpc,system:" ++ system ++ cstr ",method:" ++ method

/-- The tags of a producer or a consumer. -/
def messagingTags (kind system destination : Bytes) : Bytes :=
  cstr "type:" ++ kind ++ cstr ",system:" ++ system ++ cstr ",destination:" ++ destination

def internalTags (opName : Bytes) : Bytes := cstr "type:internal,op_name:" ++ opName

/-- The updates of a server span. -/
def serverUpdates (name method : Bytes) (status : Option ℤ) (flavor : Bytes) : List Effect :=
  let code := status.map simplifyStatusCode
  s.updates (cstr "request_count") (serverTags name method code flavor)
    (serverTags (cstr "all") method code flavor) ++
  if status.getD 0 > 399 then
    [s.count (cstr "error_count") (errorTags code name method flavor),
      s.count (cstr "error_count") (errorTags code (cstr "all") method flavor)]
  else []

end JaegerSpan

/-- The branches over the kind of the span. -/
def processKind (span : ProtoSpan) (s : JaegerSpan) : Outcome (List Effect) := do
  let kind := (← nonNull (getTag span (cstr "span.kind"))).vStr
  let safeOpName := makeSafe span.operationName
  if kind = cstr "server" then
    let method ← nonNull (getTag span (cstr "http.method"))
    let flavor := (getTag span (cstr "http.flavor")).map fun kv => strAt kv.vStr
    let status := (getTag span (cstr "http.status_code")).map KeyValue.vInt64
    .ok (s.serverUpdates safeOpName (strAt method.vStr) status (flavor.getD (cstr "unknown")))
  else if kind = cstr "client" then
    match getTag span (cstr "db.system") with
    | some attr =>
      .ok (s.updates (cstr "request_count") (JaegerSpan.dbTags (strAt attr.vStr) safeOpName)
        (JaegerSpan.dbTags (strAt attr.vStr) (cstr "all")))
    | none =>
      match getTag span (cstr "http.url") with
      | some attr => do
        let domain := parseDomain (strAt attr.vStr)
        let code ← nonNull (getTag span (cstr "http.status_code"))
        let method ← nonNull (getTag span (cstr "http.method"))
        .ok (s.updates (cstr "request_count")
          (JaegerSpan.httpTags (strAt method.vStr) (printS domain) (simplifyStatusCode code.vInt64))
          (JaegerSpan.httpTags (strAt method.vStr) (cstr "all") (simplifyStatusCode code.vInt64)))
      | none =>
        match getTag span (cstr "rpc.system") with
        | some attr =>
          .ok (s.updates (cstr "request_count") (JaegerSpan.rpcTags (strAt attr.vStr) safeOpName)
            (JaegerSpan.rpcTags (strAt attr.vStr) (cstr "all")))
        | none => .ok []
  else if kind = cstr "producer" ∨ kind = cstr "consumer" then
    let system ← nonNull (getTag span (cstr "messaging.system"))
    let dest ← nonNull (getTag span (cstr "messaging.destination"))
    .ok (s.updates (cstr "request_count")
      (JaegerSpan.messagingTags kind (strAt system.vStr) (strAt dest.vStr))
      (JaegerSpan.messagingTags kind (strAt system.vStr) (cstr "all")))
  else if kind = cstr "internal" then
    .ok (s.updates (cstr "execution_count") (JaegerSpan.internalTags safeOpName)
      (JaegerSpan.internalTags (cstr "all")))
  else .ok []

/-- The tags of every metric of a span. -/
def jaegerTagString (service team : Bytes) : Bytes :=
  cstr "service:" ++ service ++ cstr ",team:" ++ team ++ cstr ",__rollup:false"

/-- The team of a span: the last tag `mlb.team` of its process. -/
def jaegerTeam (p : ProtoProcess) : Bytes :=
  ((p.tags.reverse.find? fun kv => kv.key = cstr "mlb.team").map fun kv => strAt kv.vStr).getD
    (cstr "unknown")

/-- `otel_process_jaeger_span`, on what `ParseFromArray` makes of the message: the team and what
is done with its table, or nothing for a span that is not processed. -/
def otelProcessJaegerSpan (env : Env) (message : Option ProtoSpan) :
    Outcome (Option (Bytes × List Effect)) :=
  match message with
  | none => .ok none
  | some span =>
    match span.process with
    | none => .ok none
    | some p => do
      let service := strAt p.serviceName
      let team := jaegerTeam p
      let durationUs := toU64 span.duration.us
      let timestamp := (toU64 span.startTime.us + durationUs) % 2 ^ 64 / 1000
      let aggTimestamp ← centerTimestamp timestamp (env.getMetricFlushFrequencyMs service)
      let updates ← processKind span
        ⟨snprintf 2047 (jaegerTagString service team), durationUs, aggTimestamp⟩
      .ok (some (team, updates))

/-! ### Reading the tags -/

/-- No tag of the list is long. -/
def ShortTags (tags : Bytes) : Prop := ∀ t ∈ strtok 44 tags, t.length < 256

variable {a b tags front service team : Bytes} {buffers : KeyBuffers}

theorem ShortTags.of_length (h : tags.length < 256) : ShortTags tags := fun _ ht =>
  lt_of_le_of_lt (infix_of_mem_strtok ht).length_le h

theorem ShortTags.append (ha : ShortTags a) (hb : ShortTags b) : ShortTags (a ++ 44 :: b) := by
  intro t ht
  rw [strtok_append_cons] at ht
  exact (List.mem_append.1 ht).elim (ha t) (hb t)

theorem ShortTags.labelsFit (h : ShortTags tags) : LabelsFit (strtok 44 tags) := by
  intro word _ s hs
  obtain ⟨t, ht, hs⟩ := List.mem_filterMap.1 hs
  obtain ⟨start, hstart, rfl⟩ := Option.map_eq_some_iff.1 hs
  have hle := (strstr_spec hstart).2.length_le
  have hshort := h t ht
  rw [List.length_drop]
  omega

theorem strtok_jaegerTagString (hservice : (44 : UInt8) ∉ service) (hteam : (44 : UInt8) ∉ team) :
    strtok 44 (jaegerTagString service team) =
      [cstr "service:" ++ service, cstr "team:" ++ team, cstr "__rollup:false"] := by
  have hsplit : jaegerTagString service team =
      cstr "service:" ++ service ++ 44 :: (cstr "team:" ++ team ++ 44 :: cstr "__rollup:false") := by
    simp [jaegerTagString, cstr]
  have hs : (44 : UInt8) ∉ cstr "service:" ++ service := by
    rw [List.mem_append, not_or]
    exact ⟨by decide, hservice⟩
  have ht : (44 : UInt8) ∉ cstr "team:" ++ team := by
    rw [List.mem_append, not_or]
    exact ⟨by decide, hteam⟩
  rw [hsplit, strtok_append_delim hs (by simp [cstr]), strtok_append_delim ht (by simp [cstr])]
  rfl

/-- The team is the one of the last tag, whatever stands before. -/
theorem readTags_team (hfront : ShortTags front) (hservice : (44 : UInt8) ∉ service)
    (hteam : (44 : UInt8) ∉ team) (hs : service.length < 248) (ht : team.length < 251)
    (hfit : (front ++ 44 :: jaegerTagString service team).length < 3172) :
    ∃ s, readTags (front ++ 44 :: jaegerTagString service team) buffers =
      .ok (true, ⟨some s, some team⟩) := by
  have htoks := strtok_jaegerTagString hservice hteam
  have hown : ShortTags (jaegerTagString service team) := by
    have hservice' : (cstr "service:").length = 8 := rfl
    have hteam' : (cstr "team:").length = 5 := rfl
    unfold ShortTags
    simp only [htoks, List.forall_mem_cons, List.length_append, hservice', hteam']
    exact ⟨by omega, by omega, by decide, by simp⟩
  have hrollup : ∀ word ∈ [cstr "service:", cstr "team:"],
      labelled word [cstr "__rollup:false"] = [] := by decide
  have hlabelled : ∀ word ∈ [cstr "service:", cstr "team:"],
      labelled word (strtok 44 (front ++ 44 :: jaegerTagString service team)) =
        labelled word (strtok 44 front) ++ (labelled word [cstr "service:" ++ service] ++
          labelled word [cstr "team:" ++ team]) := by
    intro word hword
    rw [strtok_append_cons, htoks, labelled, List.filterMap_append, ← labelled, ← labelled,
      labelled_cons, labelled_cons _ (cstr "team:" ++ team), hrollup word hword, List.append_nil]
  have hlast : (labelled (cstr "team:")
      (strtok 44 (front ++ 44 :: jaegerTagString service team))).getLast? = some team := by
    rw [hlabelled _ (by simp), labelled_singleton _ (cstr "team:" ++ team),
      strstr_of_start (List.prefix_append _ _), ← List.append_assoc]
    exact List.getLast?_concat
  obtain ⟨s, hs⟩ : ∃ s, (labelled (cstr "service:")
      (strtok 44 (front ++ 44 :: jaegerTagString service team))).getLast? = some s := by
    rw [hlabelled _ (by simp), labelled_singleton _ (cstr "service:" ++ service),
      strstr_of_start (List.prefix_append _ _), ← Option.isSome_iff_exists]
    simp
  refine ⟨s, ?_⟩
  unfold readTags
  rw [fitting, if_pos hfit]
  simp only [bind, Except.bind, parseTags_eq_ok_iff.2 ⟨(hfront.append hown).labelsFit, rfl⟩,
    TagState.after, hlast, hs, Option.some_or, Option.isSome_some, Bool.true_or, if_true]

/-! ### The tags of a span -/

/-- A text that is printed as it is: it closes no list of tags, and is not long. -/
structure PlainTag (text : Bytes) : Prop where
  bracket : (93 : UInt8) ∉ text
  length : text.length ≤ 240

/-- A list of `k` tags. -/
structure TagList (k : ℕ) (tags : Bytes) : Prop where
  short : ShortTags tags
  bracket : (93 : UInt8) ∉ tags
  length : tags.length < 256 * k

variable {j k : ℕ} {text label : Bytes}

theorem TagList.append (ha : TagList j a) (hb : TagList k b) : TagList (j + k) (a ++ 44 :: b) := by
  refine ⟨ha.short.append hb.short, ?_, ?_⟩
  · rw [List.mem_append, List.mem_cons, not_or, not_or]
    exact ⟨ha.bracket, by decide, hb.bracket⟩
  · have := ha.length
    have := hb.length
    simp only [List.length_append, List.length_cons]
    omega

/-- A label and a text. -/
theorem PlainTag.labelled (h : PlainTag text) (hlabel : (93 : UInt8) ∉ label ∧ label.length ≤ 15) :
    TagList 1 (label ++ text) := by
  have hlength : (label ++ text).length < 256 := by
    have := h.length
    have := hlabel.2
    rw [List.length_append]
    omega
  refine ⟨.of_length hlength, ?_, by omega⟩
  rw [List.mem_append, not_or]
  exact ⟨hlabel.1, h.bracket⟩

theorem plainTag_nil : PlainTag [] := ⟨List.not_mem_nil, Nat.zero_le _⟩

/-- A label alone. -/
theorem tagList_label (hlabel : (93 : UInt8) ∉ label ∧ label.length ≤ 15) : TagList 1 label := by
  have h := plainTag_nil.labelled hlabel
  rwa [List.append_nil] at h

theorem plainTag_all : PlainTag (cstr "all") := ⟨by decide, by decide⟩

/-- Brackets are unsafe. -/
theorem plainTag_makeSafe {name : Bytes} (h : name.length ≤ 240) : PlainTag (makeSafe name) := by
  refine ⟨fun hmem => ?_, by rwa [makeSafe, List.length_map]⟩
  obtain ⟨c, -, hc⟩ := List.mem_map.1 hmem
  split_ifs at hc with hv
  · rw [hc] at hv
    exact absurd hv (by decide)
  · exact absurd hc (by decide)

theorem plainTag_simplifyStatusCode (code : ℤ) : PlainTag (simplifyStatusCode code) := by
  have hdigits : ∀ n : ℕ, (93 : UInt8) ∉ JsonC.digitsText n := fun n hmem =>
    absurd (JsonC.isDigit_of_mem_digitsText 93 hmem) (by decide)
  have hlength : ∀ n < 10 ^ 10, (JsonC.digitsText n).length ≤ 10 := by
    intro n hn
    rw [JsonC.digitsText, List.length_map]
    exact (Nat.length_toDigits_le_iff (by omega) (by omega)).2 hn
  have hsmall : ((code.tdiv 100).bmod (2 ^ 32)).natAbs < 10 ^ 10 := by
    have hle := Int.bmod_le (x := code.tdiv 100) (m := 2 ^ 32) (by omega)
    have hge := Int.le_bmod (x := code.tdiv 100) (m := 2 ^ 32) (by omega)
    omega
  unfold simplifyStatusCode printD
  constructor
  · split_ifs
    · simp [hdigits, cstr]
    · simp [hdigits, cstr]
  · have := hlength _ hsmall
    have hxx : (cstr "XX").length = 2 := rfl
    split_ifs
    · simp only [List.length_append, List.length_cons]
      omega
    · rw [List.length_append]
      omega

theorem plainTag_printS {s : Option Bytes} (h : ∀ t, s = some t → PlainTag t) :
    PlainTag (printS s) := by
  cases s with
  | none => exact ⟨by decide, by decide⟩
  | some t => exact h t rfl

theorem tagList_serverTags {name method flavor : Bytes} {code : Option Bytes} (hname : PlainTag name)
    (hmethod : PlainTag method) (hcode : PlainTag (printS code)) (hflavor : PlainTag flavor) :
    TagList 5 (JaegerSpan.serverTags name method code flavor) := by
  have hsplit : JaegerSpan.serverTags name method code flavor =
      cstr "type:server" ++ 44 :: (cstr "name:" ++ name) ++ 44 :: (cstr "method:" ++ method) ++
        44 :: (cstr "code:" ++ printS code) ++ 44 :: (cstr "flavor:" ++ flavor) := by
    simp [JaegerSpan.serverTags, cstr]
  rw [hsplit]
  exact ((((tagList_label (by decide)).append (hname.labelled (by decide))).append
    (hmethod.labelled (by decide))).append (hcode.labelled (by decide))).append
      (hflavor.labelled (by decide))

theorem tagList_errorTags {name method flavor : Bytes} {code : Option Bytes} (hname : PlainTag name)
    (hmethod : PlainTag method) (hcode : PlainTag (printS code)) (hflavor : PlainTag flavor) :
    TagList 5 (JaegerSpan.errorTags code name method flavor) := by
  have hsplit : JaegerSpan.errorTags code name method flavor =
      cstr "type:server" ++ 44 :: (cstr "code:" ++ printS code) ++ 44 :: (cstr "name:" ++ name) ++
        44 :: (cstr "method:" ++ method) ++ 44 :: (cstr "flavor:" ++ flavor) := by
    simp [JaegerSpan.errorTags, cstr]
  rw [hsplit]
  exact ((((tagList_label (by decide)).append (hcode.labelled (by decide))).append
    (hname.labelled (by decide))).append (hmethod.labelled (by decide))).append
      (hflavor.labelled (by decide))

theorem tagList_dbTags {system opName : Bytes} (hsystem : PlainTag system) (hop : PlainTag opName) :
    TagList 4 (JaegerSpan.dbTags system opName) := by
  have hsplit : JaegerSpan.dbTags system opName =
      cstr "type:client" ++ 44 :: cstr "subtype:db" ++ 44 :: (cstr "system:" ++ system) ++
        44 :: (cstr "op_name:" ++ opName) := by
    simp [JaegerSpan.dbTags, cstr]
  rw [hsplit]
  exact (((tagList_label (by decide)).append (tagList_label (by decide))).append
    (hsystem.labelled (by decide))).append (hop.labelled (by decide))

theorem tagList_httpTags {method domain code : Bytes} (hmethod : PlainTag method)
    (hdomain : PlainTag domain) (hcode : PlainTag code) :
    TagList 5 (JaegerSpan.httpTags method domain code) := by
  have hsplit : JaegerSpan.httpTags method domain code =
      cstr "type:client" ++ 44 :: cstr "subtype:http" ++ 44 :: (cstr "method:" ++ method) ++
        44 :: (cstr "domain:" ++ domain) ++ 44 :: (cstr "code:" ++ code) := by
    simp [JaegerSpan.httpTags, cstr]
  rw [hsplit]
  exact ((((tagList_label (by decide)).append (tagList_label (by decide))).append
    (hmethod.labelled (by decide))).append (hdomain.labelled (by decide))).append
      (hcode.labelled (by decide))

theorem tagList_rpcTags {system method : Bytes} (hsystem : PlainTag system)
    (hmethod : PlainTag method) : TagList 4 (JaegerSpan.rpcTags system method) := by
  have hsplit : JaegerSpan.rpcTags system method =
      cstr "type:client" ++ 44 :: cstr "subtype:rpc" ++ 44 :: (cstr "system:" ++ system) ++
        44 :: (cstr "method:" ++ method) := by
    simp [JaegerSpan.rpcTags, cstr]
  rw [hsplit]
  exact (((tagList_label (by decide)).append (tagList_label (by decide))).append
    (hsystem.labelled (by decide))).append (hmethod.labelled (by decide))

theorem tagList_messagingTags {kind system destination : Bytes} (hkind : PlainTag kind)
    (hsystem : PlainTag system) (hdestination : PlainTag destination) :
    TagList 3 (JaegerSpan.messagingTags kind system destination) := by
  have hsplit : JaegerSpan.messagingTags kind system destination =
      (cstr "type:" ++ kind) ++ 44 :: (cstr "system:" ++ system) ++
        44 :: (cstr "destination:" ++ destination) := by
    simp [JaegerSpan.messagingTags, cstr]
  rw [hsplit]
  exact ((hkind.labelled (by decide)).append (hsystem.labelled (by decide))).append
    (hdestination.labelled (by decide))

theorem tagList_internalTags {opName : Bytes} (hop : PlainTag opName) :
    TagList 2 (JaegerSpan.internalTags opName) := by
  have hsplit : JaegerSpan.internalTags opName =
      cstr "type:internal" ++ 44 :: (cstr "op_name:" ++ opName) := by
    simp [JaegerSpan.internalTags, cstr]
  rw [hsplit]
  exact (tagList_label (by decide)).append (hop.labelled (by decide))

/-! ### Isolation -/

/-- An update of an aggregate, under few tags and those of every metric. -/
def Effect.Tagged (aggTagString : Bytes) : Effect → Prop
  | .update u => u.aggregate = true ∧ ∃ stem tags k, u.name = ⟨stem, [], tags ++ 44 :: aggTagString⟩ ∧
      ¬ cstr "|ST[" <:+: stem ∧ stem.length ≤ 15 ∧ k ≤ 5 ∧ TagList k tags
  | _ => False

/-- What is asked of the texts of a span. -/
structure CleanJaegerSpan (p : ProtoProcess) (span : ProtoSpan) : Prop where
  service : PlainTag (strAt p.serviceName) ∧ (44 : UInt8) ∉ strAt p.serviceName
  team : PlainTag (jaegerTeam p) ∧ (44 : UInt8) ∉ jaegerTeam p
  name : span.operationName.length ≤ 240
  printed : ∀ name ∈ [cstr "http.method", cstr "http.flavor", cstr "db.system", cstr "rpc.system",
    cstr "messaging.system", cstr "messaging.destination"], ∀ kv, getTag span name = some kv →
      PlainTag (strAt kv.vStr)
  domain : ∀ kv, getTag span (cstr "http.url") = some kv → ∀ domain,
    parseDomain (strAt kv.vStr) = some domain → PlainTag domain

/-- A name with few tags is read as the name of the team. -/
theorem readAs_of_tagList {stem : Bytes} (hstem : ¬ cstr "|ST[" <:+: stem) (hshort : stem.length ≤ 15)
    (hk : k ≤ 5) (htags : TagList k tags) (hservice : PlainTag service)
    (hservice' : (44 : UInt8) ∉ service) (hteam : PlainTag team) (hteam' : (44 : UInt8) ∉ team) :
    ReadAs team (MetricName.metricName
      ⟨stem, [], tags ++ 44 :: snprintf 2047 (jaegerTagString service team)⟩) := by
  have hs := hservice.length
  have ht := hteam.length
  have hl := htags.length
  have hagg : (jaegerTagString service team).length = service.length + team.length + 29 := by
    simp only [jaegerTagString, List.length_append]
    have h1 : (cstr "service:").length = 8 := rfl
    have h2 : (cstr ",team:").length = 6 := rfl
    have h3 : (cstr ",__rollup:false").length = 15 := rfl
    omega
  have hcut : snprintf 2047 (jaegerTagString service team) = jaegerTagString service team :=
    List.take_of_length_le (by omega)
  have hfit : (tags ++ 44 :: jaegerTagString service team).length < 3172 := by
    rw [List.length_append, List.length_cons]
    omega
  have hbracket : (93 : UInt8) ∉ tags ++ 44 :: jaegerTagString service team := by
    have h1 : (93 : UInt8) ∉ cstr "service:" := by decide
    have h2 : (93 : UInt8) ∉ cstr ",team:" := by decide
    have h3 : (93 : UInt8) ∉ cstr ",__rollup:false" := by decide
    simp [jaegerTagString, htags.bracket, hservice.bracket, hteam.bracket, h1, h2, h3]
  have hname : MetricName.metricName ⟨stem, [], tags ++ 44 :: jaegerTagString service team⟩ =
      stem ++ cstr "|ST[" ++ (tags ++ 44 :: jaegerTagString service team ++ 93 :: []) := by
    have hformat : MetricName.formatted ⟨stem, [], tags ++ 44 :: jaegerTagString service team⟩ =
        stem ++ cstr "|ST[" ++ (tags ++ 44 :: jaegerTagString service team ++ 93 :: []) := by
      simp [MetricName.formatted, cstr]
    rw [MetricName.metricName, hformat]
    apply List.take_of_length_le
    have hopen : (cstr "|ST[").length = 4 := rfl
    simp only [List.length_append, List.length_cons, List.length_nil] at hfit ⊢
    omega
  have hread : ∀ buffers, ∃ s, parseKey (MetricName.metricName
      ⟨stem, [], tags ++ 44 :: jaegerTagString service team⟩) buffers =
        .ok (true, ⟨some s, some team⟩) := by
    intro buffers
    rw [hname, parseKey_append hstem hbracket]
    exact readTags_team htags.short hservice' hteam' (by omega) (by omega) hfit
  rw [hcut]
  refine ⟨_, decodeString_jsonEscapeStr _, hread _, ?_⟩
  intro stats owner now teams teams' timestamp value h
  exact processAggregateMessage_frame (fun e he b => by
    rw [List.mem_singleton.1 he]
    exact hread b) h

variable {span : ProtoSpan} {s : JaegerSpan} {effects : List Effect} {stem named all : Bytes}

theorem tagged_latency (hk : k ≤ 5) (h : TagList k tags) :
    (s.latency tags).Tagged s.aggTagString :=
  ⟨rfl, _, _, k, rfl, by decide, by decide, hk, h⟩

theorem tagged_count (hstem : ¬ cstr "|ST[" <:+: stem ∧ stem.length ≤ 15) (hk : k ≤ 5)
    (h : TagList k tags) : (s.count stem tags).Tagged s.aggTagString :=
  ⟨rfl, _, _, k, rfl, hstem.1, hstem.2, hk, h⟩

theorem tagged_updates (hstem : ¬ cstr "|ST[" <:+: stem ∧ stem.length ≤ 15) (hk : k ≤ 5)
    (hnamed : TagList k named) (hall : TagList k all) :
    ∀ e ∈ s.updates stem named all, e.Tagged s.aggTagString := by
  unfold JaegerSpan.updates
  simp only [List.forall_mem_cons]
  exact ⟨tagged_latency hk hnamed, tagged_latency hk hall, tagged_count hstem hk hnamed,
    tagged_count hstem hk hall, List.forall_mem_nil _⟩

theorem tagged_serverUpdates {name method flavor : Bytes} {status : Option ℤ}
    (hname : PlainTag name) (hmethod : PlainTag method) (hflavor : PlainTag flavor) :
    ∀ e ∈ s.serverUpdates name method status flavor, e.Tagged s.aggTagString := by
  have hcode : PlainTag (printS (status.map simplifyStatusCode)) := by
    apply plainTag_printS
    intro t ht
    obtain ⟨code, -, rfl⟩ := Option.map_eq_some_iff.1 ht
    exact plainTag_simplifyStatusCode code
  unfold JaegerSpan.serverUpdates
  rw [List.forall_mem_append]
  refine ⟨tagged_updates (by decide) le_rfl (tagList_serverTags hname hmethod hcode hflavor)
    (tagList_serverTags plainTag_all hmethod hcode hflavor), ?_⟩
  split_ifs
  · have herror : ¬ cstr "|ST[" <:+: cstr "error_count" ∧ (cstr "error_count").length ≤ 15 := by
      decide
    simp only [List.forall_mem_cons]
    exact ⟨tagged_count herror le_rfl (tagList_errorTags hname hmethod hcode hflavor),
      tagged_count herror le_rfl (tagList_errorTags plainTag_all hmethod hcode hflavor),
      List.forall_mem_nil _⟩
  · exact List.forall_mem_nil _

/-- All updates of a span have few tags. -/
theorem tagged_processKind {p : ProtoProcess} (hclean : CleanJaegerSpan p span)
    (h : processKind span s = .ok effects) : ∀ e ∈ effects, e.Tagged s.aggTagString := by
  have hname := plainTag_makeSafe hclean.name
  obtain ⟨kindTag, hkind, h⟩ := bind_eq_ok.1 h
  dsimp only at h
  split_ifs at h with hserver hclient hmessaging hinternal
  · obtain ⟨method, hmethod, h⟩ := bind_eq_ok.1 h
    obtain rfl := Except.ok.inj h
    apply tagged_serverUpdates hname
    · exact hclean.printed _ (by simp) method (nonNull_eq_ok.1 hmethod)
    · cases hflavor : getTag span (cstr "http.flavor") with
      | none => exact ⟨by decide, by decide⟩
      | some flavor => exact hclean.printed _ (by simp) flavor hflavor
  · cases hdb : getTag span (cstr "db.system") with
    | some attr =>
      rw [hdb] at h
      obtain rfl := Except.ok.inj h
      have hsystem := hclean.printed _ (by simp) attr hdb
      exact tagged_updates (by decide) (by omega) (tagList_dbTags hsystem hname)
        (tagList_dbTags hsystem plainTag_all)
    | none =>
      rw [hdb] at h
      cases hurl : getTag span (cstr "http.url") with
      | some attr =>
        rw [hurl] at h
        obtain ⟨code, hcode, h⟩ := bind_eq_ok.1 h
        obtain ⟨method, hmethod, h⟩ := bind_eq_ok.1 h
        obtain rfl := Except.ok.inj h
        have hmethod := hclean.printed _ (by simp) method (nonNull_eq_ok.1 hmethod)
        have hcode := plainTag_simplifyStatusCode code.vInt64
        exact tagged_updates (by decide) le_rfl
          (tagList_httpTags hmethod (plainTag_printS (hclean.domain attr hurl)) hcode)
          (tagList_httpTags hmethod plainTag_all hcode)
      | none =>
        rw [hurl] at h
        cases hrpc : getTag span (cstr "rpc.system") with
        | some attr =>
          rw [hrpc] at h
          obtain rfl := Except.ok.inj h
          have hsystem := hclean.printed _ (by simp) attr hrpc
          exact tagged_updates (by decide) (by omega) (tagList_rpcTags hsystem hname)
            (tagList_rpcTags hsystem plainTag_all)
        | none =>
          rw [hrpc] at h
          obtain rfl := Except.ok.inj h
          exact List.forall_mem_nil _
  · obtain ⟨system, hsystem, h⟩ := bind_eq_ok.1 h
    obtain ⟨dest, hdest, h⟩ := bind_eq_ok.1 h
    obtain rfl := Except.ok.inj h
    have hsystem := hclean.printed _ (by simp) system (nonNull_eq_ok.1 hsystem)
    have hdest := hclean.printed _ (by simp) dest (nonNull_eq_ok.1 hdest)
    have hkind : PlainTag kindTag.vStr := by
      rcases hmessaging with heq | heq
      · rw [heq]
        exact ⟨by decide, by decide⟩
      · rw [heq]
        exact ⟨by decide, by decide⟩
    exact tagged_updates (by decide) (by omega) (tagList_messagingTags hkind hsystem hdest)
      (tagList_messagingTags hkind hsystem plainTag_all)
  · obtain rfl := Except.ok.inj h
    exact tagged_updates (by decide) (by omega) (tagList_internalTags hname)
      (tagList_internalTags plainTag_all)
  · obtain rfl := Except.ok.inj h
    exact List.forall_mem_nil _

/-- **A span's metrics come back to its team.**  Whatever its operation is called, every metric of a
span is an aggregate whose name, flushed to Kafka and taken apart again, is that of the team of the
span; merging it changes no other team's table. -/
theorem jaeger_span_isolated (env : Env) {p : ProtoProcess} (hp : span.process = some p)
    (hclean : CleanJaegerSpan p span)
    (h : otelProcessJaegerSpan env (some span) = .ok (some (team, effects))) :
    team = jaegerTeam p ∧ ∀ e ∈ effects, ∃ u : NamedUpdate, e = .update u ∧ u.aggregate = true ∧
      ReadAs team u.key.metricName := by
  dsimp only [otelProcessJaegerSpan] at h
  rw [hp] at h
  obtain ⟨aggTimestamp, -, h⟩ := bind_eq_ok.1 h
  obtain ⟨updates, hupdates, h⟩ := bind_eq_ok.1 h
  obtain ⟨rfl, rfl⟩ := Prod.mk.inj (Option.some.inj (Except.ok.inj h))
  refine ⟨rfl, fun e he => ?_⟩
  have htagged := tagged_processKind hclean hupdates e he
  cases e with
  | update u =>
    obtain ⟨hagg, stem, tags, k, hname, hstem, hshort, hk, htags⟩ := htagged
    refine ⟨u, rfl, hagg, ?_⟩
    have hkey : u.key.metricName = u.name.metricName := rfl
    rw [hkey, hname]
    exact readAs_of_tagList hstem hshort hk htags hclean.service.1 hclean.service.2 hclean.team.1
      hclean.team.2
  | _ => exact htagged.elim

/-- A request whose operation tries to name another team. -/
def hostileSpan : ProtoSpan where
  process := some ⟨cstr "front", [⟨cstr "mlb.team", cstr "core", 0⟩]⟩
  operationName := cstr "x],team:evil"
  tags := [⟨cstr "span.kind", cstr "server", 0⟩, ⟨cstr "http.method", cstr "GET", 0⟩,
    ⟨cstr "http.status_code", [], 503⟩]
  startTime := ⟨1, 0⟩
  duration := ⟨0, 5000000⟩

theorem jaeger_span_isolated_hostile :
    ∃ effects, otelProcessJaegerSpan plainEnv (some hostileSpan) =
        .ok (some (cstr "core", effects)) ∧ effects.length = 6 ∧
      ∀ e ∈ effects, ∃ u : NamedUpdate, e = .update u ∧ u.aggregate = true ∧
        ReadAs (cstr "core") u.key.metricName := by
  have hclean : CleanJaegerSpan ⟨cstr "front", [⟨cstr "mlb.team", cstr "core", 0⟩]⟩ hostileSpan := by
    refine ⟨⟨⟨by decide, by decide⟩, by decide⟩, ⟨⟨by decide, by decide⟩, by decide⟩, by decide,
      fun name hname kv hkv => ?_, fun kv hkv => ?_⟩
    · have hmem := List.mem_of_find?_eq_some hkv
      simp only [hostileSpan, List.mem_cons, List.not_mem_nil, or_false] at hmem
      rcases hmem with rfl | rfl | rfl
      · exact ⟨by decide, by decide⟩
      · exact ⟨by decide, by decide⟩
      · exact ⟨by decide, by decide⟩
    · have hnone : getTag hostileSpan (cstr "http.url") = none := by
        rw [getTag, List.find?_eq_none]
        decide
      rw [hnone] at hkv
      cases hkv
  have h : ∃ effects, otelProcessJaegerSpan plainEnv (some hostileSpan) =
      .ok (some (cstr "core", effects)) ∧ effects.length = 6 := ⟨_, rfl, rfl⟩
  obtain ⟨effects, heffects, hlength⟩ := h
  exact ⟨effects, heffects, hlength,
    (jaeger_span_isolated plainEnv rfl hclean heffects).2⟩

/-! ### Latencies and counters -/

/-- The key of a metric of spans. -/
def spanKey (stem tags : Bytes) (timestamp : ℕ) : MetricKey :=
  NamedUpdate.key ⟨⟨stem, [], tags⟩, true, .counter 1, timestamp⟩

/-- How many samples an effect adds to the histogram with the key. -/
def samplesOf (key : MetricKey) : Effect → ℕ
  | .update ⟨name, aggregate, .histogram value, timestamp⟩ =>
    if NamedUpdate.key ⟨name, aggregate, .histogram value, timestamp⟩ = key then 1 else 0
  | _ => 0

/-- How many samples a list of effects adds. -/
def samples (key : MetricKey) (effects : List Effect) : ℕ := (effects.map (samplesOf key)).sum

/-- What a sequence of messages does with the table of a team. -/
def spanEffects (env : Env) (team : Bytes) : List (Option ProtoSpan) → List Effect
  | [] => []
  | message :: messages =>
    match otelProcessJaegerSpan env message with
    | .ok (some (owner, effects)) =>
      if owner = team then effects ++ spanEffects env team messages
      else spanEffects env team messages
    | _ => spanEffects env team messages

/-- Every latency has a sample for each thing counted under its tags. -/
def Matched (effects : List Effect) : Prop :=
  ∀ tags timestamp, tags.length ≤ 4000 →
    samples (spanKey (cstr "latency") tags timestamp) effects =
      added (spanKey (cstr "request_count") tags timestamp) effects +
        added (spanKey (cstr "execution_count") tags timestamp) effects

variable {effects' : List Effect} {timestamp : ℕ}

theorem matched_nil : Matched [] := fun _ _ _ => rfl

theorem Matched.append (h : Matched effects) (h' : Matched effects') :
    Matched (effects ++ effects') := by
  intro tags timestamp hlen
  have := h tags timestamp hlen
  have := h' tags timestamp hlen
  rw [added_append, added_append, samples, List.map_append, List.sum_append]
  unfold samples at *
  omega

/-- The keys of two metrics of spans. -/
theorem spanKey_eq_iff {stem' tags' : Bytes} {timestamp' : ℕ} (hlen : tags.length ≤ 4000)
    (hshort : stem.length ≤ 15) :
    spanKey stem' tags' timestamp' = spanKey stem tags timestamp ↔
      stem' ++ cstr "|ST[" ++ tags' = stem ++ cstr "|ST[" ++ tags ∧ timestamp' = timestamp := by
  have hopen : (cstr "|ST[").length = 4 := rfl
  have hclose : (cstr "]").length = 1 := rfl
  have hfits : (MetricName.formatted ⟨stem, [], tags⟩).length < 4094 := by
    simp only [MetricName.formatted, List.length_append, List.length_nil]
    omega
  have hname := metricName_eq_iff (n := ⟨stem', [], tags'⟩) hfits
  have hformat : MetricName.formatted ⟨stem', [], tags'⟩ = MetricName.formatted ⟨stem, [], tags⟩ ↔
      stem' ++ cstr "|ST[" ++ tags' = stem ++ cstr "|ST[" ++ tags := by
    simp only [MetricName.formatted, List.append_nil]
    exact List.append_left_inj _
  rw [← hformat, ← hname]
  simp [spanKey, NamedUpdate.key, makeMetricKey, and_comm]

theorem samplesOf_count (s : JaegerSpan) (key : MetricKey) :
    samplesOf key (s.count stem tags) = 0 := rfl

theorem addedTo_span_latency (s : JaegerSpan) (key : MetricKey) :
    addedTo key (s.latency tags) = 0 := rfl

theorem samplesOf_latency (s : JaegerSpan) (hlen : tags.length ≤ 4000) (named : Bytes) :
    samplesOf (spanKey (cstr "latency") tags timestamp) (s.latency named) =
      if named ++ 44 :: s.aggTagString = tags ∧ s.aggTimestamp = timestamp then 1 else 0 := by
  show (if spanKey (cstr "latency") (named ++ 44 :: s.aggTagString) s.aggTimestamp =
    spanKey (cstr "latency") tags timestamp then 1 else 0) = _
  refine if_congr ?_ rfl rfl
  rw [spanKey_eq_iff hlen (by decide), List.append_right_inj]

/-- The stems of the counters. -/
def countStems : List Bytes :=
  [cstr "request_count", cstr "execution_count", cstr "error_count"]

/-- The stems are told apart by their first two bytes. -/
theorem countStems_append_inj (hstem : stem ∈ countStems) {stem' : Bytes}
    (hstem' : stem' ∈ countStems) :
    stem' ++ cstr "|ST[" ++ a = stem ++ cstr "|ST[" ++ b ↔ stem' = stem ∧ a = b := by
  have hlong : ∀ x ∈ countStems, 2 ≤ x.length := by decide
  have hinj : ∀ x ∈ countStems, ∀ y ∈ countStems, x.take 2 = y.take 2 → x = y := by decide
  constructor
  · intro h
    have htake := congrArg (List.take 2) h
    rw [List.append_assoc, List.append_assoc, List.take_append_of_le_length (hlong _ hstem'),
      List.take_append_of_le_length (hlong _ hstem)] at htake
    obtain rfl := hinj _ hstem' _ hstem htake
    exact ⟨rfl, List.append_cancel_left h⟩
  · rintro ⟨rfl, rfl⟩
    rfl

/-- A counter adds one under its own stem and tags. -/
theorem addedTo_span_count (s : JaegerSpan) (hlen : tags.length ≤ 4000) (hstem : stem ∈ countStems)
    {stem' : Bytes} (hstem' : stem' ∈ countStems) (named : Bytes) :
    addedTo (spanKey stem tags timestamp) (s.count stem' named) =
      if stem' = stem ∧ named ++ 44 :: s.aggTagString = tags ∧ s.aggTimestamp = timestamp then 1
      else 0 := by
  have hshort : ∀ x ∈ countStems, x.length ≤ 15 := by decide
  show (if spanKey stem' (named ++ 44 :: s.aggTagString) s.aggTimestamp =
    spanKey stem tags timestamp then 1 else 0) = _
  refine if_congr ?_ rfl rfl
  rw [spanKey_eq_iff hlen (hshort _ hstem), countStems_append_inj hstem hstem', and_assoc]

theorem request_mem : cstr "request_count" ∈ countStems := by decide

theorem execution_mem : cstr "execution_count" ∈ countStems := by decide

theorem error_mem : cstr "error_count" ∈ countStems := by decide

theorem matched_updates (s : JaegerSpan)
    (hstem : stem = cstr "request_count" ∨ stem = cstr "execution_count") (named all : Bytes) :
    Matched (s.updates stem named all) := by
  intro tags timestamp hlen
  have hstem' : stem ∈ countStems := by
    rcases hstem with rfl | rfl
    · exact request_mem
    · exact execution_mem
  have hne : cstr "request_count" ≠ cstr "execution_count" := by decide
  unfold JaegerSpan.updates samples
  simp only [List.map_cons, List.map_nil, List.sum_cons, List.sum_nil, added_cons, added_nil,
    samplesOf_count, addedTo_span_latency, samplesOf_latency s hlen,
    addedTo_span_count s hlen request_mem hstem', addedTo_span_count s hlen execution_mem hstem']
  rcases hstem with rfl | rfl
  · simp [hne]
  · simp [hne.symm]

theorem matched_serverUpdates (s : JaegerSpan) (name method : Bytes) (status : Option ℤ)
    (flavor : Bytes) : Matched (s.serverUpdates name method status flavor) := by
  unfold JaegerSpan.serverUpdates
  refine (matched_updates s (.inl rfl) _ _).append ?_
  split_ifs
  · intro tags timestamp hlen
    have hne : cstr "error_count" ≠ cstr "request_count" ∧
        cstr "error_count" ≠ cstr "execution_count" := by decide
    unfold samples
    simp only [List.map_cons, List.map_nil, List.sum_cons, List.sum_nil, added_cons, added_nil,
      samplesOf_count, addedTo_span_count s hlen request_mem error_mem,
      addedTo_span_count s hlen execution_mem error_mem, hne.1, hne.2, false_and, if_false,
      Nat.add_zero]
  · exact matched_nil

theorem matched_processKind (h : processKind span s = .ok effects) : Matched effects := by
  obtain ⟨kindTag, hkind, h⟩ := bind_eq_ok.1 h
  dsimp only at h
  split_ifs at h with hserver hclient hmessaging hinternal
  · obtain ⟨method, -, h⟩ := bind_eq_ok.1 h
    obtain rfl := Except.ok.inj h
    exact matched_serverUpdates s _ _ _ _
  · cases hdb : getTag span (cstr "db.system") with
    | some attr =>
      rw [hdb] at h
      obtain rfl := Except.ok.inj h
      exact matched_updates s (.inl rfl) _ _
    | none =>
      rw [hdb] at h
      cases hurl : getTag span (cstr "http.url") with
      | some attr =>
        rw [hurl] at h
        obtain ⟨code, -, h⟩ := bind_eq_ok.1 h
        obtain ⟨method, -, h⟩ := bind_eq_ok.1 h
        obtain rfl := Except.ok.inj h
        exact matched_updates s (.inl rfl) _ _
      | none =>
        rw [hurl] at h
        cases hrpc : getTag span (cstr "rpc.system") with
        | some attr =>
          rw [hrpc] at h
          obtain rfl := Except.ok.inj h
          exact matched_updates s (.inl rfl) _ _
        | none =>
          rw [hrpc] at h
          obtain rfl := Except.ok.inj h
          exact matched_nil
  · obtain ⟨system, -, h⟩ := bind_eq_ok.1 h
    obtain ⟨dest, -, h⟩ := bind_eq_ok.1 h
    obtain rfl := Except.ok.inj h
    exact matched_updates s (.inl rfl) _ _
  · obtain rfl := Except.ok.inj h
    exact matched_updates s (.inr rfl) _ _
  · obtain rfl := Except.ok.inj h
    exact matched_nil

/-- The updates of one message are those of its kind. -/
theorem processKind_of_message {env : Env} {message : Option ProtoSpan}
    (h : otelProcessJaegerSpan env message = .ok (some (team, effects))) :
    ∃ span s, processKind span s = .ok effects := by
  cases message with
  | none => exact absurd (Except.ok.inj h) (by simp)
  | some span =>
    dsimp only [otelProcessJaegerSpan] at h
    cases hp : span.process with
    | none =>
      rw [hp] at h
      exact absurd (Except.ok.inj h) (by simp)
    | some p =>
      rw [hp] at h
      obtain ⟨aggTimestamp, -, h⟩ := bind_eq_ok.1 h
      obtain ⟨updates, hupdates, h⟩ := bind_eq_ok.1 h
      obtain ⟨-, rfl⟩ := Prod.mk.inj (Option.some.inj (Except.ok.inj h))
      exact ⟨span, _, hupdates⟩

/-- **Latencies and counters agree.**  In every run over any messages, the histogram of a latency has
received as many samples as the counters with its tags have counted. -/
theorem durations_match_counts (env : Env) (team : Bytes) (messages : List (Option ProtoSpan)) :
    Matched (spanEffects env team messages) := by
  induction messages with
  | nil => exact matched_nil
  | cons message messages ih =>
    rw [spanEffects]
    split
    · next owner effects h =>
      obtain ⟨span, s, hkind⟩ := processKind_of_message h
      split_ifs
      · exact (matched_processKind hkind).append ih
      · exact ih
    · exact ih

end Tracemate.Process
