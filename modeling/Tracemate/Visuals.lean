import Mathlib.Data.List.TakeWhile
import Tracemate.Lib.Dialogue
import Tracemate.Process.Windows
import Tracemate.Template

/-!
# Dashboards

`tm_visuals.c`: for each service that has no dashboard yet, the templates of its graphs and of its
dashboard are filled and posted to the API of Circonus.

* `circonusCurlGet`, `circonusCurlPost`: the two requests, to any server;
* `serviceDashExists`, `maybeCreateGraph`, `createDashboard`: the parts of a visit to a service;
* `visitService`, `tmCreateVisuals`, `createAll`: a visit, a pass over all teams, and passes;
* `Creates`: the exchanges of a visit that creates a dashboard;
* `dashboards_created_once`: if the server finds what it was given, no service gets a second
  dashboard;
* `Origin`, `dashboards_show_graphs`: where the identifiers of the graphs of a dashboard come from.
-/

namespace Tracemate.Visuals

open CStr COutcome JsonC Decimal Dialogue Template Tracemate.Process

/-! ### Requests -/

/-- A request to the API, with the header that has the key. -/
inductive Request
  | get (header url : Bytes)
  | post (header url contents : Bytes)

/-- A function that makes requests. -/
abbrev Talk (α : Type) := Dialogue.Talk Request Bytes Fault α

/-- What is outside: the JSON library, whose parser returns `none` for a null pointer, the files
that can be opened, `libcurl` and the server. -/
structure Env where
  lib : Conversions
  parse : Bytes → Option Json
  file : Bytes → Option Bytes
  curlEasyEscape : Option Bytes → Option Bytes
  server : Server Request Bytes

/-- The header with the key. -/
def authToken (apiKey : Bytes) : Bytes :=
  snprintf 256 (cstr "X-Circonus-Auth-Token: " ++ apiKey)

/-- `circonus_curl_get`, with its URL; there is a response if it returns `true`. -/
def circonusCurlGet (env : Env) (apiKey url : Bytes) : Talk (Option Bytes) :=
  ask env.server (.get (authToken apiKey) (snprintf 4096 url))

/-- `circonus_curl_post`. -/
def circonusCurlPost (env : Env) (apiKey url contents : Bytes) : Talk (Option Bytes) :=
  ask env.server (.post (authToken apiKey) url contents)

/-- The items of an array.  The library is not part of the sources; it is assumed to end the process
if the value is no array. -/
def elements : Json → Outcome (List Json)
  | .arr items => .ok items
  | _ => .error .crash

theorem elements_eq_ok {o : Json} {items : List Json} :
    elements o = .ok items ↔ o = .arr items := by
  cases o with
  | arr items' => simp [elements]
  | _ => simp [elements]

/-! ### Visits -/

/-- The URL that `service_dash_exists` asks for. -/
def dashboardSearch (serviceName : Bytes) : Bytes :=
  cstr "https://api.circonus.com/v2/dashboard?search=" ++ serviceName ++
    cstr "%20-%20Performance*"

/-- `service_dash_exists`. -/
def serviceDashExists (env : Env) (apiKey serviceName : Bytes) : Talk Bool := do
  match ← circonusCurlGet env apiKey (dashboardSearch serviceName) with
  -- a search that failed counts as found
  | none => pure true
  | some response =>
    match env.parse response with
    | none => pure false
    | some o => do
      let items ← elements o
      pure (decide (1 ≤ items.length))

/-- The text of a template up to its end, with the values. -/
def resolved (template : Bytes) (values : Values) : Bytes := tmReplaceVars (strdup template) values

/-- The table `values`, of copies of strings. -/
def valuesOf (entries : List (Bytes × Option Bytes)) : Values where
  retr name := (entries.lookup name).map (Option.map strdup)
  noNul := by
    intro name val h hmem
    obtain ⟨value, -, hval⟩ := Option.map_eq_some_iff.1 h
    obtain ⟨text, -, rfl⟩ := Option.map_eq_some_iff.1 hval
    unfold strdup at hmem
    have hne := List.mem_takeWhile_imp (p := fun c => decide (c ≠ 0)) hmem
    exact of_decide_eq_true hne rfl

/-- The identifier of a graph: what follows `/graph/` in its `_cid`. -/
def uuidOf (lib : Conversions) (graph : Option Json) : Outcome Bytes := do
  let cid ← nonNull (lib.getString (Json.get (cstr "_cid") graph))
  if cid.length < 7 then .error .outOfBounds else .ok (cid.drop 7)

/-- The loop over the graphs that were found: the last one with the title. -/
def graphWithTitle (lib : Conversions) (title : Option Bytes) :
    List Json → Option Bytes → Outcome (Option Bytes)
  | [], uuid => .ok uuid
  | graph :: graphs, uuid => do
    let found ← nonNull (lib.getString (Json.get (cstr "title") graph.pointer))
    let title' ← nonNull title
    if found = title' then do
      let uuid ← uuidOf lib graph.pointer
      graphWithTitle lib title graphs (some uuid)
    else graphWithTitle lib title graphs uuid

def graphUrl : Bytes := cstr "https://api.circonus.com/v2/graph"

/-- The search of `maybe_create_graph`. -/
def existingGraph (env : Env) (apiKey : Bytes) (title : Option Bytes) : Talk (Option Bytes) := do
  match ← circonusCurlGet env apiKey
      (graphUrl ++ cstr "?search=" ++ printS (env.curlEasyEscape title) ++ cstr "*") with
  | none => pure none
  | some response =>
    match env.parse response with
    | none => pure none
    | some o => do
      let items ← elements o
      let uuid ← graphWithTitle env.lib title items none
      pure uuid

/-- The request of `maybe_create_graph` for a graph that was not found. -/
def createGraph (env : Env) (apiKey contents : Bytes) : Talk (Option Bytes) := do
  match ← circonusCurlPost env apiKey graphUrl contents with
  | none => pure none
  | some response =>
    match env.parse response with
    | none => pure none
    | some o => do
      let uuid ← uuidOf env.lib (some o)
      pure (some uuid)

def missingUuid : Bytes := cstr "00000000-0000-0000-0000-000000000000"

/-- `maybe_create_graph`. -/
def maybeCreateGraph (env : Env) (apiKey path : Bytes) (values : Values) : Talk (Option Bytes) :=
  match env.file path with
  | none => pure (some missingUuid)
  | some template =>
    match env.parse (resolved template values) with
    | none => pure (some missingUuid)
    | some o => do
      match ← existingGraph env apiKey (env.lib.getString (Json.get (cstr "title") (some o))) with
      | some uuid => pure (some uuid)
      | none => createGraph env apiKey (resolved template values)

/-- What becomes of a dashboard: none is there to be posted, or its text and the answer. -/
inductive Created
  | existing
  | unreadable
  | posted (contents : Bytes) (created : Bool)

def dashboardUrl : Bytes := cstr "https://api.circonus.com/v2/dashboard"

def dashboardPath : Bytes := cstr "/tracemate/visuals/dashboard_with_slo.json"

/-- `create_dashboard`. -/
def createDashboard (env : Env) (apiKey : Bytes) (values : Values) : Talk Created :=
  match env.file dashboardPath with
  | none => pure .unreadable
  | some template => do
    let response ← circonusCurlPost env apiKey dashboardUrl (resolved template values)
    pure (.posted (resolved template values) response.isSome)

/-! ### Services -/

/-- The table `threshold_hash`, which the hook `threshold_fetch` fills, and the default of the
configuration. -/
structure Thresholds where
  table : AList fun _ : Bytes => Bytes
  defaultJaegerThresholdUs : ℕ

/-- `get_jaeger_threshold_us`; it multiplies with 64 bits. -/
def getJaegerThresholdUs (thresholds : Thresholds) (serviceName : Bytes) : ℕ :=
  match thresholds.table.lookup serviceName with
  | some data => strtoull data * 1000 % 2 ^ 64
  | none => match thresholds.table.lookup (cstr "default") with
    | some data => strtoull data * 1000 % 2 ^ 64
    | none => thresholds.defaultJaegerThresholdUs

/-- The path of a template. -/
def visual (name : String) : Bytes := cstr "/tracemate/visuals/" ++ cstr name

/-- A graph that has two templates. -/
def byType (info : ServiceInfo) (transactional other : String) : Option Bytes :=
  some (visual (if info.serviceType = .transactional then transactional else other))

/-- The graph of the memory, for the agents that have one. -/
def memoryGraph (agent : Bytes) : Option Bytes :=
  if agent = cstr "java" then some (visual "jvm_memory_graph.json")
  else if agent = cstr "nodejs" then some (visual "nodejs_memory_graph.json")
  else if agent = cstr "python" then some (visual "python_memory_graph.json")
  else if agent = cstr "go" then some (visual "golang_memory_graph.json")
  else none

/-- The graphs of a service, under the names of their identifiers. -/
def graphs (info : ServiceInfo) (agent : Bytes) : List (Bytes × Option Bytes) :=
  [(cstr "average_response_time_graph_uuid", byType info "average_response_time_graph.json"
      "average_response_time_graph_message.json"),
    (cstr "throughput_graph_uuid", byType info "throughput_graph.json"
      "throughput_graph_message.json"),
    (cstr "error_rate_graph_uuid", byType info "error_rate_graph.json"
      "error_rate_graph_message.json"),
    (cstr "heatmap_response_time_graph_uuid", byType info "heatmap_response_time.json"
      "heatmap_response_time_message.json"),
    (cstr "response_error_budget_graph_uuid", some (visual "response_error_budget.json")),
    (cstr "cpu_graph_uuid", some (visual "cpu_graph.json")),
    (cstr "latency_error_budget_graph_uuid", some (visual "latency_error_budget.json")),
    (cstr "topn_graph_uuid", some (visual "topn_graph.json")),
    (cstr "memory_graph_uuid", memoryGraph agent)]

/-- The identifier of one graph. -/
def graphUuid (env : Env) (apiKey : Bytes) (path : Option Bytes)
    (entries : List (Bytes × Option Bytes)) : Talk (Option Bytes) :=
  match path with
  | none => pure none
  | some path => maybeCreateGraph env apiKey path (valuesOf entries)

/-- The graphs one by one, each with the identifiers of those before it. -/
def createGraphs (env : Env) (apiKey : Bytes) :
    List (Bytes × Option Bytes) → List (Bytes × Option Bytes) → Talk (List (Bytes × Option Bytes))
  | [], entries => pure entries
  | (name, path) :: graphs, entries => do
    let uuid ← graphUuid env apiKey path entries
    createGraphs env apiKey graphs (entries ++ [(name, uuid)])

/-- The settings of a `team_data_t` that are read here, and its `service_data` in the order of the
iterator. -/
structure Team where
  name : Bytes
  circonusApiKey : Option Bytes
  checkId : Option Bytes
  serviceData : List (Bytes × ServiceInfo)

/-- The values that all templates have. -/
def commonValues (thresholds : Thresholds) (team : Team) (checkId serviceName : Bytes) :
    List (Bytes × Option Bytes) :=
  let ms := getJaegerThresholdUs thresholds serviceName / 1000
  [(cstr "check_id", some checkId), (cstr "slo_budget_limit", some (cstr "0.005")),
    (cstr "slo_budget_limit_as_percent", some (cstr "0.5")),
    (cstr "slo_budget_length", some (cstr "4w")), (cstr "top_count", some (cstr "15")),
    (cstr "team", some team.name), (cstr "slo_ms", some (natText ms)),
    (cstr "slo_secs", some (natText (ms / 1000)))]

/-- What a visit to a service has done. -/
structure Report where
  apiKey : Bytes
  serviceName : Bytes
  dashboard : Created

/-- The visit to a service whose agent and type are known. -/
def visitKnown (env : Env) (thresholds : Thresholds) (team : Team) (apiKey serviceName : Bytes)
    (info : ServiceInfo) (agent : Bytes) : Talk (List Report) := do
  let checkId ← nonNull team.checkId
  let found ← serviceDashExists env apiKey serviceName
  if found then pure [⟨apiKey, serviceName, .existing⟩]
  else do
    let entries ← createGraphs env apiKey (graphs info agent)
      (commonValues thresholds team checkId serviceName ++
        [(cstr "service_name", some serviceName)])
    let dashboard ← createDashboard env apiKey (valuesOf entries)
    pure [⟨apiKey, serviceName, dashboard⟩]

/-- The body of the inner loop. -/
def visitService (env : Env) (thresholds : Thresholds) (team : Team) (apiKey : Bytes)
    (service : Bytes × ServiceInfo) : Talk (List Report) := do
  let serviceName ← fitting 256 (strdup service.1)
  match service.2.serviceAgent with
  | none => pure []
  | some agent =>
    if service.2.serviceType = .unknown then pure []
    else visitKnown env thresholds team apiKey serviceName service.2 agent

/-- The body of the outer loop. -/
def visitTeam (env : Env) (thresholds : Thresholds) (team : Team) : Talk (List Report) :=
  match team.circonusApiKey with
  | none => pure []
  | some apiKey =>
    if apiKey = [] then pure []
    else collect (visitService env thresholds team apiKey) team.serviceData

/-- `tm_create_visuals`, for the teams in the order of the iterator. -/
def tmCreateVisuals (env : Env) (thresholds : Thresholds) (teams : List Team) :
    Talk (List Report) :=
  collect (visitTeam env thresholds) teams

/-- Any number of passes, each with the thresholds and services of its time. -/
def createAll (env : Env) (passes : List (Thresholds × List Team)) : Talk (List Report) :=
  collect (fun pass => tmCreateVisuals env pass.1 pass.2) passes

/-! ### Dashboards that were created -/

/-- The text of a dashboard that the server has created. -/
def createdBy : Exchange Request Bytes → Option Bytes
  | ⟨.post _ url contents, some _⟩ => if url = dashboardUrl then some contents else none
  | _ => none

theorem createdBy_post (header contents response : Bytes) :
    createdBy ⟨.post header dashboardUrl contents, some response⟩ = some contents := by
  show (if dashboardUrl = dashboardUrl then some contents else none) = some contents
  exact if_pos rfl

/-- No dashboard is created. -/
def Quiet (e : Exchange Request Bytes) : Prop := createdBy e = none

/-- The text of a dashboard that was created. -/
def Created.contents : Created → Option Bytes
  | .posted contents true => some contents
  | _ => none

/-- The account and the service of a dashboard that was created. -/
def Report.key (r : Report) : Option (Bytes × Bytes) :=
  r.dashboard.contents.map fun _ => (r.apiKey, r.serviceName)

/-! ### Graphs of a dashboard -/

/-- The title of a graph that is to be created. -/
def titleOf (lib : Conversions) (o : Json) : Option Bytes :=
  lib.getString (Json.get (cstr "title") (some o))

/-- What `maybe_create_graph` asks first. -/
def graphSearch (env : Env) (apiKey : Bytes) (title : Option Bytes) : Request :=
  .get (authToken apiKey) (snprintf 4096
    (graphUrl ++ cstr "?search=" ++ printS (env.curlEasyEscape title) ++ cstr "*"))

/-- The answer to a search has the graph, with the title. -/
def Lists (env : Env) (answer title : Option Bytes) (graph : Json) : Prop :=
  ∃ response items, answer = some response ∧ env.parse response = some (.arr items) ∧
    graph ∈ items ∧ env.lib.getString (Json.get (cstr "title") graph.pointer) = title

/-- Where the identifier of a graph comes from, with the exchanges about it. -/
inductive Origin (env : Env) (apiKey path : Bytes) (values : Values) :
    List (Exchange Request Bytes) → Option Bytes → Prop
  /-- There is no template, or none that can be parsed. -/
  | missing : (∀ template, env.file path = some template →
      env.parse (resolved template values) = none) →
      Origin env apiKey path values [] (some missingUuid)
  /-- The server has listed a graph with the title of the template. -/
  | listed {template uuid : Bytes} {answer : Option Bytes} {o graph : Json} :
      env.file path = some template → env.parse (resolved template values) = some o →
      Lists env answer (titleOf env.lib o) graph → uuidOf env.lib graph.pointer = .ok uuid →
      Origin env apiKey path values [⟨graphSearch env apiKey (titleOf env.lib o), answer⟩]
        (some uuid)
  /-- The server has listed none, and has created one from the template. -/
  | created {template response uuid : Bytes} {answer : Option Bytes} {o o' : Json} :
      env.file path = some template → env.parse (resolved template values) = some o →
      (∀ graph, ¬ Lists env answer (titleOf env.lib o) graph) →
      env.parse response = some o' → uuidOf env.lib (some o') = .ok uuid →
      Origin env apiKey path values [⟨graphSearch env apiKey (titleOf env.lib o), answer⟩,
        ⟨.post (authToken apiKey) graphUrl (resolved template values), some response⟩] (some uuid)
  /-- The server has listed none, and its answer to the template has no identifier. -/
  | failed {template : Bytes} {answer response : Option Bytes} {o : Json} :
      env.file path = some template → env.parse (resolved template values) = some o →
      (∀ graph, ¬ Lists env answer (titleOf env.lib o) graph) →
      (∀ text, response = some text → env.parse text = none) →
      Origin env apiKey path values [⟨graphSearch env apiKey (titleOf env.lib o), answer⟩,
        ⟨.post (authToken apiKey) graphUrl (resolved template values), response⟩] none

/-- The identifiers of graphs are added one by one to the values, with the exchanges about them; a
graph without a template has none. -/
inductive Graphed (env : Env) (apiKey : Bytes) : List (Bytes × Option Bytes) →
    List (Bytes × Option Bytes) → List (Exchange Request Bytes) → List (Bytes × Option Bytes) → Prop
  | done {entries} : Graphed env apiKey [] entries [] entries
  | without {name gs entries asked entries'} :
      Graphed env apiKey gs (entries ++ [(name, none)]) asked entries' →
      Graphed env apiKey ((name, none) :: gs) entries asked entries'
  | graph {name path uuid gs entries own asked entries'} :
      Origin env apiKey path (valuesOf entries) own uuid →
      Graphed env apiKey gs (entries ++ [(name, uuid)]) asked entries' →
      Graphed env apiKey ((name, some path) :: gs) entries (own ++ asked) entries'

section Graphs

variable {env : Env} {apiKey path : Bytes} {values : Values}
  {history history' asked : List (Exchange Request Bytes)} {uuid : Option Bytes}
  {gs entries entries' : List (Bytes × Option Bytes)}

/-- The loop over the graphs that were found leaves the identifier of one with the title, if there
is one. -/
theorem graphWithTitle_eq_ok {lib : Conversions} {title : Option Bytes} {items : List Json}
    {start : Option Bytes} (h : graphWithTitle lib title items start = .ok uuid) :
    (uuid = start ∧ ∀ graph ∈ items,
        lib.getString (Json.get (cstr "title") graph.pointer) ≠ title) ∨
      ∃ graph ∈ items, ∃ found, uuid = some found ∧
        lib.getString (Json.get (cstr "title") graph.pointer) = title ∧
          uuidOf lib graph.pointer = .ok found := by
  induction items generalizing start with
  | nil => exact .inl ⟨(Except.ok.inj h).symm, List.forall_mem_nil _⟩
  | cons graph items ih =>
    obtain ⟨found, hfound, h⟩ := Outcome.bind_eq_ok.1 h
    obtain ⟨title', htitle, h⟩ := Outcome.bind_eq_ok.1 h
    have hgraph := Outcome.nonNull_eq_ok.1 hfound
    have hsought := Outcome.nonNull_eq_ok.1 htitle
    split_ifs at h with hsame
    · obtain ⟨this, hthis, h⟩ := Outcome.bind_eq_ok.1 h
      obtain ⟨rfl, -⟩ | ⟨other, hother, hrest⟩ := ih h
      · refine .inr ⟨graph, List.mem_cons_self, this, rfl, ?_, hthis⟩
        rw [hgraph, hsought, hsame]
      · exact .inr ⟨other, List.mem_cons_of_mem _ hother, hrest⟩
    · obtain ⟨rfl, hnone⟩ | ⟨other, hother, hrest⟩ := ih h
      · refine .inl ⟨rfl, List.forall_mem_cons.2 ⟨?_, hnone⟩⟩
        rw [hgraph, hsought]
        exact fun heq => hsame (Option.some.inj heq)
      · exact .inr ⟨other, List.mem_cons_of_mem _ hother, hrest⟩

/-- The search finds a graph that its answer lists, or the answer lists none. -/
theorem existingGraph_eq_ok {title : Option Bytes}
    (h : existingGraph env apiKey title history = .ok (uuid, history')) :
    ∃ answer, history' = history ++ [⟨graphSearch env apiKey title, answer⟩] ∧
      ((uuid = none ∧ ∀ graph, ¬ Lists env answer title graph) ∨
        ∃ graph found, uuid = some found ∧ Lists env answer title graph ∧
          uuidOf env.lib graph.pointer = .ok found) := by
  obtain ⟨answer, between, hask, hrest⟩ := bind_eq_ok.1 h
  obtain ⟨-, rfl⟩ := ask_eq_ok.1 hask
  refine ⟨answer, ?_⟩
  cases answer with
  | none =>
    obtain ⟨rfl, rfl⟩ := pure_eq_ok.1 hrest
    refine ⟨rfl, .inl ⟨rfl, ?_⟩⟩
    rintro graph ⟨response, items, hresponse, -⟩
    cases hresponse
  | some response =>
    dsimp only at hrest
    cases hparse : env.parse response with
    | none =>
      rw [hparse] at hrest
      obtain ⟨rfl, rfl⟩ := pure_eq_ok.1 hrest
      refine ⟨rfl, .inl ⟨rfl, ?_⟩⟩
      rintro graph ⟨response', items, hresponse, hitems, -⟩
      obtain rfl := Option.some.inj hresponse
      rw [hparse] at hitems
      cases hitems
    | some o =>
      rw [hparse] at hrest
      obtain ⟨items, between, hlist, hloop⟩ := bind_eq_ok.1 hrest
      obtain ⟨helements, rfl⟩ := lift_eq_ok.1 hlist
      obtain ⟨hlast, rfl⟩ := lift_eq_ok.1 hloop
      obtain rfl := elements_eq_ok.1 helements
      refine ⟨rfl, ?_⟩
      obtain ⟨rfl, hnone⟩ | ⟨graph, hgraph, found, rfl, htitle, huuid⟩ := graphWithTitle_eq_ok hlast
      · refine .inl ⟨rfl, ?_⟩
        rintro graph ⟨response', items', hresponse, hitems, hgraph, htitle⟩
        obtain rfl := Option.some.inj hresponse
        rw [hparse] at hitems
        obtain rfl := Json.arr.inj (Option.some.inj hitems)
        exact hnone graph hgraph htitle
      · exact .inr ⟨graph, found, rfl, ⟨response, items, rfl, hparse, hgraph, htitle⟩, huuid⟩

/-- The request for a new graph returns the identifier of the answer, if it has one. -/
theorem createGraph_eq_ok {contents : Bytes}
    (h : createGraph env apiKey contents history = .ok (uuid, history')) :
    ∃ response, history' =
        history ++ [⟨.post (authToken apiKey) graphUrl contents, response⟩] ∧
      ((uuid = none ∧ ∀ text, response = some text → env.parse text = none) ∨
        ∃ text o found, uuid = some found ∧ response = some text ∧ env.parse text = some o ∧
          uuidOf env.lib (some o) = .ok found) := by
  obtain ⟨answer, between, hask, hrest⟩ := bind_eq_ok.1 h
  obtain ⟨-, rfl⟩ := ask_eq_ok.1 hask
  refine ⟨answer, ?_⟩
  cases answer with
  | none =>
    obtain ⟨rfl, rfl⟩ := pure_eq_ok.1 hrest
    exact ⟨rfl, .inl ⟨rfl, nofun⟩⟩
  | some response =>
    dsimp only at hrest
    cases hparse : env.parse response with
    | none =>
      rw [hparse] at hrest
      obtain ⟨rfl, rfl⟩ := pure_eq_ok.1 hrest
      refine ⟨rfl, .inl ⟨rfl, fun text htext => ?_⟩⟩
      rw [← Option.some.inj htext, hparse]
    | some o =>
      rw [hparse] at hrest
      obtain ⟨found, between, hfound, hpure⟩ := bind_eq_ok.1 hrest
      obtain ⟨huuid, rfl⟩ := lift_eq_ok.1 hfound
      obtain ⟨rfl, rfl⟩ := pure_eq_ok.1 hpure
      exact ⟨rfl, .inr ⟨response, o, found, rfl, rfl, hparse, huuid⟩⟩

theorem origin_maybeCreateGraph
    (h : maybeCreateGraph env apiKey path values history = .ok (uuid, history')) :
    ∃ own, history' = history ++ own ∧ Origin env apiKey path values own uuid := by
  unfold maybeCreateGraph at h
  cases hfile : env.file path with
  | none =>
    rw [hfile] at h
    obtain ⟨rfl, rfl⟩ := pure_eq_ok.1 h
    exact ⟨[], (List.append_nil _).symm,
      .missing fun template htemplate => by rw [hfile] at htemplate; cases htemplate⟩
  | some template =>
    rw [hfile] at h
    dsimp only at h
    cases hparse : env.parse (resolved template values) with
    | none =>
      rw [hparse] at h
      obtain ⟨rfl, rfl⟩ := pure_eq_ok.1 h
      refine ⟨[], (List.append_nil _).symm, .missing fun template' htemplate => ?_⟩
      obtain rfl := Option.some.inj (hfile.symm.trans htemplate)
      exact hparse
    | some o =>
      rw [hparse] at h
      obtain ⟨found, between, hfound, hrest⟩ := bind_eq_ok.1 h
      obtain ⟨answer, rfl, ⟨rfl, hnone⟩ | ⟨graph, this, rfl, hlists, huuid⟩⟩ :=
        existingGraph_eq_ok hfound
      · obtain ⟨response, rfl, ⟨rfl, hparse'⟩ | ⟨text, o', this, rfl, rfl, hparse', huuid⟩⟩ :=
          createGraph_eq_ok hrest
        · exact ⟨_, List.append_assoc _ _ _, .failed hfile hparse hnone hparse'⟩
        · exact ⟨_, List.append_assoc _ _ _, .created hfile hparse hnone hparse' huuid⟩
      · obtain ⟨rfl, rfl⟩ := pure_eq_ok.1 hrest
        exact ⟨_, rfl, .listed hfile hparse hlists huuid⟩

theorem graphed_createGraphs
    (h : createGraphs env apiKey gs entries history = .ok (entries', history')) :
    ∃ asked, history' = history ++ asked ∧ Graphed env apiKey gs entries asked entries' := by
  induction gs generalizing entries history with
  | nil =>
    obtain ⟨rfl, rfl⟩ := pure_eq_ok.1 h
    exact ⟨[], (List.append_nil _).symm, .done⟩
  | cons g gs ih =>
    obtain ⟨name, path⟩ := g
    obtain ⟨uuid, between, hgraph, hrest⟩ := bind_eq_ok.1 h
    cases path with
    | none =>
      obtain ⟨rfl, rfl⟩ := pure_eq_ok.1 hgraph
      obtain ⟨asked, rfl, hgraphed⟩ := ih hrest
      exact ⟨asked, rfl, .without hgraphed⟩
    | some path =>
      obtain ⟨own, rfl, horigin⟩ := origin_maybeCreateGraph hgraph
      obtain ⟨asked, rfl, hgraphed⟩ := ih hrest
      exact ⟨own ++ asked, List.append_assoc _ _ _, .graph horigin hgraphed⟩

/-- Graphs go to a URL of their own. -/
theorem quiet_graph (contents : Bytes) (response : Option Bytes) :
    Quiet ⟨.post (authToken apiKey) graphUrl contents, response⟩ := by
  have hurl : graphUrl ≠ dashboardUrl := by decide
  cases response with
  | none => rfl
  | some response =>
    show (if graphUrl = dashboardUrl then some contents else none) = none
    exact if_neg hurl

/-- No dashboard is created on the way to an identifier. -/
theorem Origin.quiet {own : List (Exchange Request Bytes)}
    (h : Origin env apiKey path values own uuid) : ∀ e ∈ own, Quiet e := by
  cases h with
  | missing => exact List.forall_mem_nil _
  | listed => exact List.forall_mem_singleton.2 rfl
  | created => exact List.forall_mem_cons.2 ⟨rfl, List.forall_mem_singleton.2 (quiet_graph _ _)⟩
  | failed => exact List.forall_mem_cons.2 ⟨rfl, List.forall_mem_singleton.2 (quiet_graph _ _)⟩

theorem Graphed.quiet (h : Graphed env apiKey gs entries asked entries') :
    ∀ e ∈ asked, Quiet e := by
  induction h with
  | done => exact List.forall_mem_nil _
  | without _ ih => exact ih
  | graph horigin _ ih => exact List.forall_mem_append.2 ⟨horigin.quiet, ih⟩

end Graphs

/-! ### What a visit does -/

/-- What `service_dash_exists` asks. -/
def search (apiKey serviceName : Bytes) : Request :=
  .get (authToken apiKey) (snprintf 4096 (dashboardSearch serviceName))

/-- A search is answered, with nothing in the answer. -/
def NotFound (env : Env) (answer : Option Bytes) : Prop :=
  ∃ found, answer = some found ∧ ∀ items, env.parse found = some (.arr items) → items = []

/-- The exchanges of a visit that creates a dashboard: a search that finds none, those about its
graphs, and the post of the template of dashboards with the values of the service and the
identifiers of the graphs. -/
inductive Creates (env : Env) (thresholds : Thresholds) (team : Team)
    (service : Bytes × ServiceInfo) (apiKey : Bytes) :
    Bytes → Bytes → List (Exchange Request Bytes) → Prop
  | post {serviceName checkId agent template response : Bytes} {answer : Option Bytes}
      {entries : List (Bytes × Option Bytes)} {graphed : List (Exchange Request Bytes)} :
      serviceName = strdup service.1 → team.checkId = some checkId →
      service.2.serviceAgent = some agent → env.file dashboardPath = some template →
      NotFound env answer →
      Graphed env apiKey (graphs service.2 agent)
        (commonValues thresholds team checkId serviceName ++
          [(cstr "service_name", some serviceName)]) graphed entries →
      Creates env thresholds team service apiKey serviceName (resolved template (valuesOf entries))
        (⟨search apiKey serviceName, answer⟩ :: (graphed ++
          [⟨.post (authToken apiKey) dashboardUrl (resolved template (valuesOf entries)),
            some response⟩]))

section Visits

variable {env : Env} {thresholds : Thresholds} {team : Team} {service : Bytes × ServiceInfo}
  {apiKey serviceName agent contents : Bytes} {reports : List Report}
  {history history' new : List (Exchange Request Bytes)}

theorem serviceDashExists_eq_ok {found : Bool}
    (h : serviceDashExists env apiKey serviceName history = .ok (found, history')) :
    ∃ answer, history' = history ++ [⟨search apiKey serviceName, answer⟩] ∧
      (found = false → NotFound env answer) := by
  obtain ⟨answer, between, hask, hrest⟩ := bind_eq_ok.1 h
  obtain ⟨-, rfl⟩ := ask_eq_ok.1 hask
  refine ⟨answer, ?_⟩
  cases answer with
  | none =>
    obtain ⟨rfl, rfl⟩ := pure_eq_ok.1 hrest
    exact ⟨rfl, nofun⟩
  | some text =>
    dsimp only at hrest
    cases hparse : env.parse text with
    | none =>
      rw [hparse] at hrest
      obtain ⟨rfl, rfl⟩ := pure_eq_ok.1 hrest
      exact ⟨rfl, fun _ => ⟨text, rfl, fun items hitems => by rw [hparse] at hitems; cases hitems⟩⟩
    | some o =>
      rw [hparse] at hrest
      obtain ⟨items, _, hlist, hpure⟩ := bind_eq_ok.1 hrest
      obtain ⟨helements, rfl⟩ := lift_eq_ok.1 hlist
      obtain ⟨rfl, rfl⟩ := pure_eq_ok.1 hpure
      obtain rfl := elements_eq_ok.1 helements
      refine ⟨rfl, fun hfound => ⟨text, rfl, fun items' hitems => ?_⟩⟩
      rw [hparse] at hitems
      obtain rfl := Json.arr.inj (Option.some.inj hitems)
      have hlength := of_decide_eq_false hfound
      exact List.eq_nil_of_length_eq_zero (by omega)

/-- A dashboard is created by the last request, or not at all. -/
theorem createDashboard_cases {values : Values} {dashboard : Created}
    (h : createDashboard env apiKey values history = .ok (dashboard, history')) :
    (dashboard.contents = none ∧ ∃ new, history' = history ++ new ∧ ∀ e ∈ new, Quiet e) ∨
      ∃ template response, env.file dashboardPath = some template ∧
        dashboard = .posted (resolved template values) true ∧
        history' = history ++
          [⟨.post (authToken apiKey) dashboardUrl (resolved template values), some response⟩] := by
  unfold createDashboard at h
  cases hfile : env.file dashboardPath with
  | none =>
    rw [hfile] at h
    obtain ⟨rfl, rfl⟩ := pure_eq_ok.1 h
    exact .inl ⟨rfl, [], (List.append_nil _).symm, List.forall_mem_nil _⟩
  | some template =>
    rw [hfile] at h
    obtain ⟨response, between, hask, hpure⟩ := bind_eq_ok.1 h
    obtain ⟨rfl, rfl⟩ := pure_eq_ok.1 hpure
    obtain ⟨-, rfl⟩ := ask_eq_ok.1 hask
    cases response with
    | none => exact .inl ⟨rfl, _, rfl, List.forall_mem_singleton.2 rfl⟩
    | some response => exact .inr ⟨template, response, rfl, rfl, rfl⟩

theorem visitKnown_cases (hname : serviceName = strdup service.1)
    (hagent : service.2.serviceAgent = some agent)
    (h : visitKnown env thresholds team apiKey serviceName service.2 agent history =
      .ok (reports, history')) :
    ((∀ r ∈ reports, r.dashboard.contents = none) ∧
        ∃ new, history' = history ++ new ∧ ∀ e ∈ new, Quiet e) ∨
      ∃ contents new, reports = [⟨apiKey, serviceName, .posted contents true⟩] ∧
        history' = history ++ new ∧
        Creates env thresholds team service apiKey serviceName contents new := by
  obtain ⟨checkId, start, hcheck, hrest⟩ := bind_eq_ok.1 h
  rw [(lift_eq_ok.1 hcheck).2] at hrest
  have hcheckId := Outcome.nonNull_eq_ok.1 (lift_eq_ok.1 hcheck).1
  obtain ⟨found, between, hexists, hrest⟩ := bind_eq_ok.1 hrest
  obtain ⟨answer, rfl, hnotFound⟩ := serviceDashExists_eq_ok hexists
  cases found with
  | true =>
    obtain ⟨rfl, rfl⟩ := pure_eq_ok.1 hrest
    exact .inl ⟨List.forall_mem_singleton.2 rfl, _, rfl, List.forall_mem_singleton.2 rfl⟩
  | false =>
    obtain ⟨entries, between, hgraphs, hrest⟩ := bind_eq_ok.1 hrest
    obtain ⟨graphed, rfl, hgraphed⟩ := graphed_createGraphs hgraphs
    obtain ⟨dashboard, _, hdashboard, hrest⟩ := bind_eq_ok.1 hrest
    obtain ⟨rfl, rfl⟩ := pure_eq_ok.1 hrest
    obtain ⟨hnone, new, rfl, hnew⟩ | ⟨template, response, hfile, rfl, rfl⟩ :=
      createDashboard_cases hdashboard
    · refine .inl ⟨List.forall_mem_singleton.2 hnone,
        ⟨search apiKey serviceName, answer⟩ :: (graphed ++ new), ?_, ?_⟩
      · rw [List.append_assoc, List.append_assoc]
        rfl
      · exact List.forall_mem_cons.2 ⟨rfl, List.forall_mem_append.2 ⟨hgraphed.quiet, hnew⟩⟩
    · refine .inr ⟨_, _, rfl, ?_,
        @Creates.post _ _ _ _ _ _ _ _ _ response _ _ _ hname hcheckId hagent hfile (hnotFound rfl)
          hgraphed⟩
      rw [List.append_assoc, List.append_assoc]
      rfl

/-- A visit to a service creates no dashboard, or makes the exchanges that create one. -/
theorem visitService_cases
    (h : visitService env thresholds team apiKey service history = .ok (reports, history')) :
    ((∀ r ∈ reports, r.dashboard.contents = none) ∧
        ∃ new, history' = history ++ new ∧ ∀ e ∈ new, Quiet e) ∨
      ∃ serviceName contents new, reports = [⟨apiKey, serviceName, .posted contents true⟩] ∧
        history' = history ++ new ∧
        Creates env thresholds team service apiKey serviceName contents new := by
  obtain ⟨serviceName, start, hname, hrest⟩ := bind_eq_ok.1 h
  rw [(lift_eq_ok.1 hname).2] at hrest
  have hserviceName := (Outcome.fitting_eq_ok.1 (lift_eq_ok.1 hname).1).2
  have hnothing : (pure [] : Talk (List Report)) history = .ok (reports, history') →
      (∀ r ∈ reports, r.dashboard.contents = none) ∧
        ∃ new, history' = history ++ new ∧ ∀ e ∈ new, Quiet e := by
    intro hpure
    obtain ⟨rfl, rfl⟩ := pure_eq_ok.1 hpure
    exact ⟨List.forall_mem_nil _, [], (List.append_nil _).symm, List.forall_mem_nil _⟩
  cases hagent : service.2.serviceAgent with
  | none =>
    rw [hagent] at hrest
    exact .inl (hnothing hrest)
  | some agent =>
    rw [hagent] at hrest
    dsimp only at hrest
    split_ifs at hrest with htype
    · exact .inl (hnothing hrest)
    · exact (visitKnown_cases hserviceName.symm hagent hrest).imp_right
        fun hcreates => ⟨serviceName, hcreates⟩

/-- The only dashboard that the exchanges create is the last. -/
theorem Creates.filterMap_createdBy
    (h : Creates env thresholds team service apiKey serviceName contents new) :
    new.filterMap createdBy = [contents] := by
  obtain ⟨-, -, -, -, -, hgraphed⟩ := h
  have hgraphs := List.filterMap_eq_nil_iff.2 hgraphed.quiet
  rw [List.filterMap_cons_none rfl, List.filterMap_append, hgraphs, List.nil_append,
    List.filterMap_cons_some (createdBy_post _ _ _)]
  rfl

end Visits

/-! ### Runs -/

/-- In the exchanges of a run that reports `reports`, the server finds what it has created, unless a
search fails: a search for the service of one of the dashboards that were created before it is not
answered with nothing.  The dashboards are created in the order of the reports. -/
def Remembers (env : Env) (reports : List Report) (new : List (Exchange Request Bytes)) : Prop :=
  ∀ before apiKey serviceName answer after,
    new = before ++ ⟨search apiKey serviceName, answer⟩ :: after →
    (apiKey, serviceName) ∈
      (reports.filterMap Report.key).take (before.filterMap createdBy).length →
    ¬ NotFound env answer

/-- What holds after the visits of a run that began with `start`: the dashboards that the server has
created are those of the reports, and none was created twice if the server remembers them. -/
def Kept (env : Env) (start : List (Exchange Request Bytes)) (reports : List Report)
    (history : List (Exchange Request Bytes)) : Prop :=
  ∃ new, history = start ++ new ∧
    new.filterMap createdBy = reports.filterMap (fun r => r.dashboard.contents) ∧
    (Remembers env reports new → (reports.filterMap Report.key).Nodup)

section Runs

variable {env : Env} {apiKey serviceName contents : Bytes} {reports reports' : List Report}
  {start history history' new new' : List (Exchange Request Bytes)} {thresholds : Thresholds}
  {team : Team} {service : Bytes × ServiceInfo}

theorem length_keys (reports : List Report) : (reports.filterMap Report.key).length =
    (reports.filterMap fun r => r.dashboard.contents).length := by
  induction reports with
  | nil => rfl
  | cons r reports ih =>
    cases hcontents : r.dashboard.contents with
    | none => simpa [List.filterMap_cons, Report.key, hcontents] using ih
    | some contents => simpa [List.filterMap_cons, Report.key, hcontents] using ih

/-- What is found in a longer run is found in its beginning. -/
theorem Remembers.of_append (h : Remembers env (reports ++ reports') (new ++ new'))
    (hnew : new.filterMap createdBy = reports.filterMap fun r => r.dashboard.contents) :
    Remembers env reports new := by
  intro before apiKey serviceName answer after hsplit hmem
  refine h before apiKey serviceName answer (after ++ new') ?_ ?_
  · rw [hsplit, List.append_assoc]
    rfl
  · have hle : (before.filterMap createdBy).length ≤ (reports.filterMap Report.key).length := by
      rw [length_keys, ← hnew, hsplit, List.filterMap_append, List.length_append]
      exact Nat.le_add_right _ _
    rwa [List.filterMap_append, List.take_append_of_le_length hle]

/-- Before the first visit. -/
theorem kept_nothing : Kept env start [] start :=
  ⟨[], (List.append_nil _).symm, rfl, fun _ => List.nodup_nil⟩

theorem Kept.quiet (h : Kept env start reports history)
    (hreports : ∀ r ∈ reports', r.dashboard.contents = none) (hnew : ∀ e ∈ new', Quiet e) :
    Kept env start (reports ++ reports') (history ++ new') := by
  obtain ⟨new, rfl, hposts, honce⟩ := h
  refine ⟨new ++ new', List.append_assoc _ _ _, ?_, fun hmem => ?_⟩
  · rw [List.filterMap_append, List.filterMap_append, hposts, List.filterMap_eq_nil_iff.2 hnew,
      List.filterMap_eq_nil_iff.2 hreports]
  · have hkeys : reports'.filterMap Report.key = [] := by
      refine List.filterMap_eq_nil_iff.2 fun r hr => ?_
      rw [Report.key, hreports r hr]
      rfl
    rw [List.filterMap_append, hkeys, List.append_nil]
    exact honce (hmem.of_append hposts)

/-- The search of a visit that creates a dashboard has found none, so that the server has not created
one for the service before. -/
theorem Kept.creates (h : Kept env start reports history)
    (hcreates : Creates env thresholds team service apiKey serviceName contents new') :
    Kept env start (reports ++ [⟨apiKey, serviceName, .posted contents true⟩])
      (history ++ new') := by
  obtain ⟨new, rfl, hposts, honce⟩ := h
  have hcreated := hcreates.filterMap_createdBy
  refine ⟨new ++ new', List.append_assoc _ _ _, ?_, fun hmem => ?_⟩
  · rw [List.filterMap_append, List.filterMap_append, hposts, hcreated]
    rfl
  · have hkeys : (reports.filterMap Report.key).length = (new.filterMap createdBy).length := by
      rw [length_keys, hposts]
    have hdisjoint : (apiKey, serviceName) ∉ reports.filterMap Report.key := by
      intro hkey
      obtain ⟨-, -, -, -, hnotFound, -⟩ := hcreates
      refine hmem new apiKey serviceName _ _ rfl ?_ hnotFound
      rwa [List.filterMap_append, ← hkeys, List.take_left]
    rw [List.filterMap_append]
    exact List.Nodup.append (honce (hmem.of_append hposts))
      (List.nodup_singleton (apiKey, serviceName)) (List.disjoint_singleton.2 hdisjoint)

theorem preserves_visitService (thresholds : Thresholds) (team : Team) (apiKey : Bytes)
    (service : Bytes × ServiceInfo) :
    Preserves (Kept env start) (visitService env thresholds team apiKey service) := by
  intro reports history results history' hkept h
  obtain ⟨hnone, new, rfl, hnew⟩ | ⟨serviceName, contents, new, rfl, rfl, hcreates⟩ :=
    visitService_cases h
  · exact hkept.quiet hnone hnew
  · exact hkept.creates hcreates

theorem preserves_visitTeam (thresholds : Thresholds) (team : Team) :
    Preserves (Kept env start) (visitTeam env thresholds team) := by
  unfold visitTeam
  cases team.circonusApiKey with
  | none => exact preserves_nothing
  | some apiKey =>
    dsimp only
    split_ifs with hempty
    · exact preserves_nothing
    · exact preserves_collect fun service _ =>
        preserves_visitService thresholds team apiKey service

/-- **One dashboard for a service.**  Whatever the templates say and the server answers, in any
number of passes over teams and services that may change in between, the dashboards that the server
has created are those that the visits report; and if in these exchanges it finds what it has created,
unless a search fails, then no service of an account gets a second dashboard. -/
theorem dashboards_created_once {passes : List (Thresholds × List Team)}
    (h : createAll env passes start = .ok (reports, history)) :
    ∃ new, history = start ++ new ∧
      new.filterMap createdBy = reports.filterMap (fun r => r.dashboard.contents) ∧
      (Remembers env reports new → (reports.filterMap Report.key).Nodup) := by
  have hpass : ∀ pass ∈ passes, Preserves (Kept env start) (tmCreateVisuals env pass.1 pass.2) :=
    fun pass _ => preserves_collect fun team _ => preserves_visitTeam pass.1 team
  have hkept : Kept env start ([] ++ reports) history :=
    preserves_collect hpass _ _ _ _ kept_nothing h
  exact hkept

/-- A server for one service, and a template with a title. -/
def titleOnly : Env where
  lib := reference
  parse text :=
    if text = cstr "[]" then some (.arr [])
    else if text = cstr "[1]" then some (.arr [.int 1])
    else none
  file path :=
    if path = dashboardPath then some (cstr "\x7b\x7bservice_name\x7d\x7d - Performance")
    else none
  curlEasyEscape := id
  server history
    | .get _ _ => some (if history.filterMap createdBy = [] then cstr "[]" else cstr "[1]")
    | .post _ _ _ => some (cstr "null")

/-- A team with a service that has no dashboard. -/
def webTeam : Team :=
  ⟨cstr "web", some (cstr "key"), some (cstr "7"),
    [(cstr "web-app", ⟨some (cstr "java"), .transactional⟩)]⟩

/-- The second search finds the dashboard. -/
theorem dashboards_created_once_twoPasses : ∃ reports history,
    createAll titleOnly [(⟨∅, 500000⟩, [webTeam]), (⟨∅, 500000⟩, [webTeam])] [] =
      .ok (reports, history) ∧
    (reports.filterMap Report.key).Nodup ∧
    reports.map (fun r => r.dashboard.contents) = [some (cstr "web-app - Performance"), none] := by
  have hrun : ∃ reports history,
      createAll titleOnly [(⟨∅, 500000⟩, [webTeam]), (⟨∅, 500000⟩, [webTeam])] [] =
        .ok (reports, history) ∧
      reports.map (fun r => r.dashboard.contents) =
        [some (cstr "web-app - Performance"), none] ∧
      history.map (fun e => e.response) =
        [some (cstr "[]"), some (cstr "null"), some (cstr "[1]")] ∧
      history.map createdBy = [none, some (cstr "web-app - Performance"), none] :=
    ⟨_, _, rfl, rfl, rfl, rfl⟩
  obtain ⟨reports, history, hrun, hcontents, hresponses, hcreated⟩ := hrun
  obtain ⟨new, rfl, -, honce⟩ := dashboards_created_once hrun
  refine ⟨reports, _, hrun, honce ?_, hcontents⟩
  rintro before apiKey serviceName answer after rfl hmem ⟨found, rfl, hempty⟩
  rw [List.map_append] at hresponses hcreated
  match before with
  | [] => simp at hmem
  | [_] =>
    obtain ⟨-, h⟩ := List.cons.inj hcreated
    cases (List.cons.inj h).1
  | [_, _] =>
    obtain ⟨-, h⟩ := List.cons.inj hresponses
    obtain ⟨-, h⟩ := List.cons.inj h
    obtain rfl := Option.some.inj (List.cons.inj h).1
    cases hempty _ rfl
  | _ :: _ :: _ :: _ =>
    have := congrArg List.length hresponses
    simp at this

/-- Each dashboard that was created was created by a visit to a service of one of the passes, after
the exchanges about its graphs. -/
def AllShown (env : Env) (passes : List (Thresholds × List Team)) (reports : List Report)
    (history : List (Exchange Request Bytes)) : Prop :=
  ∀ r ∈ reports, ∀ contents, r.dashboard.contents = some contents →
    ∃ pass ∈ passes, ∃ team ∈ pass.2, team.circonusApiKey = some r.apiKey ∧
      ∃ service ∈ team.serviceData, ∃ new, new <:+: history ∧
        Creates env pass.1 team service r.apiKey r.serviceName contents new

theorem preserves_allShown {passes : List (Thresholds × List Team)}
    {pass : Thresholds × List Team} (hpass : pass ∈ passes) (hteam : team ∈ pass.2)
    (hservice : service ∈ team.serviceData) (hkey : team.circonusApiKey = some apiKey) :
    Preserves (AllShown env passes) (visitService env pass.1 team apiKey service) := by
  intro reports history results history' hshown h r hr contents hcontents
  have hold : ∀ new, history' = history ++ new → r ∈ reports →
      ∃ pass ∈ passes, ∃ team ∈ pass.2, team.circonusApiKey = some r.apiKey ∧
        ∃ service ∈ team.serviceData, ∃ own, own <:+: history' ∧
          Creates env pass.1 team service r.apiKey r.serviceName contents own := by
    rintro new rfl hr
    obtain ⟨pass', hpass', team', hteam', hkey', service', hservice', own, hown, hcreates⟩ :=
      hshown r hr contents hcontents
    exact ⟨pass', hpass', team', hteam', hkey', service', hservice', own,
      hown.trans (List.prefix_append _ _).isInfix, hcreates⟩
  obtain ⟨hnone, new, hnew, -⟩ | ⟨serviceName, text, new, rfl, hnew, hcreates⟩ :=
    visitService_cases h
  · rcases List.mem_append.1 hr with hr | hr
    · exact hold new hnew hr
    · rw [hnone r hr] at hcontents
      cases hcontents
  · rcases List.mem_append.1 hr with hr | hr
    · exact hold new hnew hr
    · obtain rfl := List.mem_singleton.1 hr
      obtain rfl := Option.some.inj hcontents
      exact ⟨pass, hpass, team, hteam, hkey, service, hservice, new,
        hnew ▸ (List.suffix_append _ _).isInfix, hcreates⟩

/-- **The graphs of a dashboard.**  In any number of passes, each dashboard that is created is the
template of dashboards with the values of its service and with the identifiers of its graphs.  They
come from the exchanges between the search for the dashboard and its post: each is that of a graph
with the title of its template that the answer to the search for this title has listed, or, if it has
listed none, that in the answer to the post of the template; or it stands for a template that cannot
be used. -/
theorem dashboards_show_graphs {passes : List (Thresholds × List Team)}
    (h : createAll env passes start = .ok (reports, history)) :
    AllShown env passes reports history := by
  have hteam : ∀ pass ∈ passes, ∀ team ∈ pass.2,
      Preserves (AllShown env passes) (visitTeam env pass.1 team) := by
    intro pass hpass team hteam
    unfold visitTeam
    cases hkey : team.circonusApiKey with
    | none => exact preserves_nothing
    | some apiKey =>
      dsimp only
      split_ifs with hempty
      · exact preserves_nothing
      · exact preserves_collect fun service hservice =>
          preserves_allShown hpass hteam hservice hkey
  have hpass : ∀ pass ∈ passes,
      Preserves (AllShown env passes) (tmCreateVisuals env pass.1 pass.2) :=
    fun pass hpass => preserves_collect (hteam pass hpass)
  exact preserves_collect hpass [] start reports history (List.forall_mem_nil _) h

end Runs

/-- A server that creates all graphs with one answer, and one of the templates of graphs. -/
def cpuOnly : Env where
  lib := reference
  parse text :=
    if text = cstr "[]" then some (.arr [])
    else if text = cstr "cpu" then some (.obj [(cstr "title", .str (cstr "CPU"))])
    else if text = cstr "created" then some (.obj [(cstr "_cid", .str (cstr "/graph/42"))])
    else none
  file path :=
    if path = dashboardPath then some (cstr "\x7b\x7bcpu_graph_uuid\x7d\x7d")
    else if path = visual "cpu_graph.json" then some (cstr "cpu")
    else none
  curlEasyEscape := id
  server _
    | .get _ _ => some (cstr "[]")
    | .post _ _ _ => some (cstr "created")

theorem dashboards_show_graphs_cpu : ∃ reports history,
    createAll cpuOnly [(⟨∅, 500000⟩, [webTeam])] [] = .ok (reports, history) ∧
    reports.map (fun r => r.dashboard.contents) = [some (cstr "42")] ∧
    AllShown cpuOnly [(⟨∅, 500000⟩, [webTeam])] reports history := by
  have hrun : ∃ reports history,
      createAll cpuOnly [(⟨∅, 500000⟩, [webTeam])] [] = .ok (reports, history) ∧
      reports.map (fun r => r.dashboard.contents) = [some (cstr "42")] :=
    ⟨_, _, rfl, rfl⟩
  obtain ⟨reports, history, hrun, hcontents⟩ := hrun
  exact ⟨reports, history, hrun, hcontents, dashboards_show_graphs hrun⟩

end Tracemate.Visuals
