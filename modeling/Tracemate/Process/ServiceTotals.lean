import Tracemate.Process.Transaction
import Tracemate.Process.Windows

/-!
# The totals of a service

The counter `transaction - request_count - all|ST[…]` of a service, and the documents that it
should count.

* `ServiceTags`: the tags of these series;
* `formatted_eq_iff`, `metricName_eq_iff`: when the name of another counter is that of the series;
* `addedTo`, `added`: what effects add to a counter, with a lemma for each group of updates;
* `carries`: the document passed validation, has the tags and ends in the window;
* `countedTwice`: the name or the path of the document is `all`, and its own counter has no tag
  that the series lacks;
* `added_document`, `totals_iff`: what one document and a run of documents add to the series.
-/

namespace Tracemate.Process

open CStr JsonC COutcome Outcome Tracemate.Metric

/-! ### The series -/

/-- A lower-case letter. -/
def Lower (c : UInt8) : Prop := 97 ≤ c ∧ c ≤ 122

instance : DecidablePred Lower := fun c => inferInstanceAs (Decidable (97 ≤ c ∧ c ≤ 122))

/-- The tags of the service-level series: those of the service, and for requests the method. -/
inductive ServiceTags (serviceName : Bytes) : Bytes → Prop
  | named : ServiceTags serviceName (aggTagStringOf serviceName)
  | request {method : Bytes} : method.length < 16 → (∀ c ∈ method, ¬ Lower c) →
      ServiceTags serviceName (Transaction.methodTags (aggTagStringOf serviceName) method)

/-- The name of a counter of requests. -/
def requestCount (text tags : Bytes) : MetricName :=
  ⟨cstr "transaction - " ++ cstr "request_count" ++ cstr " - ", text, tags⟩

/-- The key of the service-level series. -/
def serviceKey (tags : Bytes) (timestamp : ℕ) : MetricKey :=
  NamedUpdate.key ⟨requestCount (cstr "all") tags, true, .counter 1, timestamp⟩

/-- A name that is not cut off is the name of another metric only if that one is not cut off. -/
theorem metricName_eq_iff {n n' : MetricName} (h : n'.formatted.length < 4094) :
    n.metricName = n'.metricName ↔ n.formatted = n'.formatted := by
  have hn' : n'.metricName = n'.formatted := List.take_of_length_le (by omega)
  rw [hn']
  constructor
  · intro heq
    have hlen := congrArg List.length heq
    have htake : n.metricName.length = min 4094 n.formatted.length := List.length_take
    rw [← heq]
    exact (List.take_of_length_le (by omega)).symm
  · intro heq
    rw [MetricName.metricName, snprintf, heq]
    exact List.take_of_length_le (by omega)

theorem length_requestCount_lt {serviceName tags : Bytes} (h : ServiceTags serviceName tags)
    (hagg : (aggTagStringOf serviceName).length < 2048) :
    (requestCount (cstr "all") tags).formatted.length < 4094 := by
  have hlen : tags.length < 2072 := by
    cases h with
    | named => omega
    | request hmethod _ =>
      simp only [Transaction.methodTags, List.length_append]
      have : (cstr ",method:").length = 8 := rfl
      omega
  have hstem : (requestCount (cstr "all") tags).formatted.length = 38 + tags.length := by
    simp only [MetricName.formatted, requestCount, List.length_append]
    have h1 : (cstr "transaction - ").length = 14 := rfl
    have h2 : (cstr "request_count").length = 13 := rfl
    have h3 : (cstr " - ").length = 3 := rfl
    have h4 : (cstr "all").length = 3 := rfl
    have h5 : (cstr "|ST[").length = 4 := rfl
    have h6 : (cstr "]").length = 1 := rfl
    omega
  omega

/-- The last byte of a kind splits a string in one way. -/
theorem append_cons_inj {p : UInt8 → Prop} {x x' s s' : Bytes} {c c' : UInt8} (hc : p c)
    (hc' : p c') (hs : ∀ b ∈ s, ¬ p b) (hs' : ∀ b ∈ s', ¬ p b)
    (h : x ++ c :: s = x' ++ c' :: s') : x = x' ∧ c = c' ∧ s = s' := by
  rcases List.append_eq_append_iff.1 h with ⟨y, rfl, hy⟩ | ⟨y, rfl, hy⟩
  · cases y with
    | nil =>
      obtain ⟨rfl, rfl⟩ := List.cons.inj hy
      exact ⟨(List.append_nil x).symm, rfl, rfl⟩
    | cons d y =>
      obtain ⟨rfl, rfl⟩ := List.cons.inj hy
      exact absurd hc' (hs c' (by simp))
  · cases y with
    | nil =>
      obtain ⟨rfl, rfl⟩ := List.cons.inj hy
      exact ⟨List.append_nil x', rfl, rfl⟩
    | cons d y =>
      obtain ⟨rfl, rfl⟩ := List.cons.inj hy
      exact absurd hc (hs' c (by simp))

/-- The tags of the service end in `l`. -/
theorem aggTagStringOf_eq (serviceName : Bytes) :
    aggTagStringOf serviceName = cstr "service:" ++ serviceName ++ cstr ",host:all,ip:al" ++ [108] := by
  simp [aggTagStringOf, cstr]

/-- The last lower-case letter of the tags of a request is that of `method`. -/
theorem methodTags_eq (tags method : Bytes) :
    Transaction.methodTags tags method = tags ++ cstr ",metho" ++ 100 :: 58 :: method := by
  simp [Transaction.methodTags, cstr]

theorem not_lower_cons_method {method : Bytes} (h : ∀ c ∈ method, ¬ Lower c) :
    ∀ c ∈ (58 : UInt8) :: method, ¬ Lower c := by
  intro c hc
  rcases List.mem_cons.1 hc with rfl | hc
  · decide
  · exact h c hc

/-- Different tags of the service never end two names that are equal. -/
theorem ServiceTags.inj {serviceName tags tags' x x' : Bytes} (h : ServiceTags serviceName tags)
    (h' : ServiceTags serviceName tags') (heq : x ++ tags = x' ++ tags') :
    tags = tags' ∧ x = x' := by
  have hnil : ∀ c ∈ ([] : Bytes), ¬ Lower c := by simp
  have key : tags = tags' := by
    cases h with
    | named =>
      cases h' with
      | named => rfl
      | request hlen hmethod =>
        rw [aggTagStringOf_eq, methodTags_eq, ← List.append_assoc, ← List.append_assoc x'] at heq
        obtain ⟨-, hc, -⟩ := append_cons_inj (p := Lower) (by decide) (by decide) hnil
          (not_lower_cons_method hmethod) heq
        exact absurd hc (by decide)
    | request hlen hmethod =>
      cases h' with
      | named =>
        rw [aggTagStringOf_eq, methodTags_eq, ← List.append_assoc, ← List.append_assoc x'] at heq
        obtain ⟨-, hc, -⟩ := append_cons_inj (p := Lower) (by decide) (by decide)
          (not_lower_cons_method hmethod) hnil heq
        exact absurd hc (by decide)
      | request hlen' hmethod' =>
        rw [methodTags_eq, methodTags_eq, ← List.append_assoc, ← List.append_assoc x'] at heq
        obtain ⟨-, -, hmethods⟩ := append_cons_inj (p := Lower) (by decide) (by decide)
          (not_lower_cons_method hmethod) (not_lower_cons_method hmethod') heq
        rw [List.cons.inj hmethods |>.2]
  subst key
  exact ⟨rfl, List.append_cancel_right heq⟩

/-- Nor do tags that end in `e`. -/
theorem ServiceTags.append_ne {serviceName tags x x' s : Bytes} (h : ServiceTags serviceName tags) :
    x ++ tags ≠ x' ++ (s ++ [101]) := by
  intro heq
  have hnil : ∀ c ∈ ([] : Bytes), ¬ Lower c := by simp
  rw [← List.append_assoc] at heq
  cases h with
  | named =>
    rw [aggTagStringOf_eq, ← List.append_assoc] at heq
    obtain ⟨-, hc, -⟩ := append_cons_inj (p := Lower) (by decide) (by decide) hnil hnil heq
    exact absurd hc (by decide)
  | request hlen hmethod =>
    rw [methodTags_eq, ← List.append_assoc] at heq
    obtain ⟨-, hc, -⟩ := append_cons_inj (p := Lower) (by decide) (by decide)
      (not_lower_cons_method hmethod) hnil heq
    exact absurd hc (by decide)

theorem ServiceTags.ending_ne {serviceName tags : Bytes} (h : ServiceTags serviceName tags)
    (s : Bytes) : s ++ [101] ≠ tags := by
  intro heq
  have hne : [] ++ tags ≠ [] ++ (s ++ [101]) := h.append_ne
  exact hne heq.symm

/-- The tags of the counters of a document: those of a service-level series, or tags that end in
`e`, with a user agent or without rollups. -/
inductive CounterTags (serviceName : Bytes) : Bytes → Prop
  | service {tags : Bytes} : ServiceTags serviceName tags → CounterTags serviceName tags
  | ending (s : Bytes) : CounterTags serviceName (s ++ [101])

variable {serviceName tags tags' text : Bytes} {timestamp : ℕ}

theorem formatted_eq_iff (h : ServiceTags serviceName tags) (h' : CounterTags serviceName tags') :
    (requestCount text tags').formatted = (requestCount (cstr "all") tags).formatted ↔
      text = cstr "all" ∧ tags' = tags := by
  constructor
  · intro heq
    have hbracket := List.append_cancel_right heq
    unfold requestCount at hbracket
    dsimp only at hbracket
    rw [List.append_assoc, List.append_assoc, List.append_assoc _ (cstr "all"),
      List.append_assoc _ (cstr "all" ++ _)] at hbracket
    have hcut := List.append_cancel_left hbracket
    rw [← List.append_assoc text] at hcut
    cases h' with
    | service h' =>
      obtain ⟨rfl, htext⟩ := h'.inj h hcut
      exact ⟨List.append_cancel_right htext, rfl⟩
    | ending s => exact absurd hcut.symm h.append_ne
  · rintro ⟨rfl, rfl⟩
    rfl

/-- Errors are counted under other names. -/
theorem formatted_errorCount_ne {what : Bytes}
    (hwhat : what ∈ [cstr "client_error_count", cstr "server_error_count", cstr "error_count"]) :
    MetricName.formatted ⟨cstr "transaction - " ++ what ++ cstr " - ", text, tags'⟩ ≠
      (requestCount (cstr "all") tags).formatted := by
  intro heq
  have hbyte := congrArg (fun s : Bytes => s[14]?) heq
  simp only [MetricName.formatted, requestCount, List.append_assoc] at hbyte
  simp only [List.mem_cons, List.not_mem_nil, or_false] at hwhat
  rcases hwhat with rfl | rfl | rfl
  · simp [cstr] at hbyte
  · simp [cstr] at hbyte
  · simp [cstr] at hbyte

/-! ### What an effect adds -/

/-- What an effect adds to the counter with the key. -/
def addedTo (key : MetricKey) : Effect → ℕ
  | .update ⟨name, aggregate, .counter count, timestamp⟩ =>
    if NamedUpdate.key ⟨name, aggregate, .counter count, timestamp⟩ = key then count.toNat else 0
  | _ => 0

/-- What a list of effects adds. -/
def added (key : MetricKey) (effects : List Effect) : ℕ := (effects.map (addedTo key)).sum

variable {key : MetricKey}

@[simp] theorem added_append (effects effects' : List Effect) :
    added key (effects ++ effects') = added key effects + added key effects' := by
  simp [added]

@[simp] theorem added_nil : added key [] = 0 := rfl

@[simp] theorem added_cons (e : Effect) (effects : List Effect) :
    added key (e :: effects) = addedTo key e + added key effects := by
  simp [added]

@[simp] theorem addedTo_latency (t : Transaction) (aggTimestamp : ℕ) :
    addedTo key (t.latency aggTimestamp text tags) = 0 := rfl

/-- A counter adds to the series under the text `all` and its tags. -/
theorem addedTo_requestCount (h : ServiceTags serviceName tags)
    (hagg : (aggTagStringOf serviceName).length < 2048) (h' : CounterTags serviceName tags')
    (aggTimestamp : ℕ) :
    addedTo (serviceKey tags timestamp)
        (Transaction.count aggTimestamp (cstr "request_count") text tags') =
      if (text = cstr "all" ∧ tags' = tags) ∧ aggTimestamp = timestamp then 1 else 0 := by
  show (if NamedUpdate.key ⟨requestCount text tags', true, .counter 1, aggTimestamp⟩ =
    serviceKey tags timestamp then 1 else 0) = _
  have hkey : NamedUpdate.key ⟨requestCount text tags', true, .counter 1, aggTimestamp⟩ =
      serviceKey tags timestamp ↔
        (text = cstr "all" ∧ tags' = tags) ∧ aggTimestamp = timestamp := by
    rw [← formatted_eq_iff h h', ← metricName_eq_iff (length_requestCount_lt h hagg)]
    simp [serviceKey, NamedUpdate.key, makeMetricKey, and_comm]
  exact if_congr hkey rfl rfl

theorem addedTo_errorCount (h : ServiceTags serviceName tags)
    (hagg : (aggTagStringOf serviceName).length < 2048) {what : Bytes}
    (hwhat : what ∈ [cstr "client_error_count", cstr "server_error_count", cstr "error_count"])
    (aggTimestamp : ℕ) :
    addedTo (serviceKey tags timestamp) (Transaction.count aggTimestamp what text tags') = 0 := by
  refine if_neg fun hkey => ?_
  have hname := congrArg MetricKey.metricName hkey
  exact formatted_errorCount_ne hwhat
    ((metricName_eq_iff (length_requestCount_lt h hagg)).1 hname)

/-! ### Updates of a document -/

section Updates

variable {t : Transaction} {aggTimestamp : ℕ} (h : ServiceTags serviceName tags)
  (hagg : (aggTagStringOf serviceName).length < 2048)
  (hservice : t.aggTagString = aggTagStringOf serviceName)
include h hagg hservice

theorem added_nameUpdates (name : Bytes) :
    added (serviceKey tags timestamp) (t.nameUpdates aggTimestamp name) =
      (if aggTagStringOf serviceName = tags ∧ aggTimestamp = timestamp then 1 else 0) +
        if name = cstr "all" ∧ aggTagStringOf serviceName = tags ∧ aggTimestamp = timestamp then 1
        else 0 := by
  have hcount : ∀ text : Bytes, addedTo (serviceKey tags timestamp) (Transaction.count aggTimestamp
      (cstr "request_count") text (aggTagStringOf serviceName)) =
      if (text = cstr "all" ∧ aggTagStringOf serviceName = tags) ∧ aggTimestamp = timestamp then 1
      else 0 := fun text => addedTo_requestCount h hagg (.service .named) aggTimestamp
  have hhost : added (serviceKey tags timestamp)
      (if t.td.collectHostLevelMetrics then [t.latency aggTimestamp name t.tagString] else []) =
        0 := by
    split_ifs <;> simp
  unfold Transaction.nameUpdates
  rw [added_append, hhost]
  simp only [added_cons, addedTo_latency, added_nil, hservice, hcount, true_and, and_assoc]
  omega

omit hservice in
theorem added_errorUpdates {what : Bytes}
    (hwhat : what ∈ [cstr "client_error_count", cstr "server_error_count"])
    (cleanPath method : Bytes) (userAgent : Option Bytes) :
    added (serviceKey tags timestamp)
      (t.errorUpdates aggTimestamp what cleanPath method userAgent) = 0 := by
  have herror : ∀ text tags' : Bytes, addedTo (serviceKey tags timestamp)
      (Transaction.count aggTimestamp (cstr "error_count") text tags') = 0 := fun _ _ =>
    addedTo_errorCount h hagg (by simp) aggTimestamp
  have hkind : ∀ text tags' : Bytes, addedTo (serviceKey tags timestamp)
      (Transaction.count aggTimestamp what text tags') = 0 := fun _ _ =>
    addedTo_errorCount h hagg (List.mem_append_left [cstr "error_count"] hwhat) aggTimestamp
  unfold Transaction.errorUpdates
  cases userAgent with
  | none => simp [herror, hkind]
  | some userAgent => simp [herror, hkind]

omit hservice in
/-- The counter of a user agent has tags that end in `e`. -/
theorem addedTo_userAgentCount (method userAgent : Bytes) :
    addedTo (serviceKey tags timestamp) (Transaction.count aggTimestamp (cstr "request_count")
      (cstr "all") (Transaction.userAgentTags (aggTagStringOf serviceName) method userAgent)) =
        0 := by
  have htags : Transaction.userAgentTags (aggTagStringOf serviceName) method userAgent =
      (Transaction.methodTags (aggTagStringOf serviceName) method ++ cstr ",user_agent:b\"" ++
        userAgent ++ cstr "\",__rollup:fals") ++ [101] := by
    simp [Transaction.userAgentTags, cstr]
  rw [htags, addedTo_requestCount h hagg (.ending _), if_neg]
  rintro ⟨⟨-, heq⟩, -⟩
  exact h.ending_ne _ heq

omit hservice in
/-- The counter of a path has the tags of the series only without the tag `__rollup`. -/
theorem addedTo_pathCount {method : Bytes} (hown : ServiceTags serviceName
    (Transaction.methodTags (aggTagStringOf serviceName) method)) (cleanPath : Bytes) :
    addedTo (serviceKey tags timestamp) (Transaction.count aggTimestamp (cstr "request_count")
      cleanPath (Transaction.methodTags (aggTagStringOf serviceName) method ++ rollupTag t.td)) =
      if (cleanPath = cstr "all" ∧ t.td.rollupHighCardinality = true) ∧
          Transaction.methodTags (aggTagStringOf serviceName) method = tags ∧
            aggTimestamp = timestamp then 1 else 0 := by
  unfold rollupTag
  cases hroll : t.td.rollupHighCardinality with
  | true =>
    rw [if_pos rfl, List.append_nil, addedTo_requestCount h hagg (.service hown)]
    simp only [and_true, and_assoc]
  | false =>
    have htag : cstr ",__rollup:false" = cstr ",__rollup:fals" ++ [101] := rfl
    rw [if_neg (by decide), htag, ← List.append_assoc, addedTo_requestCount h hagg (.ending _),
      if_neg, if_neg (by simp)]
    rintro ⟨⟨-, heq⟩, -⟩
    exact h.ending_ne _ heq

theorem added_requestUpdates {method : Bytes} (hlen : method.length < 16)
    (hmethod : ∀ c ∈ method, ¬ Lower c) (cleanPath : Bytes) (userAgent : Option Bytes)
    (statCode : ℤ) :
    added (serviceKey tags timestamp)
        (t.requestUpdates aggTimestamp cleanPath method userAgent statCode) =
      (if Transaction.methodTags (aggTagStringOf serviceName) method = tags ∧
          aggTimestamp = timestamp then 1 else 0) +
        if (cleanPath = cstr "all" ∧ t.td.rollupHighCardinality = true) ∧
          Transaction.methodTags (aggTagStringOf serviceName) method = tags ∧
            aggTimestamp = timestamp then 1 else 0 := by
  have hown : ServiceTags serviceName
      (Transaction.methodTags (aggTagStringOf serviceName) method) := .request hlen hmethod
  have herrors : ∀ what ∈ [cstr "client_error_count", cstr "server_error_count"],
      ∀ p : Prop, ∀ _ : Decidable p, added (serviceKey tags timestamp)
        (if p then t.errorUpdates aggTimestamp what cleanPath method userAgent else []) = 0 := by
    intro what hwhat p _
    split_ifs
    · exact added_errorUpdates h hagg hwhat cleanPath method userAgent
    · rfl
  have hhost : added (serviceKey tags timestamp) (if t.td.collectHostLevelMetrics then
      t.hostUpdates aggTimestamp cleanPath method statCode else []) = 0 := by
    split_ifs <;> rfl
  have hall : addedTo (serviceKey tags timestamp) (Transaction.count aggTimestamp
      (cstr "request_count") (cstr "all")
        (Transaction.methodTags (aggTagStringOf serviceName) method)) =
      if Transaction.methodTags (aggTagStringOf serviceName) method = tags ∧
        aggTimestamp = timestamp then 1 else 0 := by
    rw [addedTo_requestCount h hagg (.service hown)]
    simp only [true_and]
  unfold Transaction.requestUpdates
  cases userAgent with
  | none =>
    simp only [added_append, added_cons, added_nil, addedTo_latency, hhost, hservice,
      herrors _ List.mem_cons_self,
      herrors _ (List.mem_cons_of_mem _ (List.mem_singleton_self _)), hall,
      addedTo_pathCount h hagg hown]
    omega
  | some userAgent =>
    simp only [added_append, added_cons, added_nil, addedTo_latency, hhost, hservice,
      addedTo_userAgentCount h hagg, herrors _ List.mem_cons_self,
      herrors _ (List.mem_cons_of_mem _ (List.mem_singleton_self _)), hall,
      addedTo_pathCount h hagg hown]
    omega

end Updates

/-! ### Documents -/

/-- What ends the processing of a document without its metrics. -/
def Effect.rejects : Effect → Bool
  | .messagesErrored | .messagesFiltered => true
  | _ => false

section Document

variable (env : Env) (m : Option Json) (serviceName : Bytes)

/-- The type of a transaction. -/
def transactionType : Option Bytes :=
  env.lib.getString (Json.get (cstr "type") (Json.get (cstr "transaction") m))

/-- The types whose metrics are named by `transaction.name`. -/
def namedTypes : List Bytes := [cstr "message_read", cstr "messaging", cstr "scheduled"]

/-- The object `request` of a document. -/
def requestObject : Option Json := Json.get (cstr "request") (requestContext env m)

/-- When a transaction ended. -/
def endTime : ℕ :=
  (env.parseTimestamp ((env.lib.getString (Json.get (cstr "@timestamp") m)).getD []) +
    env.lib.getUint64 (Json.get (cstr "us") (Json.get (cstr "duration")
      (Json.get (cstr "transaction") m))) / 1000) % 2 ^ 64

/-- The tags of the service-level series of a document. -/
def serviceTags : Option Bytes :=
  match transactionType env m with
  | none => none
  | some type =>
    if type ∈ namedTypes then some (aggTagStringOf serviceName)
    else if type = cstr "request" then
      match methodOf env (requestObject env m) with
      | .ok method => some (Transaction.methodTags (aggTagStringOf serviceName) method)
      | .error _ => none
    else none

/-- The document passed validation: it was processed, and neither rejected nor filtered out. -/
def passes : Bool :=
  match processTransactionMessage env m with
  | .ok effects => !effects.any Effect.rejects
  | .error _ => false

/-- The settings of the team of the service. -/
def serviceTeamData : TeamData := env.getTeamData ((tmGetTeam (some serviceName)).getD [])

/-- The name of the document, or the path that its metrics have and that is rolled up, is `all`. -/
def countedTwice : Bool :=
  match transactionType env m with
  | none => false
  | some type =>
    if type ∈ namedTypes then
      printS (env.lib.getString (Json.get (cstr "name") (Json.get (cstr "transaction") m))) =
        cstr "all"
    else if type = cstr "request" then
      match genericizePath env.curlEasyUnescape env.chopper serviceName
        (requestPath env m (requestObject env m)) (serviceTeamData env serviceName) with
      | .ok (cleanPath, _) =>
        cleanPath = cstr "all" && (serviceTeamData env serviceName).rollupHighCardinality
      | .error _ => false
    else false

/-- The series of the tags should count the document in the window of `ms`. -/
def carries (tags : Bytes) (ms : ℕ) : Bool :=
  passes env m && (serviceTags env m serviceName = some tags &&
    windowStart (env.getMetricFlushFrequencyMs serviceName) (endTime env m) =
      windowStart (env.getMetricFlushFrequencyMs serviceName) ms)

/-- What processing the document adds to the counter with the key. -/
def addedBy (key : MetricKey) : ℕ :=
  match processTransactionMessage env m with
  | .ok effects => added key effects
  | .error _ => 0

/-- The local variables of `process_transaction_message` for a document of the service. -/
structure Transaction.Of (t : Transaction) : Prop where
  name_eq : t.serviceName = serviceName
  td_eq : t.td = serviceTeamData env serviceName
  aggTagString_eq : t.aggTagString = aggTagStringOf serviceName
  fits : (aggTagStringOf serviceName).length < 2048
  time_eq : t.metricTimestamp = endTime env m
  freq_eq : t.metricFlushFreqMs = env.getMetricFlushFrequencyMs serviceName

variable {env m serviceName} {effects : List Effect}

/-- What `pre_process` reads of a document. -/
theorem preProcess_cases {o : Option Prepared} (hservice : tmServiceName env.lib m = some serviceName)
    (hok : preProcess env m = .ok o) :
    o = none ∨ ∃ team ts tagString, tmGetTeam (some serviceName) = some team ∧
      env.lib.getString (Json.get (cstr "@timestamp") m) = some ts ∧
        o = some ⟨team, tagString, env.parseTimestamp ts⟩ := by
  unfold preProcess at hok
  rw [hservice] at hok
  split_ifs at hok
  · left
    exact (Except.ok.inj hok).symm
  · dsimp only at hok
    cases hteam : tmGetTeam (some serviceName) with
    | none =>
      rw [hteam] at hok
      left
      exact (Except.ok.inj hok).symm
    | some team =>
      rw [hteam] at hok
      obtain ⟨team', hteam', hok⟩ := bind_eq_ok.1 hok
      obtain ⟨-, rfl⟩ := fitting_eq_ok.1 hteam'
      obtain ⟨-, -, hok⟩ := bind_eq_ok.1 hok
      obtain ⟨ts, hts, hok⟩ := bind_eq_ok.1 hok
      obtain ⟨tagString, -, hok⟩ := bind_eq_ok.1 hok
      right
      exact ⟨team, ts, tagString, rfl, nonNull_eq_ok.1 hts, (Except.ok.inj hok).symm⟩

/-- A document is rejected, or it runs into the branches over its type. -/
theorem processTransactionMessage_cases (hservice : tmServiceName env.lib m = some serviceName)
    (hok : processTransactionMessage env m = .ok effects) :
    effects = [.messagesErrored] ∨
      ∃ (t : Transaction) (traceId type : Bytes) (branch : Branch),
        t.Of env m serviceName ∧ transactionType env m = some type ∧
          processByType env m t (Json.get (cstr "transaction") m) type = .ok branch ∧
            effects = if branch.returns then branch.effects else branch.effects ++
              storeTransaction env m serviceName traceId t.durationUs branch.cleanPath := by
  unfold processTransactionMessage at hok
  obtain ⟨o, hpre, hok⟩ := bind_eq_ok.1 hok
  rcases preProcess_cases hservice hpre with rfl | ⟨team, ts, tagString, hteam, hts, rfl⟩
  · cases hok
  · dsimp only at hok
    obtain ⟨aggTagString, hagg, hok⟩ := bind_eq_ok.1 hok
    unfold buildAggTagString at hagg
    rw [hservice] at hagg
    obtain ⟨hfits, rfl⟩ := fitting_eq_ok.1 hagg
    rw [hservice] at hok
    cases hduration : Json.get (cstr "duration") (Json.get (cstr "transaction") m) with
    | none =>
      rw [hduration] at hok
      left
      exact (Except.ok.inj hok).symm
    | some duration =>
      rw [hduration] at hok
      cases htrace : env.lib.getString (Json.get (cstr "id") (Json.get (cstr "trace") m)) with
      | none =>
        rw [htrace] at hok
        left
        exact (Except.ok.inj hok).symm
      | some traceId =>
        rw [htrace] at hok
        dsimp only at hok
        obtain ⟨type, htype, hok⟩ := bind_eq_ok.1 hok
        obtain ⟨branch, hbranch, hok⟩ := bind_eq_ok.1 hok
        right
        refine ⟨_, traceId, type, branch, ?_, nonNull_eq_ok.1 htype, hbranch, ?_⟩
        · exact ⟨rfl, by rw [serviceTeamData, hteam]; rfl, rfl, hfits,
            by rw [endTime, hts, hduration]; rfl, rfl⟩
        · split_ifs at hok with hreturns
          · rw [if_pos hreturns]
            exact (Except.ok.inj hok).symm
          · rw [if_neg hreturns]
            exact (Except.ok.inj hok).symm

/-! ### What a document adds -/

theorem markService_quiet (t : Transaction) (type : ServiceType) (key : MetricKey) :
    (t.markService type).any Effect.rejects = false ∧ added key (t.markService type) = 0 := by
  unfold Transaction.markService
  split_ifs <;> exact ⟨rfl, rfl⟩

theorem storeTransaction_quiet (env : Env) (m : Option Json) (serviceName traceId : Bytes)
    (durationUs : ℕ) (cleanPath : Option Bytes) (key : MetricKey) :
    (storeTransaction env m serviceName traceId durationUs cleanPath).any Effect.rejects = false ∧
      added key (storeTransaction env m serviceName traceId durationUs cleanPath) = 0 := by
  unfold storeTransaction
  dsimp only
  split_ifs <;> exact ⟨rfl, rfl⟩

theorem nameUpdates_accepts (t : Transaction) (aggTimestamp : ℕ) (name : Bytes) :
    (t.nameUpdates aggTimestamp name).any Effect.rejects = false := by
  unfold Transaction.nameUpdates
  split_ifs <;> rfl

theorem requestUpdates_accepts (t : Transaction) (aggTimestamp : ℕ) (cleanPath method : Bytes)
    (userAgent : Option Bytes) (statCode : ℤ) :
    (t.requestUpdates aggTimestamp cleanPath method userAgent statCode).any Effect.rejects =
      false := by
  have herror : ∀ what,
      (t.errorUpdates aggTimestamp what cleanPath method userAgent).any Effect.rejects = false := by
    intro what
    cases userAgent <;> rfl
  unfold Transaction.requestUpdates
  simp only [List.any_append]
  cases userAgent <;> split_ifs <;> simp only [herror] <;> rfl

/-- What a branch does: it rejects the document, or it counts it once under its service, and once
more where its own counter is that of the service. -/
structure Branch.Counts (env : Env) (m : Option Json) (serviceName tags : Bytes) (timestamp : ℕ)
    (branch : Branch) : Prop where
  rejects_iff : branch.effects.any Effect.rejects = branch.returns
  added_eq : added (serviceKey tags timestamp) branch.effects =
    if branch.returns = false ∧ serviceTags env m serviceName = some tags ∧
        windowCenter (env.getMetricFlushFrequencyMs serviceName) (endTime env m) = timestamp then
      1 + (countedTwice env m serviceName).toNat
    else 0

theorem centerTimestamp_of {t : Transaction} {aggTimestamp : ℕ} (ht : t.Of env m serviceName)
    (hok : centerTimestamp t.metricTimestamp t.metricFlushFreqMs = .ok aggTimestamp) :
    windowCenter (env.getMetricFlushFrequencyMs serviceName) (endTime env m) = aggTimestamp := by
  rw [ht.time_eq, ht.freq_eq] at hok
  exact (centerTimestamp_eq_ok.1 hok).2

theorem processNamed_counts {t : Transaction} {stype : ServiceType} {branch : Branch} {type : Bytes}
    (h : ServiceTags serviceName tags) (ht : t.Of env m serviceName)
    (htype : transactionType env m = some type) (hnamed : type ∈ namedTypes)
    (hok : processNamed env t (Json.get (cstr "transaction") m) stype = .ok branch) :
    branch.Counts env m serviceName tags timestamp := by
  obtain ⟨aggTimestamp, hcenter, hok⟩ := bind_eq_ok.1 hok
  obtain rfl := Except.ok.inj hok
  have hmark := markService_quiet t stype (serviceKey tags timestamp)
  have htags : serviceTags env m serviceName = some (aggTagStringOf serviceName) := by
    unfold serviceTags
    rw [htype]
    exact if_pos hnamed
  have htwice : countedTwice env m serviceName = decide (printS (env.lib.getString
      (Json.get (cstr "name") (Json.get (cstr "transaction") m))) = cstr "all") := by
    unfold countedTwice
    rw [htype]
    exact if_pos hnamed
  constructor
  · show List.any (_ ++ _) _ = false
    rw [List.any_append, hmark.1, nameUpdates_accepts]
    rfl
  · dsimp only
    rw [added_append, hmark.2, added_nameUpdates h ht.fits ht.aggTagString_eq,
      centerTimestamp_of ht hcenter, htags, htwice]
    by_cases hname : printS (env.lib.getString
      (Json.get (cstr "name") (Json.get (cstr "transaction") m))) = cstr "all"
    · simp [hname]
      split_ifs <;> rfl
    · simp [hname]

/-- A branch that rejects the document counts nothing. -/
theorem counts_rejected (t : Transaction) (type : ServiceType) {e : Effect}
    (he : e.rejects = true) (hadd : ∀ key, addedTo key e = 0) :
    Branch.Counts env m serviceName tags timestamp
      ⟨t.markService type ++ [e], true, none⟩ := by
  have hmark := markService_quiet t type (serviceKey tags timestamp)
  constructor
  · show List.any (_ ++ _) _ = true
    rw [List.any_append, List.any_cons, he, Bool.true_or, Bool.or_true]
  · dsimp only
    rw [added_append, hmark.2, added_cons, hadd, added_nil, if_neg (by simp)]

theorem methodOf_eq_ok {req : Option Json} {method : Bytes} (hok : methodOf env req = .ok method) :
    method.length < 16 ∧ ∀ c ∈ method, ¬ Lower c := by
  obtain ⟨meth, -, hok⟩ := bind_eq_ok.1 hok
  obtain ⟨hlen, rfl⟩ := fitting_eq_ok.1 hok
  refine ⟨hlen, fun c hc => ?_⟩
  obtain ⟨b, -, rfl⟩ := List.mem_map.1 hc
  exact not_lower_toUpper b

theorem processRequest_counts {t : Transaction} {branch : Branch}
    (h : ServiceTags serviceName tags) (ht : t.Of env m serviceName)
    (htype : transactionType env m = some (cstr "request"))
    (hok : processRequest env m t (Json.get (cstr "transaction") m) = .ok branch) :
    branch.Counts env m serviceName tags timestamp := by
  have hnamed : cstr "request" ∉ namedTypes := by decide
  rcases processRequest_cases hok with ⟨e, he, rfl⟩ |
    ⟨req, method, cleanPath, url, aggTimestamp, statCode, hobject, hmethod, hclean, hcenter, rfl⟩
  · obtain rfl | rfl := List.mem_pair.1 he
    · exact counts_rejected t .transactional rfl fun _ => rfl
    · exact counts_rejected t .transactional rfl fun _ => rfl
  obtain ⟨hlen, hupper⟩ := methodOf_eq_ok hmethod
  have hmark := markService_quiet t .transactional (serviceKey tags timestamp)
  have hsent : (url.map (Effect.sendUrl t.serviceName)).toList.any Effect.rejects = false ∧
      added (serviceKey tags timestamp) (url.map (Effect.sendUrl t.serviceName)).toList = 0 := by
    cases url <;> exact ⟨rfl, rfl⟩
  have htags : serviceTags env m serviceName =
      some (Transaction.methodTags (aggTagStringOf serviceName) method) := by
    unfold serviceTags
    rw [htype]
    dsimp only
    rw [if_neg hnamed, if_pos rfl, requestObject, hobject, hmethod]
  have htwice : countedTwice env m serviceName =
      (cleanPath = cstr "all" && t.td.rollupHighCardinality) := by
    rw [ht.name_eq, ht.td_eq] at hclean
    unfold countedTwice
    rw [htype]
    dsimp only
    rw [if_neg hnamed, if_pos rfl, requestObject, hobject, hclean, ht.td_eq]
  constructor
  · show List.any (_ ++ _ ++ _) _ = false
    rw [List.any_append, List.any_append, hmark.1, hsent.1, requestUpdates_accepts]
    rfl
  · dsimp only
    rw [added_append, added_append, hmark.2, hsent.2,
      added_requestUpdates h ht.fits ht.aggTagString_eq hlen hupper,
      centerTimestamp_of ht hcenter, htags, htwice]
    by_cases hall : cleanPath = cstr "all" ∧ t.td.rollupHighCardinality = true
    · simp [hall]
      split_ifs <;> rfl
    · have hfalse : (decide (cleanPath = cstr "all") && t.td.rollupHighCardinality) = false := by
        simpa using hall
      rw [hfalse]
      simp [hall]

/-- A transaction of any type. -/
theorem processByType_counts {t : Transaction} {branch : Branch} {type : Bytes}
    (h : ServiceTags serviceName tags) (ht : t.Of env m serviceName)
    (htype : transactionType env m = some type)
    (hok : processByType env m t (Json.get (cstr "transaction") m) type = .ok branch) :
    branch.Counts env m serviceName tags timestamp := by
  unfold processByType at hok
  split_ifs at hok with hmessage hscheduled hrequest hload
  · refine processNamed_counts h ht htype ?_ hok
    rcases hmessage with rfl | rfl <;> decide
  · exact processNamed_counts h ht htype (by rw [hscheduled]; decide) hok
  · subst hrequest
    exact processRequest_counts h ht htype hok
  -- the other types have no series of the service
  all_goals
    have htags : serviceTags env m serviceName = none := by
      unfold serviceTags
      rw [htype]
      simp_all [namedTypes]
    obtain rfl := Except.ok.inj hok
    constructor
  · exact (markService_quiet t .transactional (serviceKey tags timestamp)).1
  · rw [htags, if_neg (by simp)]
    exact (markService_quiet t .transactional (serviceKey tags timestamp)).2
  · rfl
  · rw [htags, if_neg (by simp)]
    rfl

/-- The windows of two times have different centres. -/
theorem windowCenter_eq_iff {flushFreqMs ms ms' : ℕ} (h : ms < 2 ^ 64) (h' : ms' < 2 ^ 64) :
    windowCenter flushFreqMs ms = windowCenter flushFreqMs ms' ↔
      windowStart flushFreqMs ms = windowStart flushFreqMs ms' := by
  have hlt : windowStart flushFreqMs ms < 2 ^ 64 := (Nat.sub_le _ _).trans_lt h
  have hlt' : windowStart flushFreqMs ms' < 2 ^ 64 := (Nat.sub_le _ _).trans_lt h'
  unfold windowCenter
  constructor
  · intro heq
    have hcancel := Nat.ModEq.add_right_cancel' (flushFreqMs / 2) heq
    exact hcancel.eq_of_lt_of_lt hlt hlt'
  · intro heq
    rw [heq]

/-- What a document adds to a series: one where the series should count it, and one more where it
is counted twice. -/
theorem added_document {ms : ℕ} (h : ServiceTags serviceName tags)
    (hservice : tmServiceName env.lib m = some serviceName) (hms : ms < 2 ^ 64) :
    addedBy env m (serviceKey tags
        (windowCenter (env.getMetricFlushFrequencyMs serviceName) ms)) =
      (carries env m serviceName tags ms).toNat +
        (carries env m serviceName tags ms && countedTwice env m serviceName).toNat := by
  unfold addedBy carries passes
  cases hok : processTransactionMessage env m with
  | error fault => rfl
  | ok effects =>
    dsimp only
    rcases processTransactionMessage_cases hservice hok with
      rfl | ⟨t, traceId, type, branch, ht, htype, hbranch, rfl⟩
    · rfl
    · have hcounts : branch.Counts env m serviceName tags
          (windowCenter (env.getMetricFlushFrequencyMs serviceName) ms) :=
        processByType_counts h ht htype hbranch
      have hadded := hcounts.added_eq
      have hend : endTime env m < 2 ^ 64 := Nat.mod_lt _ (by norm_num)
      simp only [windowCenter_eq_iff hend hms] at hadded
      cases hreturns : branch.returns with
      | true =>
        rw [if_pos rfl, hcounts.rejects_iff, hreturns, hadded, hreturns, if_neg (by simp)]
        rfl
      | false =>
        obtain ⟨hstore, hstoreAdded⟩ := storeTransaction_quiet env m serviceName traceId
          t.durationUs branch.cleanPath (serviceKey tags
            (windowCenter (env.getMetricFlushFrequencyMs serviceName) ms))
        rw [if_neg (by decide), added_append, hstoreAdded, List.any_append, hstore,
          hcounts.rejects_iff, hreturns, hadded, hreturns]
        by_cases hcarried : serviceTags env m serviceName = some tags ∧
          windowStart (env.getMetricFlushFrequencyMs serviceName) (endTime env m) =
            windowStart (env.getMetricFlushFrequencyMs serviceName) ms
        · simp [hcarried]
        · rw [if_neg (by simpa using hcarried)]
          have hfalse : (decide (serviceTags env m serviceName = some tags) && decide
              (windowStart (env.getMetricFlushFrequencyMs serviceName) (endTime env m) =
                windowStart (env.getMetricFlushFrequencyMs serviceName) ms)) = false := by
            simpa using hcarried
          rw [hfalse]
          rfl

end Document

/-! ### Runs -/

section Run

variable {docs : List (Env × Option Json)} {flushFreqMs ms : ℕ}

/-- What a run of documents adds to a series. -/
theorem added_run (h : ServiceTags serviceName tags)
    (hservice : ∀ d ∈ docs, tmServiceName d.1.lib d.2 = some serviceName)
    (hfreq : ∀ d ∈ docs, d.1.getMetricFlushFrequencyMs serviceName = flushFreqMs)
    (hms : ms < 2 ^ 64) :
    (docs.map fun d => addedBy d.1 d.2 (serviceKey tags (windowCenter flushFreqMs ms))).sum =
      docs.countP (fun d => carries d.1 d.2 serviceName tags ms) +
        docs.countP fun d => carries d.1 d.2 serviceName tags ms &&
          countedTwice d.1 d.2 serviceName := by
  induction docs with
  | nil => rfl
  | cons d docs ih =>
    have hdoc := added_document h (hservice d List.mem_cons_self) hms
    rw [hfreq d List.mem_cons_self] at hdoc
    have hrest := ih (fun d hd => hservice d (List.mem_cons_of_mem _ hd))
      (fun d hd => hfreq d (List.mem_cons_of_mem _ hd))
    rw [List.map_cons, List.sum_cons, hdoc, hrest, List.countP_cons, List.countP_cons]
    cases carries d.1 d.2 serviceName tags ms <;> cases countedTwice d.1 d.2 serviceName <;>
      simp <;> omega

/-- A series adds up to the number of the documents that it should count, as long as none of these
has a counter of its own that is the series. -/
theorem totals_iff (h : ServiceTags serviceName tags)
    (hservice : ∀ d ∈ docs, tmServiceName d.1.lib d.2 = some serviceName)
    (hfreq : ∀ d ∈ docs, d.1.getMetricFlushFrequencyMs serviceName = flushFreqMs)
    (hms : ms < 2 ^ 64) :
    (docs.map fun d => addedBy d.1 d.2 (serviceKey tags (windowCenter flushFreqMs ms))).sum =
        docs.countP (fun d => carries d.1 d.2 serviceName tags ms) ↔
      ∀ d ∈ docs, carries d.1 d.2 serviceName tags ms = true →
        countedTwice d.1 d.2 serviceName = false := by
  rw [added_run h hservice hfreq hms, Nat.add_eq_left, List.countP_eq_zero]
  refine forall₂_congr fun d _ => ?_
  cases carries d.1 d.2 serviceName tags ms <;> simp

/-- Two jobs of one service. -/
def twoJobs : List (Env × Option Json) :=
  [(plainEnv, some (scheduledTransaction (cstr "nightly"))),
    (plainEnv, some (scheduledTransaction (cstr "weekly")))]

/-- Each of two jobs in one window is counted once. -/
theorem totals_nightly :
    (twoJobs.map fun d => addedBy d.1 d.2 (serviceKey (aggTagStringOf (cstr "a-b"))
        (windowCenter 60000 1553101743950))).sum =
      twoJobs.countP fun d =>
        carries d.1 d.2 (cstr "a-b") (aggTagStringOf (cstr "a-b")) 1553101743950 := by
  refine (totals_iff .named ?_ ?_ (by decide)).2 ?_
  · simp only [twoJobs, List.forall_mem_cons]
    decide
  · simp only [twoJobs, List.forall_mem_cons]
    exact ⟨rfl, rfl, List.forall_mem_nil _⟩
  · simp only [twoJobs, List.forall_mem_cons]
    decide

example : (twoJobs.countP fun d =>
    carries d.1 d.2 (cstr "a-b") (aggTagStringOf (cstr "a-b")) 1553101743950) = 2 := by
  decide

/-- A job that is called `all` is counted twice. -/
theorem all_counted_twice :
    ¬ ∀ (docs : List (Env × Option Json)) (serviceName tags : Bytes) (flushFreqMs ms : ℕ),
      ServiceTags serviceName tags →
      (∀ d ∈ docs, tmServiceName d.1.lib d.2 = some serviceName) →
      (∀ d ∈ docs, d.1.getMetricFlushFrequencyMs serviceName = flushFreqMs) → ms < 2 ^ 64 →
      (docs.map fun d => addedBy d.1 d.2 (serviceKey tags (windowCenter flushFreqMs ms))).sum =
        docs.countP fun d => carries d.1 d.2 serviceName tags ms := by
  intro hall
  have htotal := hall [(plainEnv, some (scheduledTransaction (cstr "all")))] (cstr "a-b") _ 60000
    1553101743950 .named (by simp only [List.forall_mem_singleton]; decide)
    (by simp only [List.forall_mem_singleton]; rfl) (by decide)
  have hadded : addedBy plainEnv (some (scheduledTransaction (cstr "all"))) (serviceKey
      (aggTagStringOf (cstr "a-b")) (windowCenter 60000 1553101743950)) = 2 := by
    decide
  have hcarried : carries plainEnv (some (scheduledTransaction (cstr "all"))) (cstr "a-b")
      (aggTagStringOf (cstr "a-b")) 1553101743950 = true := by
    decide
  rw [List.map_singleton, List.sum_singleton, hadded, List.countP_singleton, if_pos hcarried]
    at htotal
  omega

end Run

end Tracemate.Process
