import Tracemate.Lib.KeyedLog
import Tracemate.Kafka.Consume
import Tracemate.Process.AggregateMessage

/-!
# The topics that the program writes itself

Aggregates, URLs and regular expressions go through Kafka and come back to an instance that reads
their topic in batches.

* `Service`, `OwnEvent`: the services and events that arrive, each with the conditions for it;
* `OwnEvent.payload`, `OwnEvent.apply`: the text of an event, and what it means for the teams;
* `ownHandlers`, `processMessage_own`: the functions of the three events, and one message of them;
* `replayed`: reading the texts is applying the events;
* `own_log_projected`: each table of an instance is computed from its own events of the log;
* `shard_reads_alike`, `regexes_redelivered`: readers of shards, and messages that come again.
-/

namespace Tracemate.Kafka

open CStr COutcome Outcome JsonC Squasher Pattern KeyedLog Tracemate.Metric Tracemate.Process

/-! ### The events -/

/-- A service whose name needs no escape and has a team. -/
structure Service where
  name : Bytes
  team : Bytes
  plain : ∀ c ∈ name, needsEscape c = false
  hasTeam : tmGetTeam (some name) = some team
  fits : team.length < teamSize

/-- A URL that arrives. -/
structure UrlEvent where
  service : Service
  url : Bytes
  nonempty : url ≠ []
  plain : ∀ c ∈ url, needsEscape c = false

/-- A regular expression that arrives, without the backslashes before its slashes. -/
structure RegexEvent where
  service : Service
  text : Bytes
  replace : Bytes
  nonempty : text ≠ []
  plain : ∀ c ∈ text, needsEscape c = false
  plainReplace : ∀ c ∈ replace, needsEscape c = false
  slashes : text.count 47 < 20

/-- What `send_regex_to_kafka` is called with. -/
def RegexEvent.regex (e : RegexEvent) : Bytes := escapeSlashes e.text

section Events

variable (p : Printing) (lib : Conversions) (deserializeB64 : Bytes → Multiset ℕ)

/-- An aggregate that arrives; its name is no member that makes the message look like a document. -/
structure AggregateEvent where
  metric : MetricJson
  carries : Carries p lib deserializeB64 metric
  named : metric.metricName ≠ cstr "processor"

/-- The events that the program produces. -/
inductive OwnEvent
  | aggregate (e : AggregateEvent p lib deserializeB64)
  | url (e : UrlEvent)
  | regex (e : RegexEvent)

end Events

variable {p : Printing} {lib : Conversions} {deserializeB64 : Bytes → Multiset ℕ}

/-- The text that is produced for an event. -/
def OwnEvent.payload : OwnEvent p lib deserializeB64 → Option Bytes
  | .aggregate e => some (aggregateText p e.metric)
  | .url e => (sendUrlToKafka e.service.name e.url).map UrlMessage.payload
  | .regex e =>
    (sendRegexToKafka e.service.name e.regex e.replace).map RegexMessage.payload

/-! ### What they mean -/

/-- The surroundings of the functions: the clock, and the orders in which the squasher visits its
children. -/
structure Turn where
  now : ℕ
  orders : ℕ → IterOrder

/-- The squasher of the service is given the URL. -/
def UrlEvent.apply (e : UrlEvent) (orders : ℕ → IterOrder) (teams : Teams) : Teams :=
  let (td, teams) := teams.getTeamData e.service.team
  teams.insert e.service.team
    ((td.addService e.service.name).addPath orders e.service.name e.url)

/-- The matcher of an expression, if it compiles. -/
def RegexEvent.matcher (pcre : Engine) (e : RegexEvent) : Option PcreMatcher :=
  (pcre e.regex).map fun exec => ⟨exec, e.replace⟩

/-- An expression that the table of the service does not have is added to it, if it compiles. -/
def RegexEvent.apply (e : RegexEvent) (pcre : Engine) (teams : Teams) : Teams :=
  let (td, teams) := teams.getTeamData e.service.team
  let regexes := (td.urls.squashRegexes.lookup e.service.name).getD ∅
  let regexes := match e.matcher pcre with
    | some m => regexes.store e.regex m
    | none => regexes
  teams.insert e.service.team (td.setSquashTable e.service.name regexes)

section Apply

variable (stats : HistStatistics) (owner : BitVec 32) (pcre : Engine)

/-- The metric is merged. -/
def AggregateEvent.apply (e : AggregateEvent p lib deserializeB64) (now : ℕ) (teams : Teams) :
    Outcome Teams :=
  processAggregateMessage stats owner now .unwritten teams
    [(e.metric.metricName, e.metric.ts, e.metric.value)]

/-- What an event does to the teams. -/
def OwnEvent.apply (turn : Turn) (teams : Teams) : OwnEvent p lib deserializeB64 → Outcome Teams
  | .aggregate e => e.apply stats owner turn.now teams
  | .url e => .ok (e.apply turn.orders teams)
  | .regex e => .ok (e.apply pcre teams)

end Apply

/-! ### The functions -/

section Functions

variable (lib deserializeB64) (stats : HistStatistics) (owner : BitVec 32) (pcre : Engine)
  (others : Event → Turn → Json → ℤ → Teams → Outcome (Reply Teams))
  (otel : Turn → Message → Teams → Outcome (Teams × Bool))

/-- The functions of the three events; the other ones are never called. -/
def processOwn : Event → Turn → Json → ℤ → Teams → Outcome (Reply Teams)
  | .aggregate, turn, top, _, teams => do
    let teams ← processAggregateJson lib deserializeB64 stats owner turn.now .unwritten teams top
    return ⟨teams, 0, 0, false⟩
  | .url, turn, top, _, teams => do
    let (teams, _) ← processUrlMessage lib turn.orders teams top
    return ⟨teams, 0, 0, false⟩
  | .regex, _, top, _, teams => do
    let teams ← processRegexMessage lib pcre teams top
    return ⟨teams, 0, 0, false⟩
  | event, turn, top, ttl, teams => others event turn top ttl teams

/-- The functions of an instance without hooks. -/
def ownHandlers : Handlers Teams Turn where
  lib := lib
  parse := parseJson
  hook := fun _ => HookReply.none
  process := processOwn lib deserializeB64 stats owner pcre others
  otelProcessJaegerSpan := otel

end Functions

/-! ### The functions on the texts -/

section Texts

variable {teams : Teams} {orders : ℕ → IterOrder} {pcre : Engine}

theorem processUrlMessage_url (e : UrlEvent) : processUrlMessage lib orders teams
    (message (cstr "url") e.service.name [(cstr "url", .str e.url)]) =
      .ok (e.apply orders teams, some (e.service.name, e.url)) := by
  have hservice : messageService lib (message (cstr "url") e.service.name
      [(cstr "url", .str e.url)]) = some e.service.name := by
    rw [messageService_message _ _ _ (List.forall_mem_singleton.2 url_ne_context),
      strAt_of_plain e.service.plain]
  have hurl : cString lib (Json.get (cstr "url") (some (message (cstr "url") e.service.name
      [(cstr "url", .str e.url)]))) = some e.url := by
    rw [message, List.cons_append, get_cons_self _ rfl]
    show some (strAt e.url) = some e.url
    rw [strAt_of_plain e.plain]
  unfold processUrlMessage
  rw [hservice]
  dsimp only
  rw [e.service.hasTeam]
  dsimp only
  rw [show fitting teamSize e.service.team = .ok e.service.team from if_pos e.service.fits, hurl]
  rfl

theorem storeRegex_regex (e : RegexEvent) (regexes : RegexTable) :
    storeRegex lib pcre (message (cstr "regex") e.service.name
      [(cstr "replace", .str e.replace), (cstr "regex", .str e.text)]) regexes e.regex =
      .ok (match e.matcher pcre with
        | some m => regexes.store e.regex m
        | none => regexes) := by
  have hreplace : cString lib (some (.str e.replace)) = some e.replace := by
    show some (strAt e.replace) = some e.replace
    rw [strAt_of_plain e.plainReplace]
  unfold storeRegex RegexEvent.matcher
  cases hpcre : pcre e.regex with
  | none =>
    split_ifs
    · rfl
    · rfl
  | some exec =>
    rw [get_replace, hreplace]
    split_ifs with hmem
    · simp [RegexTable.store, hmem]
    · rfl

theorem processRegexMessage_regex (e : RegexEvent) : processRegexMessage lib pcre teams
    (message (cstr "regex") e.service.name
      [(cstr "replace", .str e.replace), (cstr "regex", .str e.text)]) =
      .ok (e.apply pcre teams) := by
  have htext : cString lib (some (.str e.text)) = some e.text := by
    show some (strAt e.text) = some e.text
    rw [strAt_of_plain e.plain]
  unfold processRegexMessage
  rw [service_regexMessage e.service.plain]
  dsimp only
  rw [e.service.hasTeam]
  dsimp only
  rw [get_regex]
  exact bind_eq_ok.2 ⟨e.service.team, if_pos e.service.fits, bind_eq_ok.2 ⟨e.text,
    nonNull_eq_ok.2 htext, bind_eq_ok.2 ⟨e.regex, escapeRegex_eq e.slashes,
      bind_eq_ok.2 ⟨_, storeRegex_regex e _, rfl⟩⟩⟩⟩

/-- What the parser makes of the text of an event. -/
def OwnEvent.document : OwnEvent p lib deserializeB64 → Json
  | .aggregate e => .obj [metricMember p e.metric, (cstr "context", .obj []),
      (cstr "processor", .obj [(cstr "event", .str (cstr "aggregate"))])]
  | .url e => message (cstr "url") e.service.name [(cstr "url", .str e.url)]
  | .regex e => message (cstr "regex") e.service.name
      [(cstr "replace", .str e.replace), (cstr "regex", .str e.text)]

/-- The event of the text of an event. -/
def OwnEvent.kind : OwnEvent p lib deserializeB64 → Event
  | .aggregate _ => .aggregate
  | .url _ => .url
  | .regex _ => .regex

theorem escapeSlashes_ne_nil {text : Bytes} (h : text ≠ []) : escapeSlashes text ≠ [] := by
  intro hnil
  have hlen := length_escapeSlashes text
  rw [hnil, List.length_nil] at hlen
  exact h (List.length_eq_zero_iff.1 (by omega))

theorem parse_payload (e : OwnEvent p lib deserializeB64) :
    ∃ payload, e.payload = some payload ∧ parseJson payload = some e.document := by
  cases e with
  | aggregate e => exact ⟨_, rfl, parse_aggregateText e.carries.readable⟩
  | url e =>
    refine ⟨urlPayload e.service.name e.url, ?_, parse_urlPayload
      (decodeString_of_plain e.service.plain) (decodeString_of_plain e.plain)⟩
    rw [OwnEvent.payload, sendUrlToKafka, if_neg e.nonempty]
    rfl
  | regex e =>
    have hsend : sendRegexToKafka e.service.name e.regex e.replace = some _ :=
      if_neg (escapeSlashes_ne_nil e.nonempty)
    refine ⟨_, congrArg (Option.map RegexMessage.payload) hsend, parse_regexPayload hsend
      (decodeString_of_plain e.service.plain) (decodeString_escapeSlashes e.plain)
      (decodeString_of_plain e.plainReplace)⟩

/-- The processor of the text of an event. -/
theorem get_processor (e : OwnEvent p lib deserializeB64) : ∃ text,
    Json.get (cstr "processor") (some e.document) = some (.obj [(cstr "event", .str text)]) ∧
      strAt text = text ∧ eventOf text = some e.kind := by
  cases e with
  | aggregate e =>
    refine ⟨cstr "aggregate", ?_, by decide, rfl⟩
    rw [OwnEvent.document, metricMember, get_cons_ne (Ne.symm e.named), get_cons_ne (by decide),
      get_cons_self _ rfl]
  | url e =>
    refine ⟨cstr "url", ?_, by decide, rfl⟩
    rw [OwnEvent.document, message, List.cons_append, List.nil_append, get_cons_ne (by decide),
      get_cons_ne (by decide), get_cons_self _ rfl]
  | regex e =>
    refine ⟨cstr "regex", ?_, by decide, rfl⟩
    rw [OwnEvent.document, message, List.cons_append, List.cons_append, List.nil_append,
      get_cons_ne (by decide), get_cons_ne (by decide), get_cons_ne (by decide), get_cons_self _ rfl]

end Texts

/-! ### One message -/

/-- An event of the log: its surroundings when it is handled, its offset, and the readings of the
clock. -/
structure Entry (p : Printing) (lib : Conversions) (deserializeB64 : Bytes → Multiset ℕ) where
  event : OwnEvent p lib deserializeB64
  turn : Turn
  offset : ℤ
  startUs : ℕ
  endUs : ℕ

/-- The message of an event. -/
def Entry.delivery (e : Entry p lib deserializeB64) : Delivery Turn :=
  ⟨⟨0, e.event.payload, e.offset⟩, e.startUs, e.endUs, e.turn⟩

section Messages

variable {stats : HistStatistics} {owner : BitVec 32} {pcre : Engine}
  {others : Event → Turn → Json → ℤ → Teams → Outcome (Reply Teams)}
  {otel : Turn → Message → Teams → Outcome (Teams × Bool)} {topic : Bytes}

/-- The function of an event on its text. -/
theorem processOwn_document (hlib : ExactNumbers lib) (e : OwnEvent p lib deserializeB64)
    (turn : Turn) (ttl : ℤ) (teams : Teams) :
    processOwn lib deserializeB64 stats owner pcre others e.kind turn e.document ttl teams =
      (e.apply stats owner pcre turn teams).map fun teams => ⟨teams, 0, 0, false⟩ := by
  cases e with
  | aggregate e =>
    have hmerge : processAggregateJson lib deserializeB64 stats owner turn.now .unwritten teams
        (OwnEvent.aggregate e).document = e.apply stats owner turn.now teams :=
      processMembers_aggregate e.carries.name (readMetric_member hlib e.metric.owner e.carries.ts
        e.carries.readable e.carries.readsBack) _ _
    show (processAggregateJson lib deserializeB64 stats owner turn.now .unwritten teams
      (OwnEvent.aggregate e).document >>= _) = _
    rw [hmerge]
    rfl
  | url e =>
    show (processUrlMessage lib turn.orders teams _ >>= _) = _
    rw [OwnEvent.document, processUrlMessage_url]
    rfl
  | regex e =>
    show (processRegexMessage lib pcre teams _ >>= _) = _
    rw [OwnEvent.document, processRegexMessage_regex]
    rfl

/-- One message: the event is applied, and counted as processed. -/
theorem processMessage_own (hlib : ExactNumbers lib) (htopic : topic ≠ cstr "otlp_spans")
    (e : Entry p lib deserializeB64) (c : Consumer Teams) :
    processMessage (ownHandlers lib deserializeB64 stats owner pcre others otel) topic e.delivery c =
      (e.event.apply stats owner pcre e.turn c.shared).map fun teams =>
        (c.after e.delivery ⟨teams, 0, 0, false⟩, true) := by
  obtain ⟨payload, hpayload, hparse⟩ := parse_payload e.event
  obtain ⟨text, hget, htext, hevent⟩ := get_processor e.event
  have heventText : eventText (ownHandlers lib deserializeB64 stats owner pcre others otel)
      (.obj [(cstr "event", .str text)]) = some text := by
    unfold eventText
    rw [get_cons_self _ rfl]
    exact congrArg some htext
  rw [processMessage_of_event rfl htopic hpayload hparse hget rfl heventText hevent]
  show (processOwn lib deserializeB64 stats owner pcre others e.event.kind e.turn e.event.document
    600 c.shared).map _ = _
  rw [processOwn_document hlib]
  cases e.event.apply stats owner pcre e.turn c.shared <;> rfl

variable (stats owner pcre) in
/-- An entry of the log, applied to the teams. -/
def applyEntry (teams : Teams) (e : Entry p lib deserializeB64) : Outcome Teams :=
  e.event.apply stats owner pcre e.turn teams

/-- The loop over a batch. -/
theorem consumeFrom_own (hlib : ExactNumbers lib) (htopic : topic ≠ cstr "otlp_spans")
    (batch : List (Entry p lib deserializeB64)) (offset : ℕ) (c : Consumer Teams) :
    (consumeFrom (ownHandlers lib deserializeB64 stats owner pcre others otel) topic offset c
        (batch.map Entry.delivery)).map (fun r => r.1.shared) =
      batch.foldlM (applyEntry stats owner pcre) c.shared := by
  induction batch generalizing offset c with
  | nil => rfl
  | cons e batch ih =>
    rw [List.map_cons, consumeFrom, processMessage_own hlib htopic, List.foldlM_cons, applyEntry]
    cases e.event.apply stats owner pcre e.turn c.shared with
    | error fault => rfl
    | ok teams => exact ih _ _

/-- Reading the texts of a log, in any batches, is applying its events. -/
theorem replayed (hlib : ExactNumbers lib) (htopic : topic ≠ cstr "otlp_spans")
    (batches : List (List (Entry p lib deserializeB64))) (c : Consumer Teams) :
    (consumeBatches (ownHandlers lib deserializeB64 stats owner pcre others otel) topic c
        (batches.map (List.map Entry.delivery))).map (fun r => r.1.shared) =
      batches.flatten.foldlM (applyEntry stats owner pcre) c.shared := by
  induction batches generalizing c with
  | nil => rfl
  | cons batch batches ih =>
    rw [List.map_cons, consumeBatches, List.flatten_cons, List.foldlM_append,
      ← consumeFrom_own hlib htopic batch 0 c]
    show (consumeFrom _ topic 0 c (batch.map Entry.delivery) >>= _).map _ = _
    cases consumeFrom (ownHandlers lib deserializeB64 stats owner pcre others otel) topic 0 c
      (batch.map Entry.delivery) with
    | error fault => rfl
    | ok r =>
      show _ = batches.flatten.foldlM (applyEntry stats owner pcre) r.1.shared
      rw [← ih r.1]
      show (consumeBatches _ topic r.1 _ >>= _).map _ = _
      cases consumeBatches (ownHandlers lib deserializeB64 stats owner pcre others otel) topic r.1
        (batches.map (List.map Entry.delivery)) <;> rfl

end Messages

/-! ### The tables -/

/-- The squasher of a service. -/
def pathSquasher (teams : Teams) (team serviceName : Bytes) : PathSquasher :=
  ((teams.getTeamData team).1.urls.pathSquashers.lookup serviceName).getD
    (tmPathSquasherAlloc pathSquashCardinalityFactor)

theorem data_eq (teams : Teams) (team : Bytes) :
    (teams.getTeamData team).1 = (teams.lookup team).getD .new := by
  unfold Teams.getTeamData
  cases teams.lookup team <;> rfl

theorem lookup_getTeamData_of_ne (teams : Teams) {team other : Bytes} (h : other ≠ team) :
    (teams.getTeamData team).2.lookup other = teams.lookup other := by
  unfold Teams.getTeamData
  cases teams.lookup team with
  | some td => rfl
  | none => exact AList.lookup_insert_ne h

/-- Only the data of one team are written. -/
theorem data_insert (teams : Teams) (team other : Bytes) (td : TeamData) :
    (Teams.getTeamData ((teams.getTeamData team).2.insert team td) other).1 =
      if other = team then td else (teams.getTeamData other).1 := by
  rw [data_eq, data_eq]
  split_ifs with h
  · rw [h, AList.lookup_insert]
    rfl
  · rw [AList.lookup_insert_ne h, lookup_getTeamData_of_ne teams h]

/-- The team that the tags of an aggregate name. -/
def aggregateTeam (metricName : Bytes) : Option Bytes :=
  match parseKey metricName .unwritten with
  | .ok (true, buffers) => buffers.team
  | _ => none

section Tables

variable {stats : HistStatistics} {owner : BitVec 32} {pcre : Engine} {teams teams' : Teams}

/-- An aggregate is merged into the table of its team, or skipped. -/
theorem aggregate_cases {e : AggregateEvent p lib deserializeB64} {now : ℕ}
    (h : e.apply stats owner now teams = .ok teams') :
    (∃ team hash, aggregateTeam e.metric.metricName = some team ∧
      applyAggregate stats owner now e.metric.metricName e.metric.ts e.metric.value
        (teams.hash team) = .ok hash ∧
      teams' = (teams.getTeamData team).2.insert team { (teams.getTeamData team).1 with hash }) ∨
    (aggregateTeam e.metric.metricName = none ∧ teams' = teams) := by
  unfold AggregateEvent.apply processAggregateMessage at h
  obtain ⟨⟨accepted, buffers⟩, hkey, h⟩ := bind_eq_ok.1 h
  unfold aggregateTeam
  rw [hkey]
  cases accepted with
  | false =>
    obtain rfl : teams = teams' := Except.ok.inj h
    exact .inr ⟨rfl, rfl⟩
  | true =>
    obtain ⟨team, hteam, h⟩ := bind_eq_ok.1 h
    have happly : (applyAggregate stats owner now e.metric.metricName e.metric.ts e.metric.value
        (teams.hash team) >>= fun hash => processAggregateMessage stats owner now buffers
          ((teams.getTeamData team).2.insert team { (teams.getTeamData team).1 with hash }) []) =
        .ok teams' := h
    obtain ⟨hash, hhash, h⟩ := bind_eq_ok.1 happly
    cases hbuffer : buffers.team with
    | none =>
      rw [hbuffer] at hteam
      cases hteam
    | some team' =>
      rw [hbuffer] at hteam
      obtain rfl : team' = team := Except.ok.inj hteam
      exact .inl ⟨team', hash, hbuffer, hhash, (Except.ok.inj h).symm⟩

/-- An aggregate leaves the tables for URLs alone. -/
theorem urls_aggregate {e : AggregateEvent p lib deserializeB64} {now : ℕ}
    (h : e.apply stats owner now teams = .ok teams') (team : Bytes) :
    (teams'.getTeamData team).1.urls = (teams.getTeamData team).1.urls := by
  rcases aggregate_cases h with ⟨team', hash, -, -, rfl⟩ | ⟨-, rfl⟩
  · rw [data_insert]
    split_ifs with hteam
    · rw [hteam]
    · rfl
  · rfl

theorem urls_addPath (td : TeamData) (orders : ℕ → IterOrder) (serviceName url : Bytes) :
    ((td.addService serviceName).addPath orders serviceName url).urls =
      ⟨td.urls.pathSquashers.insert serviceName (tmPathSquasherAddPath
        ((td.urls.pathSquashers.lookup serviceName).getD
          (tmPathSquasherAlloc pathSquashCardinalityFactor)) orders url),
        td.urls.squashRegexes⟩ := by
  unfold TeamData.addPath TeamData.addService
  split_ifs <;> rfl

theorem hash_addPath (td : TeamData) (orders : ℕ → IterOrder) (serviceName url : Bytes) :
    ((td.addService serviceName).addPath orders serviceName url).hash = td.hash := by
  unfold TeamData.addPath TeamData.addService
  split_ifs <;> rfl

/-- The two services have one team if they have one name. -/
theorem team_eq_of_name_eq {s s' : Service} (h : s.name = s'.name) : s.team = s'.team := by
  have hteam := s.hasTeam
  rw [h, s'.hasTeam] at hteam
  exact (Option.some.inj hteam).symm

theorem pathSquasher_url (e : UrlEvent) (orders : ℕ → IterOrder) (s : Service) :
    pathSquasher (e.apply orders teams) s.team s.name =
      if e.service.name = s.name then
        tmPathSquasherAddPath (pathSquasher teams s.team s.name) orders e.url
      else pathSquasher teams s.team s.name := by
  unfold pathSquasher UrlEvent.apply
  dsimp only
  rw [data_insert]
  by_cases hname : e.service.name = s.name
  · rw [if_pos hname, if_pos (team_eq_of_name_eq hname).symm, urls_addPath, hname,
      AList.lookup_insert, team_eq_of_name_eq hname]
    rfl
  · rw [if_neg hname]
    by_cases hteam : s.team = e.service.team
    · rw [if_pos hteam, urls_addPath, AList.lookup_insert_ne (Ne.symm hname), hteam]
    · rw [if_neg hteam]

theorem squashTable_url (e : UrlEvent) (orders : ℕ → IterOrder) (team serviceName : Bytes) :
    (e.apply orders teams).squashTable team serviceName = teams.squashTable team serviceName := by
  unfold Teams.squashTable UrlEvent.apply
  dsimp only
  rw [data_insert]
  split_ifs with hteam
  · rw [urls_addPath, hteam]
  · rfl

theorem hash_url (e : UrlEvent) (orders : ℕ → IterOrder) (team : Bytes) :
    (e.apply orders teams).hash team = teams.hash team := by
  unfold Teams.hash UrlEvent.apply
  dsimp only
  rw [data_insert]
  split_ifs with hteam
  · rw [hash_addPath, hteam]
  · rfl

theorem pathSquasher_regex (e : RegexEvent) (team serviceName : Bytes) :
    pathSquasher (e.apply pcre teams) team serviceName = pathSquasher teams team serviceName := by
  unfold pathSquasher RegexEvent.apply
  dsimp only
  rw [data_insert]
  split_ifs with hteam
  · rw [hteam]
    rfl
  · rfl

theorem hash_regex (e : RegexEvent) (team : Bytes) :
    (e.apply pcre teams).hash team = teams.hash team := by
  unfold Teams.hash RegexEvent.apply
  dsimp only
  rw [data_insert]
  split_ifs with hteam
  · rw [hteam]
    rfl
  · rfl

theorem lookup_store (t : RegexTable) (key : Bytes) (m : PcreMatcher) :
    (t.store key m).lookup key = (t.lookup key).or (some m) := by
  unfold RegexTable.store
  split_ifs with hmem
  · obtain ⟨m', hm'⟩ := Option.isSome_iff_exists.1 (AList.lookup_isSome.2 hmem)
    rw [hm']
    rfl
  · rw [AList.lookup_insert, AList.lookup_eq_none.2 hmem]
    rfl

theorem lookup_store_ne (t : RegexTable) {key other : Bytes} (h : other ≠ key) (m : PcreMatcher) :
    (t.store key m).lookup other = t.lookup other := by
  unfold RegexTable.store
  split_ifs
  · rfl
  · exact AList.lookup_insert_ne h

/-- The matcher that an event has for an expression of a service. -/
def RegexEvent.gives (pcre : Engine) (s : Service) (regex : Bytes) (e : RegexEvent) :
    Option PcreMatcher :=
  if e.service.name = s.name ∧ e.regex = regex then e.matcher pcre else none

theorem squashTable_regex (e : RegexEvent) (s : Service) (regex : Bytes) :
    ((e.apply pcre teams).squashTable s.team s.name).lookup regex =
      ((teams.squashTable s.team s.name).lookup regex).or (e.gives pcre s regex) := by
  unfold Teams.squashTable RegexEvent.apply RegexEvent.gives
  dsimp only
  rw [data_insert]
  by_cases hname : e.service.name = s.name
  · rw [if_pos (team_eq_of_name_eq hname).symm, TeamData.setSquashTable, hname, AList.lookup_insert,
      team_eq_of_name_eq hname]
    dsimp only [Option.getD_some]
    cases e.matcher pcre with
    | none => simp
    | some m =>
      by_cases hregex : e.regex = regex
      · rw [if_pos ⟨rfl, hregex⟩, hregex]
        exact lookup_store _ _ _
      · rw [if_neg fun h => hregex h.2, Option.or_none]
        exact lookup_store_ne _ (Ne.symm hregex) _
  · have hother : ¬ (e.service.name = s.name ∧ e.regex = regex) := fun h => hname h.1
    rw [if_neg hother, Option.or_none]
    split_ifs with hteam
    · rw [TeamData.setSquashTable, AList.lookup_insert_ne (Ne.symm hname), hteam]
    · rfl

end Tables

/-! ### The tables from the log -/

/-- The call of the squasher of a service that an entry makes. -/
def Entry.urlCall (s : Service) (e : Entry p lib deserializeB64) : Option Call :=
  match e.event with
  | .url u => if u.service.name = s.name then some ⟨e.turn.orders, u.url⟩ else none
  | _ => none

/-- The matcher that an entry has for an expression of a service. -/
def Entry.gives (pcre : Engine) (s : Service) (regex : Bytes) (e : Entry p lib deserializeB64) :
    Option PcreMatcher :=
  match e.event with
  | .regex r => r.gives pcre s regex
  | _ => none

/-- The metric that an entry has for a team, with the reading of the clock. -/
def Entry.mergedInto (team : Bytes) (e : Entry p lib deserializeB64) : Option (ℕ × MetricJson) :=
  match e.event with
  | .aggregate a =>
    if aggregateTeam a.metric.metricName = some team then some (e.turn.now, a.metric) else none
  | _ => none

section Projections

variable {stats : HistStatistics} {owner : BitVec 32} {pcre : Engine}

theorem actsOn_pathSquasher (s : Service) :
    ActsOn (applyEntry stats owner pcre) (fun teams => pathSquasher teams s.team s.name)
      (fun e : Entry p lib deserializeB64 => e.urlCall s)
      fun ps call => .ok (tmPathSquasherAddPath ps call.orders call.urlPath) := by
  intro teams teams' e hstep
  obtain ⟨event, turn, offset, startUs, endUs⟩ := e
  cases event with
  | aggregate a =>
    dsimp only [Entry.urlCall, pathSquasher]
    rw [urls_aggregate hstep]
    rfl
  | url u =>
    obtain rfl := Except.ok.inj hstep
    dsimp only [Entry.urlCall]
    rw [pathSquasher_url]
    split_ifs <;> rfl
  | regex r =>
    obtain rfl := Except.ok.inj hstep
    dsimp only [Entry.urlCall]
    rw [pathSquasher_regex]
    rfl

theorem actsOn_squashTable (s : Service) (regex : Bytes) :
    ActsOn (applyEntry stats owner pcre)
      (fun teams => (teams.squashTable s.team s.name).lookup regex)
      (fun e : Entry p lib deserializeB64 => e.gives pcre s regex)
      fun matcher m => .ok (matcher.or (some m)) := by
  intro teams teams' e hstep
  obtain ⟨event, turn, offset, startUs, endUs⟩ := e
  cases event with
  | aggregate a =>
    dsimp only [Entry.gives, Teams.squashTable]
    rw [urls_aggregate hstep]
    rfl
  | url u =>
    obtain rfl := Except.ok.inj hstep
    dsimp only [Entry.gives]
    rw [squashTable_url]
    rfl
  | regex r =>
    obtain rfl := Except.ok.inj hstep
    dsimp only [Entry.gives]
    rw [squashTable_regex]
    cases r.gives pcre s regex with
    | none =>
      rw [Option.or_none]
      rfl
    | some m => rfl

theorem actsOn_hash (team : Bytes) :
    ActsOn (applyEntry stats owner pcre) (fun teams => teams.hash team)
      (fun e : Entry p lib deserializeB64 => e.mergedInto team)
      fun hash x => applyAggregate stats owner x.1 x.2.metricName x.2.ts x.2.value hash := by
  intro teams teams' e hstep
  obtain ⟨event, turn, offset, startUs, endUs⟩ := e
  cases event with
  | aggregate a =>
    dsimp only [Entry.mergedInto]
    rcases aggregate_cases hstep with ⟨team', hash, hteam, hhash, rfl⟩ | ⟨hteam, rfl⟩
    · have hdata : Teams.hash ((teams.getTeamData team').2.insert team'
          { (teams.getTeamData team').1 with hash }) team =
            if team = team' then hash else teams.hash team := by
        unfold Teams.hash
        rw [data_insert]
        split_ifs <;> rfl
      rw [hdata, hteam]
      by_cases heq : team' = team
      · rw [if_pos (congrArg some heq), if_pos heq.symm, ← heq]
        exact hhash
      · rw [if_neg fun h => heq (Option.some.inj h), if_neg (Ne.symm heq)]
        rfl
    · rw [hteam, if_neg (Ne.symm (Option.some_ne_none team))]
      rfl
  | url u =>
    obtain rfl := Except.ok.inj hstep
    dsimp only [Entry.mergedInto]
    rw [hash_url]
    rfl
  | regex r =>
    obtain rfl := Except.ok.inj hstep
    dsimp only [Entry.mergedInto]
    rw [hash_regex]
    rfl

variable {others : Event → Turn → Json → ℤ → Teams → Outcome (Reply Teams)}
  {otel : Turn → Message → Teams → Outcome (Teams × Bool)} {topic : Bytes} {c c' : Consumer Teams}
  {batches : List (List (Entry p lib deserializeB64))} {offsets : List ℕ}

/-- The reads of a log, with the functions of the program. -/
def readLog (stats : HistStatistics) (owner : BitVec 32) (pcre : Engine)
    (others : Event → Turn → Json → ℤ → Teams → Outcome (Reply Teams))
    (otel : Turn → Message → Teams → Outcome (Teams × Bool)) (topic : Bytes) (c : Consumer Teams)
    (batches : List (List (Entry p lib deserializeB64))) : Outcome (Consumer Teams × List ℕ) :=
  consumeBatches (ownHandlers lib deserializeB64 stats owner pcre others otel) topic c
    (batches.map (List.map Entry.delivery))

/-- What has been read is what has been applied. -/
theorem shared_readLog (hlib : ExactNumbers lib) (htopic : topic ≠ cstr "otlp_spans")
    (c : Consumer Teams) (batches : List (List (Entry p lib deserializeB64))) :
    (readLog stats owner pcre others otel topic c batches).map (fun r => r.1.shared) =
      batches.flatten.foldlM (applyEntry stats owner pcre) c.shared :=
  replayed hlib htopic batches c

theorem applied_of_readLog (hlib : ExactNumbers lib) (htopic : topic ≠ cstr "otlp_spans")
    (h : readLog stats owner pcre others otel topic c batches = .ok (c', offsets)) :
    batches.flatten.foldlM (applyEntry stats owner pcre) c.shared = .ok c'.shared := by
  have hshared := congrArg (Except.map fun r => r.1.shared) h
  rw [shared_readLog hlib htopic] at hshared
  exact hshared

/-- The squasher of a service after a log. -/
theorem pathSquasher_of_log (hlib : ExactNumbers lib) (htopic : topic ≠ cstr "otlp_spans")
    (h : readLog stats owner pcre others otel topic c batches = .ok (c', offsets)) (s : Service) :
    pathSquasher c'.shared s.team s.name = (pathSquasher c.shared s.team s.name).addPaths
      (batches.flatten.filterMap fun e => e.urlCall s) := by
  have hview := view_of_log (actsOn_pathSquasher s) (applied_of_readLog hlib htopic h)
  rw [foldlM_ok] at hview
  exact (Except.ok.inj hview).symm

/-- The table of expressions of a service after a log. -/
theorem squashTable_of_log (hlib : ExactNumbers lib) (htopic : topic ≠ cstr "otlp_spans")
    (h : readLog stats owner pcre others otel topic c batches = .ok (c', offsets)) (s : Service)
    (regex : Bytes) :
    (c'.shared.squashTable s.team s.name).lookup regex =
      firstWins (fun e => e.gives pcre s regex) batches.flatten
        ((c.shared.squashTable s.team s.name).lookup regex) := by
  have hview := view_of_log (actsOn_squashTable s regex) (applied_of_readLog hlib htopic h)
  rw [foldlM_ok, foldl_or] at hview
  exact (Except.ok.inj hview).symm

/-- The metrics of a team after a log. -/
theorem hash_of_log (hlib : ExactNumbers lib) (htopic : topic ≠ cstr "otlp_spans")
    (h : readLog stats owner pcre others otel topic c batches = .ok (c', offsets)) (team : Bytes) :
    (batches.flatten.filterMap fun e => e.mergedInto team).foldlM
      (fun hash x => applyAggregate stats owner x.1 x.2.metricName x.2.ts x.2.value hash)
      (c.shared.hash team) = .ok (c'.shared.hash team) :=
  view_of_log (actsOn_hash team) (applied_of_readLog hlib htopic h)

/-- The event is an aggregate. -/
def OwnEvent.isAggregate : OwnEvent p lib deserializeB64 → Bool
  | .aggregate _ => true
  | _ => false

/-- URLs and expressions are applied without a fault. -/
theorem exists_applied (log : List (Entry p lib deserializeB64))
    (hlog : ∀ e ∈ log, e.event.isAggregate = false) (teams : Teams) :
    ∃ teams', log.foldlM (applyEntry stats owner pcre) teams = .ok teams' := by
  induction log generalizing teams with
  | nil => exact ⟨_, rfl⟩
  | cons e log ih =>
    obtain ⟨hfirst, hrest⟩ := List.forall_mem_cons.1 hlog
    have hstep : ∃ u, applyEntry stats owner pcre teams e = .ok u := by
      unfold applyEntry
      cases hevent : e.event with
      | aggregate a =>
        rw [hevent] at hfirst
        cases hfirst
      | url u => exact ⟨_, rfl⟩
      | regex r => exact ⟨_, rfl⟩
    obtain ⟨u, hu⟩ := hstep
    obtain ⟨teams', hteams'⟩ := ih hrest u
    exact ⟨teams', foldlM_cons_eq_ok.2 ⟨u, hu, hteams'⟩⟩

theorem exists_readLog (hlib : ExactNumbers lib) (htopic : topic ≠ cstr "otlp_spans")
    (c : Consumer Teams) {batches : List (List (Entry p lib deserializeB64))}
    (hlog : ∀ e ∈ batches.flatten, e.event.isAggregate = false) :
    ∃ r, readLog stats owner pcre others otel topic c batches = .ok r := by
  obtain ⟨teams', hteams'⟩ := exists_applied batches.flatten hlog c.shared
  cases hread : readLog stats owner pcre others otel topic c batches with
  | error fault =>
    have hshared := congrArg (Except.map fun r => r.1.shared) hread
    rw [shared_readLog hlib htopic, hteams'] at hshared
    cases hshared
  | ok r => exact ⟨r, rfl⟩

/-- **A log of the program's own messages.**  An instance that reads the texts of a log of
aggregates, URLs and regular expressions, in any batches, has in the end for each service the
squasher of its URLs, for each service and expression the first matcher that was sent, and for each
team the merges of its own metrics; a log without aggregates is read to its end. -/
theorem own_log_projected (hlib : ExactNumbers lib) (htopic : topic ≠ cstr "otlp_spans")
    (c : Consumer Teams) (batches : List (List (Entry p lib deserializeB64))) :
    (∀ c' offsets, readLog stats owner pcre others otel topic c batches = .ok (c', offsets) →
      (∀ s : Service, pathSquasher c'.shared s.team s.name =
        (pathSquasher c.shared s.team s.name).addPaths
          (batches.flatten.filterMap fun e => e.urlCall s)) ∧
      (∀ (s : Service) (regex : Bytes), (c'.shared.squashTable s.team s.name).lookup regex =
        firstWins (fun e => e.gives pcre s regex) batches.flatten
          ((c.shared.squashTable s.team s.name).lookup regex)) ∧
      (∀ team, (batches.flatten.filterMap fun e => e.mergedInto team).foldlM
        (fun hash x => applyAggregate stats owner x.1 x.2.metricName x.2.ts x.2.value hash)
        (c.shared.hash team) = .ok (c'.shared.hash team))) ∧
    ((∀ e ∈ batches.flatten, e.event.isAggregate = false) →
      ∃ r, readLog stats owner pcre others otel topic c batches = .ok r) := by
  exact ⟨fun c' offsets h => ⟨pathSquasher_of_log hlib htopic h, squashTable_of_log hlib htopic h,
    hash_of_log hlib htopic h⟩, fun hlog => exists_readLog hlib htopic c hlog⟩

/-- Texts of fixed bytes. -/
def fixedPrinting : Printing := ⟨fun _ => cstr "0", fun _ => []⟩

/-- Statistics that are not reported. -/
def noStatistics : HistStatistics := ⟨fun _ => .nan, fun _ => .nan, fun _ _ => .nan⟩

/-- The service of the examples. -/
def webApp : Service where
  name := cstr "web-app"
  team := cstr "web"
  plain := plain_of_all (by decide)
  hasTeam := by decide
  fits := by decide

/-- Its URL, as the first message of a topic. -/
def gamesUrl : Entry fixedPrinting reference fun _ => 0 where
  event := .url ⟨webApp, cstr "/v1/games", by decide, plain_of_all (by decide)⟩
  turn := ⟨0, fun _ => .listed⟩
  offset := 0
  startUs := 0
  endUs := 0

/-- An expression for it, as the second one. -/
def gamesRegex : Entry fixedPrinting reference fun _ => 0 where
  event := .regex ⟨webApp, cstr "(v1/[^/]+)", cstr "v1", by decide, plain_of_all (by decide),
    plain_of_all (by decide), by decide⟩
  turn := ⟨0, fun _ => .listed⟩
  offset := 1
  startUs := 0
  endUs := 0

/-- The log of the examples, read with other functions that do nothing. -/
def readGames (topic : String) (batches : List (List (Entry fixedPrinting reference fun _ => 0))) :
    Outcome (Consumer Teams × List ℕ) :=
  readLog noStatistics 7 reference (fun _ _ _ _ teams => .ok ⟨teams, 0, 0, false⟩)
    (fun _ _ teams => .ok (teams, false)) (cstr topic) (.start ∅) batches

theorem own_log_projected_games :
    ∃ r, readGames "tracemate_urls" [[gamesUrl], [gamesRegex]] = .ok r ∧
      pathSquasher r.1.shared webApp.team webApp.name =
        (tmPathSquasherAlloc pathSquashCardinalityFactor).addPaths
          [⟨fun _ => .listed, cstr "/v1/games"⟩] := by
  obtain ⟨hviews, hread⟩ := @own_log_projected fixedPrinting reference (fun _ => 0) noStatistics 7
    reference (fun _ _ _ _ teams => .ok ⟨teams, 0, 0, false⟩) (fun _ _ teams => .ok (teams, false))
    (cstr "tracemate_urls") exactNumbers_reference (by decide) (.start ∅) [[gamesUrl], [gamesRegex]]
  obtain ⟨r, hr⟩ := hread (List.forall_mem_cons.2 ⟨rfl, List.forall_mem_singleton.2 rfl⟩)
  refine ⟨r, hr, ?_⟩
  rw [(hviews _ _ hr).1 webApp]
  rfl

/-- The name that the key of a message begins with: its service. -/
def OwnEvent.serviceName : OwnEvent p lib deserializeB64 → Option Bytes
  | .aggregate _ => none
  | .url e => some e.service.name
  | .regex e => some e.service.name

theorem serviceName_of_urlCall {s : Service} {e : Entry p lib deserializeB64}
    (h : (e.urlCall s).isSome) : e.event.serviceName = some s.name := by
  obtain ⟨event, turn, offset, startUs, endUs⟩ := e
  cases event with
  | url u =>
    dsimp only [Entry.urlCall] at h
    split_ifs at h with hname
    · exact congrArg some hname
    · cases h
  | aggregate a => cases h
  | regex r => cases h

theorem serviceName_of_gives {s : Service} {regex : Bytes} {e : Entry p lib deserializeB64}
    (h : (e.gives pcre s regex).isSome) : e.event.serviceName = some s.name := by
  obtain ⟨event, turn, offset, startUs, endUs⟩ := e
  cases event with
  | regex r =>
    dsimp only [Entry.gives, RegexEvent.gives] at h
    split_ifs at h with hname
    · exact congrArg some hname.1
    · cases h
  | aggregate a => cases h
  | url u => cases h

end Projections

/-- A URL of another service. -/
def otherUrl : Entry fixedPrinting reference fun _ => 0 where
  event := .url ⟨⟨cstr "tv-api", cstr "tv", plain_of_all (by decide), by decide, by decide⟩,
    cstr "/v2/channels", by decide, plain_of_all (by decide)⟩
  turn := ⟨0, fun _ => .listed⟩
  offset := 2
  startUs := 0
  endUs := 0

theorem exists_readGames {topic : String} (htopic : cstr topic ≠ cstr "otlp_spans")
    (batches : List (List (Entry fixedPrinting reference fun _ => 0)))
    (hlog : ∀ e ∈ batches.flatten, e.event.isAggregate = false) :
    ∃ r, readGames topic batches = .ok r :=
  exists_readLog exactNumbers_reference htopic _ hlog

/-- The shard of the service. -/
def forWebApp (e : Entry fixedPrinting reference fun _ => 0) : Bool :=
  e.event.serviceName = some webApp.name

/-- **Messages that come again.**  An instance that reads events of a log more than once, and new
ones after them, in batches of its own, has the same expressions for every service as an instance
that reads the log once. -/
theorem regexes_redelivered (hlib : ExactNumbers lib) {pcre : Engine} {stats stats' : HistStatistics}
    {owner owner' : BitVec 32} {others others' : Event → Turn → Json → ℤ → Teams → Outcome (Reply Teams)}
    {otel otel' : Turn → Message → Teams → Outcome (Teams × Bool)} {topic topic' : Bytes}
    (htopic : topic ≠ cstr "otlp_spans") (htopic' : topic' ≠ cstr "otlp_spans")
    {c c' d' : Consumer Teams} {batches batches' : List (List (Entry p lib deserializeB64))}
    {offsets offsets' : List ℕ}
    (hagain : AtLeastOnce (fun e e' => e.event = e'.event) batches.flatten batches'.flatten)
    (h : readLog stats owner pcre others otel topic c batches = .ok (c', offsets))
    (h' : readLog stats' owner' pcre others' otel' topic' c batches' = .ok (d', offsets'))
    (s : Service) (regex : Bytes) :
    (d'.shared.squashTable s.team s.name).lookup regex =
      (c'.shared.squashTable s.team s.name).lookup regex := by
  have hgives : ∀ e e' : Entry p lib deserializeB64, e.event = e'.event →
      e.gives pcre s regex = e'.gives pcre s regex := by
    intro e e' hevent
    rw [Entry.gives, Entry.gives, hevent]
  rw [squashTable_of_log hlib htopic h, squashTable_of_log hlib htopic' h']
  exact firstWins_atLeastOnce hgives hagain _

theorem regexes_redelivered_games :
    ∃ r r', readGames "tracemate_regexes" [[gamesRegex]] = .ok r ∧
      readGames "tracemate_regexes" [[gamesRegex], [gamesRegex, gamesRegex]] = .ok r' ∧
        ∀ regex, (r'.1.shared.squashTable webApp.team webApp.name).lookup regex =
          (r.1.shared.squashTable webApp.team webApp.name).lookup regex := by
  have htopic : cstr "tracemate_regexes" ≠ cstr "otlp_spans" := by decide
  obtain ⟨⟨c', offsets⟩, h⟩ := exists_readGames htopic [[gamesRegex]]
    (List.forall_mem_singleton.2 rfl)
  obtain ⟨⟨d', offsets'⟩, h'⟩ := exists_readGames htopic
    [[gamesRegex], [gamesRegex, gamesRegex]] (List.forall_mem_cons.2 ⟨rfl,
      List.forall_mem_cons.2 ⟨rfl, List.forall_mem_singleton.2 rfl⟩⟩)
  have hagain : AtLeastOnce (fun e e' => e.event = e'.event) [gamesRegex]
      [gamesRegex, gamesRegex, gamesRegex] := by
    have hfirst : AtLeastOnce (fun e e' => e.event = e'.event) [gamesRegex] [gamesRegex] :=
      .first .nil rfl
    have hmem : gamesRegex ∈ [gamesRegex] := List.mem_singleton_self _
    exact .again (.again hfirst hmem rfl) hmem rfl
  exact ⟨_, _, h, h', regexes_redelivered exactNumbers_reference htopic htopic hagain h h' webApp⟩

end Tracemate.Kafka
