import Tracemate.Lib.JsonNumber
import Tracemate.Metric.Escape
import Tracemate.Metric.Flush

/-!
# The documents of a flush

One team's turn of `tm_flush_team_metrics` while no other thread updates its table, with the bytes
of the documents it hands to `journal_output_metrics`.

* `metricText`: the bytes that `metric_to_json` prints;
* `Turn`, `flushTeam`: the local variables and the turn, over `Turn.visit`, the loop body;
* `Accumulated`: the invariant of the loop;
* `flush_partitions`: the documents of a turn are a partition of the due entries, and the entries
  of the journaled ones are stamped.
-/

namespace Tracemate.Metric

open CStr JsonC

/-! ### The text of a metric -/

/-- What `printf` makes of a number with `%g`, and `hist_serialize_b64` of a histogram. -/
structure Printing where
  printG : ℚ → Bytes
  serializeB64 : Multiset ℕ → Bytes

/-- `%d`; the digits alone are `%u` and `%llu`. -/
def printD (i : ℤ) : Bytes := if i < 0 then 45 :: digitsText i.natAbs else digitsText i.natAbs

section Text

variable (p : Printing)

/-- What the branches over the type print. -/
def valueText (owner : BitVec 32) (ts : ℕ) : JsonValue → Bytes
  | .number value count =>
    cstr "\"_type\":\"n\"," ++ cstr "\"_owner\": " ++ digitsText owner.toNat ++ cstr "," ++
      (match count with
      | some count => cstr "\"_count\": " ++ printD count.toInt ++ cstr ","
      | none => []) ++
      cstr "\"_value\": " ++ p.printG value ++ cstr "," ++ cstr "\"_ts\": " ++ digitsText ts
  | .text value =>
    cstr "\"_type\":\"s\"," ++ cstr "\"_owner\": " ++ digitsText owner.toNat ++ cstr "," ++
      cstr "\"_value\": \"" ++ jsonEscapeStr value ++ cstr "\"," ++ cstr "\"_ts\": " ++ digitsText ts
  | .integer value =>
    cstr "\"_type\":\"L\"," ++ cstr "\"_value\": " ++ digitsText value.toNat ++ cstr "," ++
      cstr "\"_owner\": " ++ digitsText owner.toNat ++ cstr "," ++ cstr "\"_ts\": " ++ digitsText ts
  | .histogram value =>
    cstr "\"_type\":\"h\"," ++ cstr "\"_ts\": " ++ digitsText ts ++ cstr "," ++
      cstr "\"_owner\": " ++ digitsText owner.toNat ++ cstr "," ++
      cstr "\"_value\":\"" ++ p.serializeB64 value ++ cstr "\""

/-- The bytes that `metric_to_json` adds to the buffer. -/
def metricText (j : MetricJson) : Bytes :=
  cstr "\"" ++ jsonEscapeStr j.metricName ++ cstr "\":\x7b" ++ valueText p j.owner j.ts j.value ++
    cstr "\x7d"

end Text

/-- A document of the texts of metrics. -/
def documentText (metrics : List Bytes) : Bytes :=
  cstr "\x7b" ++ (cstr ",").intercalate metrics ++ cstr "\x7d"

/-! ### One turn -/

/-- What a turn reads: the clock at the start of the flush, `rand()` at the visit of an entry, the
answer of `tm_kafka_produce` for an entry, the answers of `jlog_ctx_write`, where the journal is
open, and the clock after each write. -/
structure TurnEnv where
  printing : Printing
  now : ℕ
  rand : MetricKey → ℕ
  produced : MetricKey → Bool
  jlog : Option (ℕ → Bool)
  nowMs : ℕ → ℕ

/-- A call of `journal_output_metrics`: the bytes, `json_expired_list`, whose length is the count
that is handed over, the value that is returned, and the clock after it. -/
structure JournalCall where
  json : Bytes
  expired : List MetricKey
  journaled : Bool
  flushedMs : ℕ
  deriving DecidableEq

/-- The local variables of a turn, the team's table and the calls so far. -/
structure Turn where
  json : Bytes
  comma : Bool
  jsonExpired : List MetricKey
  kafkaExpired : List MetricKey
  table : MetricTable
  calls : List JournalCall

/-- `journal_output_metrics`; `written` is the answer of `jlog_ctx_write`. -/
def journalOutputMetrics (jlog : Option Bool) (json : Bytes) (count : ℕ) : Bool :=
  match jlog with
  | none => false
  | some written => if json.length < 3 ∨ count = 0 then true else written

/-- The loop that marks the entries of a document as flushed. -/
def stampEntries (t : MetricTable) (keys : List MetricKey) (flushedMs : ℕ) : MetricTable :=
  keys.foldl (fun t key => stampEntry t key flushedMs) t

namespace Turn

variable (env : TurnEnv)

/-- The document is closed and handed to the journal, and its entries are stamped if it is
journaled. -/
def write (st : Turn) : Turn × Bool :=
  let json := st.json ++ cstr "\x7d"
  let journaled := journalOutputMetrics (env.jlog.map fun f => f st.calls.length) json
    st.jsonExpired.length
  let flushedMs := env.nowMs st.calls.length
  let table := if journaled then stampEntries st.table st.jsonExpired flushedMs else st.table
  ({ st with json, table, calls := st.calls ++ [⟨json, st.jsonExpired, journaled, flushedMs⟩] },
    journaled)

/-- The end of the loop body; `false` is `goto next_team`. -/
def cutOver (st : Turn) : Turn × Bool :=
  if st.json.length > twoMb then
    match st.write env with
    | (st, true) => ({ st with json := cstr "\x7b", jsonExpired := [], comma := false }, true)
    | (st, false) => (st, false)
  else (st, true)

/-- A due entry goes into the document. -/
def addMetric (st : Turn) (k : MetricKey) (v : MetricValue) : Turn :=
  let json := if st.comma then st.json ++ cstr "," else st.json
  { st with
    comma := true
    jsonExpired := st.jsonExpired ++ [k]
    json := json ++
      metricText env.printing (metricToJson k v true false (env.rand k % 30000)).1 }

/-- A due aggregate is sent to Kafka and reset, and stamped if Kafka has accepted it. -/
def sendAggregate (st : Turn) (k : MetricKey) (v : MetricValue) : Turn :=
  let v := resetValue (metricToJson k v false true 0).2
  let v := if env.produced k then { v with flushedMs := env.now } else v
  { st with table := st.table.insert k v }

/-- The loop body for one entry; `false` is `goto next_team`. -/
def visit (st : Turn) (k : MetricKey) (v : MetricValue) : Turn × Bool :=
  if Expired env.now v then
    ({ st with
      table := st.table.insert k { v with scheduledForDestruction := true }
      kafkaExpired := st.kafkaExpired ++ [k] }, true)
  else if AlreadyFlushed v then (st, true)
  else if k.aggregate = false then
    if DueForJson env.now k v then (st.addMetric env k v).cutOver env else st.cutOver env
  else if DueForKafka env.now v then (st.sendAggregate env k v).cutOver env
  else st.cutOver env

/-- The loop over the entries, in the order of the hash table. -/
def loop (st : Turn) : List MetricKey → Turn × Bool
  | [] => (st, true)
  | k :: order =>
    match st.table.lookup k with
    | none => st.loop order
    | some v =>
      match st.visit env k v with
      | (st, true) => st.loop order
      | (st, false) => (st, false)

/-- The label `next_team`: the expired entries are removed. -/
def nextTeam (st : Turn) : Turn :=
  { st with table := st.kafkaExpired.foldl (fun t k => t.erase k) st.table }

/-- The variables at the start of a turn. -/
def start (t : MetricTable) : Turn := ⟨cstr "\x7b", false, [], [], t, []⟩

end Turn

/-- One team's turn of `tm_flush_team_metrics`. -/
def flushTeam (env : TurnEnv) (order : List MetricKey) (t : MetricTable) : Turn :=
  match (Turn.start t).loop env order with
  | (st, true) => (st.write env).1.nextTeam
  | (st, false) => st.nextTeam

/-! ### What a turn should do -/

section Spec

variable (env : TurnEnv) (t : MetricTable)

/-- The entry is not an aggregate, and due. -/
def due (k : MetricKey) : Bool :=
  match t.lookup k with
  | some v => !k.aggregate && !decide (AlreadyFlushed v) && decide (DueForJson env.now k v)
  | none => false

/-- The text of an entry. -/
def rendering (k : MetricKey) : Bytes :=
  match t.lookup k with
  | some v => metricText env.printing (metricToJson k v true false (env.rand k % 30000)).1
  | none => []

end Spec

/-- The answer of the journal to the call with this number: whether it is open and the document was
written, and the clock after it. -/
def TurnEnv.answer (env : TurnEnv) (i : ℕ) : Bool × ℕ :=
  ((env.jlog.map fun f => f i).getD false, env.nowMs i)

/-- The entry `v` is stamped as `v'` if one of the calls has journaled it, and keeps its stamp
otherwise. -/
def Stamped (calls : List JournalCall) (k : MetricKey) (v v' : MetricValue) : Prop :=
  (∃ c ∈ calls, c.journaled = true ∧ k ∈ c.expired ∧ v'.flushedMs = c.flushedMs) ∨
    ((∀ c ∈ calls, c.journaled = true → k ∉ c.expired) ∧ v'.flushedMs = v.flushedMs)

variable {env : TurnEnv} {t : MetricTable} {order visited : List MetricKey} {st : Turn}
  {k : MetricKey} {v v' : MetricValue}

/-! ### Stamps -/

theorem lookup_stampEntry (t : MetricTable) (key : MetricKey) (flushedMs : ℕ) (k : MetricKey) :
    (stampEntry t key flushedMs).lookup k =
      if k = key then (t.lookup k).map fun v => { v with flushedMs } else t.lookup k := by
  unfold stampEntry
  split_ifs with hk
  · subst hk
    cases hlookup : t.lookup k with
    | none => simp [hlookup]
    | some v => simp
  · cases hlookup : t.lookup key with
    | none => rfl
    | some v => exact AList.lookup_insert_ne hk

theorem lookup_stampEntries (t : MetricTable) (keys : List MetricKey) (flushedMs : ℕ)
    (k : MetricKey) :
    (stampEntries t keys flushedMs).lookup k =
      if k ∈ keys then (t.lookup k).map fun v => { v with flushedMs } else t.lookup k := by
  induction keys generalizing t with
  | nil => rfl
  | cons key keys ih =>
    have hcons : stampEntries t (key :: keys) flushedMs =
        stampEntries (stampEntry t key flushedMs) keys flushedMs := rfl
    rw [hcons, ih, lookup_stampEntry]
    by_cases hkey : k = key
    · subst hkey
      cases hlookup : t.lookup k with
      | none => simp
      | some v => simp
    · simp [hkey]

/-- With another call the entries of its document are stamped, if they are journaled. -/
theorem Stamped.append {calls : List JournalCall} {c : JournalCall} (h : Stamped calls k v v')
    (hc : c.journaled = true → k ∉ c.expired) : Stamped (calls ++ [c]) k v v' := by
  rcases h with ⟨c', hc', hjournaled, hk, hflushed⟩ | ⟨hnot, hflushed⟩
  · exact .inl ⟨c', List.mem_append_left _ hc', hjournaled, hk, hflushed⟩
  · refine .inr ⟨fun c' hc' hjournaled => ?_, hflushed⟩
    rcases List.mem_append.1 hc' with hc' | hc'
    · exact hnot c' hc' hjournaled
    · obtain rfl := List.mem_singleton.1 hc'
      exact hc hjournaled

theorem due_of_lookup (env : TurnEnv) (hv : t.lookup k = some v) : due env t k =
    (!k.aggregate && !decide (AlreadyFlushed v) && decide (DueForJson env.now k v)) := by
  unfold due
  rw [hv]

/-- A due entry that is stamped after its last update has a later stamp than before. -/
theorem flushedMs_lt_of_due {flushedMs : ℕ} (hdue : due env t k = true) (hv : t.lookup k = some v)
    (hpos : 0 < flushedMs) (hseen : v.lastSeen ≤ flushedMs) : v.flushedMs < flushedMs := by
  unfold due at hdue
  rw [hv] at hdue
  simp only [Bool.and_eq_true, Bool.not_eq_true', decide_eq_false_iff_not] at hdue
  have hnot : ¬ (v.flushedMs > 0 ∧ v.flushedMs ≥ v.lastSeen) := hdue.1.2
  omega

/-! ### The text of a document -/

theorem intercalate_append_singleton (sep e : Bytes) {es : List Bytes} (h : es ≠ []) :
    sep.intercalate (es ++ [e]) = sep.intercalate es ++ (sep ++ e) := by
  induction es with
  | nil => exact absurd rfl h
  | cons e' es ih =>
    cases es with
    | nil => simp [List.intercalate_cons_cons, List.intercalate_singleton]
    | cons e'' es =>
      have hne : e'' :: es ++ [e] ≠ [] := by simp
      rw [List.cons_append, List.intercalate_cons_of_ne_nil hne, ih (List.cons_ne_nil e'' es),
        List.intercalate_cons_cons]
      simp only [List.append_assoc]

/-- A document of a metric is not taken for an empty one. -/
theorem three_le_length_documentText {metrics : List Bytes} (h : ∃ e ∈ metrics, e ≠ []) :
    3 ≤ (documentText metrics).length := by
  obtain ⟨e, he, hne⟩ := h
  have hlen : 0 < ((cstr ",").intercalate metrics).length := by
    induction metrics with
    | nil => cases he
    | cons e' metrics ih =>
      have hpos := List.length_pos_iff.2 hne
      cases metrics with
      | nil =>
        obtain rfl := List.mem_singleton.1 he
        rwa [List.intercalate_singleton]
      | cons e'' metrics =>
        have hcomma : (cstr ",").length = 1 := by decide
        rw [List.intercalate_cons_cons]
        simp only [List.length_append, hcomma]
        omega
  have hopen : (cstr "\x7b").length = 1 := by decide
  have hclose : (cstr "\x7d").length = 1 := by decide
  unfold documentText
  simp only [List.length_append, hopen, hclose]
  omega

theorem rendering_of_lookup (hv : t.lookup k = some v) : rendering env t k =
    metricText env.printing (metricToJson k v true false (env.rand k % 30000)).1 := by
  unfold rendering
  rw [hv]

theorem rendering_ne_nil (hdue : due env t k = true) : rendering env t k ≠ [] := by
  unfold due at hdue
  unfold rendering
  cases hv : t.lookup k with
  | none => simp [hv] at hdue
  | some v =>
    intro h
    have hlen := congrArg List.length h
    have hquote : (cstr "\"").length = 1 := by decide
    simp only [metricText, List.length_append, hquote, List.length_nil] at hlen
    omega

/-! ### The invariant of the loop -/

/-- What holds of the calls and of the table all the time: each call hands over the document of its
entries and is answered by the journal, each entry that is not an aggregate has its stamp, and no
due entry is marked for removal. -/
structure Recorded (env : TurnEnv) (t : MetricTable) (st : Turn) : Prop where
  document : ∀ c ∈ st.calls, c.json = documentText (c.expired.map (rendering env t))
  answer : ∀ i c, st.calls[i]? = some c → c.expired ≠ [] →
    (c.journaled, c.flushedMs) = env.answer i
  stamped : ∀ k v, t.lookup k = some v → k.aggregate = false →
    ∃ v', st.table.lookup k = some v' ∧ Stamped st.calls k v v'
  removed : ∀ k ∈ st.kafkaExpired, due env t k = false

/-- What holds between two visits: the buffer has the texts of the entries in `json_expired_list`,
and these and the documents so far are the due entries among those visited. -/
structure Accumulated (env : TurnEnv) (t : MetricTable) (visited : List MetricKey)
    (st : Turn) : Prop extends Recorded env t st where
  json : st.json = cstr "\x7b" ++ (cstr ",").intercalate (st.jsonExpired.map (rendering env t))
  comma : st.comma = true ↔ st.jsonExpired ≠ []
  parts : st.calls.flatMap JournalCall.expired ++ st.jsonExpired = visited.filter (due env t)
  journaled : ∀ c ∈ st.calls, c.journaled = true
  unvisited : ∀ k ∉ visited, st.table.lookup k = t.lookup k

/-- What holds after a write: the documents are the due entries among those visited, and no write
but the last one has failed. -/
structure Handed (env : TurnEnv) (t : MetricTable) (visited : List MetricKey) (journaled : Bool)
    (st : Turn) : Prop extends Recorded env t st where
  parts : st.calls.flatMap JournalCall.expired = visited.filter (due env t)
  earlier : ∀ c ∈ st.calls.dropLast, c.journaled = true
  last : ∃ c, st.calls.getLast? = some c ∧ c.journaled = journaled

/-- The invariant after a visit, or after the write that has failed. -/
def AfterVisit (env : TurnEnv) (t : MetricTable) (visited : List MetricKey) (r : Turn × Bool) :
    Prop :=
  (r.2 = true → Accumulated env t visited r.1) ∧ (r.2 = false → Handed env t visited false r.1)

theorem accumulated_start (env : TurnEnv) (t : MetricTable) :
    Accumulated env t [] (Turn.start t) where
  document c hc := by cases hc
  answer i c hc := by cases hc
  stamped k v hv _ := ⟨v, hv, .inr ⟨fun c hc => absurd hc List.not_mem_nil, rfl⟩⟩
  removed k hk := by cases hk
  json := by simp [Turn.start, List.intercalate_nil]
  comma := by simp [Turn.start]
  parts := rfl
  journaled c hc := by cases hc
  unvisited k _ := rfl

theorem Accumulated.due_of_mem (h : Accumulated env t visited st) (hk : k ∈ st.jsonExpired) :
    k ∈ visited ∧ due env t k = true := by
  have hmem : k ∈ visited.filter (due env t) := h.parts ▸ List.mem_append_right _ hk
  exact List.mem_filter.1 hmem

/-- The document that is closed is one of its entries. -/
theorem Accumulated.closed (h : Accumulated env t visited st) :
    st.json ++ cstr "\x7d" = documentText (st.jsonExpired.map (rendering env t)) := by
  rw [h.json]
  rfl

theorem Accumulated.write (h : Accumulated env t visited st) :
    Handed env t visited (st.write env).2 (st.write env).1 ∧
      ∀ k ∉ visited, (st.write env).1.table.lookup k = t.lookup k := by
  have hlookup : ∀ k, (st.write env).1.table.lookup k =
      if (st.write env).2 = true ∧ k ∈ st.jsonExpired then
        (st.table.lookup k).map fun v => { v with flushedMs := env.nowMs st.calls.length }
      else st.table.lookup k := by
    intro k
    have htable : (st.write env).1.table = if (st.write env).2 = true then
        stampEntries st.table st.jsonExpired (env.nowMs st.calls.length) else st.table := rfl
    rw [htable]
    by_cases hj : (st.write env).2 = true
    · rw [if_pos hj, lookup_stampEntries]
      simp only [hj, true_and]
    · rw [if_neg hj, if_neg fun h => hj h.1]
  have hcalls : (st.write env).1.calls = st.calls ++
      [⟨st.json ++ cstr "\x7d", st.jsonExpired, (st.write env).2, env.nowMs st.calls.length⟩] := rfl
  refine ⟨⟨⟨?_, ?_, ?_, h.removed⟩, ?_, ?_, ?_⟩, ?_⟩
  · intro c hc
    rw [hcalls] at hc
    rcases List.mem_append.1 hc with hc | hc
    · exact h.document c hc
    · rw [List.mem_singleton.1 hc]
      exact h.closed
  · intro i c hc hne
    rw [hcalls] at hc
    rcases Nat.lt_trichotomy i st.calls.length with hi | hi | hi
    · rw [List.getElem?_append_left hi] at hc
      exact h.answer i c hc hne
    · subst hi
      rw [List.getElem?_concat_length] at hc
      obtain rfl := Option.some.inj hc
      dsimp only at hne ⊢
      -- the document is not taken for an empty one
      obtain ⟨k, hk⟩ := List.exists_mem_of_ne_nil _ hne
      have hlong := three_le_length_documentText ⟨_, List.mem_map_of_mem hk,
        rendering_ne_nil (h.due_of_mem hk).2⟩
      rw [← h.closed] at hlong
      unfold TurnEnv.answer Turn.write journalOutputMetrics
      have hcount : st.jsonExpired.length ≠ 0 := fun h0 => hne (List.length_eq_zero_iff.1 h0)
      cases env.jlog with
      | none => rfl
      | some f =>
        dsimp only [Option.map_some, Option.getD_some]
        rw [if_neg (by omega)]
    · rw [List.getElem?_eq_none (by simp; omega)] at hc
      cases hc
  · intro k v hv hagg
    obtain ⟨v', hv', hstamped⟩ := h.stamped k v hv hagg
    rw [hlookup, hcalls, hv']
    by_cases hk : (st.write env).2 = true ∧ k ∈ st.jsonExpired
    · rw [if_pos hk]
      exact ⟨_, rfl, .inl ⟨_, List.mem_append_right _ (List.mem_singleton_self _), hk.1, hk.2, rfl⟩⟩
    · rw [if_neg hk]
      exact ⟨v', rfl, hstamped.append fun hj hmem => hk ⟨hj, hmem⟩⟩
  · rw [hcalls, List.flatMap_append, List.flatMap_singleton]
    exact h.parts
  · rw [hcalls, List.dropLast_concat]
    exact h.journaled
  · rw [hcalls, List.getLast?_concat]
    exact ⟨_, rfl, rfl⟩
  · intro k hk
    rw [hlookup, if_neg fun hmem => hk (h.due_of_mem hmem.2).1]
    exact h.unvisited k hk

theorem Accumulated.cutOver (h : Accumulated env t visited st) :
    AfterVisit env t visited (st.cutOver env) := by
  obtain ⟨hhanded, hunvisited⟩ := h.write
  unfold Turn.cutOver
  split_ifs with hlong
  · split
    · rename_i st' hwrite
      rw [hwrite] at hhanded hunvisited
      refine ⟨fun _ => ?_, fun hfalse => by cases hfalse⟩
      have hjournaled : ∀ c ∈ st'.calls, c.journaled = true := by
        obtain ⟨c, hlast, hc⟩ := hhanded.last
        obtain ⟨calls, hcalls⟩ := List.getLast?_eq_some_iff.1 hlast
        intro c' hc'
        rw [hcalls] at hc'
        rcases List.mem_append.1 hc' with hc' | hc'
        · apply hhanded.earlier
          rwa [hcalls, List.dropLast_concat]
        · rw [List.mem_singleton.1 hc']
          exact hc
      exact {
        document := hhanded.document
        answer := hhanded.answer
        stamped := hhanded.stamped
        removed := hhanded.removed
        json := by simp [List.intercalate_nil]
        comma := by simp
        parts := (List.append_nil _).trans hhanded.parts
        journaled := hjournaled
        unvisited := hunvisited }
    · rename_i st' hwrite
      rw [hwrite] at hhanded
      exact ⟨fun htrue => absurd htrue Bool.false_ne_true, fun _ => hhanded⟩
  · exact ⟨fun _ => h, fun hfalse => by cases hfalse⟩

/-- The visit of an entry that is not due changes nothing that the invariant is about. -/
theorem Accumulated.skip (h : Accumulated env t visited st) (hdue : due env t k = false) :
    Accumulated env t (visited ++ [k]) st where
  toRecorded := h.toRecorded
  json := h.json
  comma := h.comma
  parts := by
    rw [List.filter_append, h.parts]
    simp [hdue]
  journaled := h.journaled
  unvisited k' hk' := h.unvisited k' fun hmem => hk' (List.mem_append_left _ hmem)

/-- A new value of an entry that has been visited, with the stamp that it had. -/
theorem Accumulated.insert (h : Accumulated env t visited st) (hk : k ∈ visited)
    (hv' : k.aggregate = false → ∀ w, st.table.lookup k = some w → v'.flushedMs = w.flushedMs) :
    Accumulated env t visited { st with table := st.table.insert k v' } where
  document := h.document
  answer := h.answer
  stamped := by
    intro k' w hw hagg
    obtain ⟨w', hw', hstamped⟩ := h.stamped k' w hw hagg
    by_cases hkk : k' = k
    · subst hkk
      refine ⟨v', AList.lookup_insert _, ?_⟩
      unfold Stamped
      rw [hv' hagg w' hw']
      exact hstamped
    · refine ⟨w', ?_, hstamped⟩
      dsimp only
      rw [AList.lookup_insert_ne hkk, hw']
  removed := h.removed
  json := h.json
  comma := h.comma
  parts := h.parts
  journaled := h.journaled
  unvisited := by
    intro k' hk'
    have hne : k' ≠ k := fun heq => hk' (heq ▸ hk)
    dsimp only
    rw [AList.lookup_insert_ne hne]
    exact h.unvisited k' hk'

/-- A due entry that goes into the document. -/
theorem Accumulated.addMetric (h : Accumulated env t visited st) (hv : t.lookup k = some v)
    (hdue : due env t k = true) :
    Accumulated env t (visited ++ [k]) (st.addMetric env k v) where
  document := h.document
  answer := h.answer
  stamped := h.stamped
  removed := h.removed
  json := by
    unfold Turn.addMetric
    dsimp only
    rw [List.map_append, List.map_singleton, rendering_of_lookup hv]
    by_cases hempty : st.jsonExpired = []
    · have hcomma : ¬ st.comma = true := fun hc => h.comma.1 hc hempty
      rw [if_neg hcomma, h.json, hempty]
      simp [List.intercalate_nil, List.intercalate_singleton]
    · have hmap : st.jsonExpired.map (rendering env t) ≠ [] := by simpa using hempty
      rw [if_pos (h.comma.2 hempty), h.json, intercalate_append_singleton _ _ hmap]
      simp only [List.append_assoc]
  comma := by simp [Turn.addMetric]
  parts := by
    have hparts := h.parts
    unfold Turn.addMetric
    dsimp only
    rw [← List.append_assoc, hparts, List.filter_append]
    simp [hdue]
  journaled := h.journaled
  unvisited k' hk' := h.unvisited k' fun hmem => hk' (List.mem_append_left _ hmem)

/-- A visit keeps the invariant, or ends with the first write that fails. -/
theorem Accumulated.visit (h : Accumulated env t visited st) (hk : k ∉ visited)
    (hv : st.table.lookup k = some v) : AfterVisit env t (visited ++ [k]) (st.visit env k v) := by
  have hvt : t.lookup k = some v := (h.unvisited k hk).symm.trans hv
  have hmem : k ∈ visited ++ [k] := List.mem_append_right _ (List.mem_singleton_self k)
  have hdue := due_of_lookup env hvt
  unfold Turn.visit
  split_ifs with hexp hflushed hagg hjson hkafka
  · -- an expired entry has been flushed
    have hflushed : AlreadyFlushed v := ⟨hexp.1, hexp.2.1⟩
    have hnot : due env t k = false := by simp [hdue, hflushed]
    have hskip : Accumulated env t (visited ++ [k])
        { st with table := st.table.insert k { v with scheduledForDestruction := true } } :=
      (h.skip hnot).insert hmem fun _ w hw => by rw [Option.some.inj (hv.symm.trans hw)]
    refine ⟨fun _ => { hskip with removed := ?_ }, fun hfalse => by cases hfalse⟩
    intro k' hk'
    rcases List.mem_append.1 hk' with hk' | hk'
    · exact h.removed k' hk'
    · rw [List.mem_singleton.1 hk']
      exact hnot
  · exact ⟨fun _ => h.skip (by simp [hdue, hflushed]), fun hfalse => by cases hfalse⟩
  · exact (h.addMetric hvt (by simp [hdue, hflushed, hagg, hjson])).cutOver
  · exact (h.skip (by simp [hdue, hjson])).cutOver
  · have hskip := h.skip (k := k) (by simp [hdue, hagg])
    exact (hskip.insert hmem fun hf => absurd hf hagg).cutOver
  · exact (h.skip (by simp [hdue, hagg])).cutOver

/-- The loop visits all entries, or ends with the first write that fails. -/
theorem Accumulated.loop (h : Accumulated env t visited st) (hnodup : (visited ++ order).Nodup)
    (hmem : ∀ k ∈ order, k ∈ t) :
    ∃ rest, rest <+: order ∧ AfterVisit env t (visited ++ rest) (st.loop env order) ∧
      ((st.loop env order).2 = true → rest = order) := by
  induction order generalizing visited st with
  | nil =>
    refine ⟨[], List.prefix_rfl, ⟨fun _ => ?_, fun hfalse => by cases hfalse⟩, fun _ => rfl⟩
    rwa [List.append_nil]
  | cons k order ih =>
    have hk : k ∉ visited := fun hk =>
      (List.nodup_append.1 hnodup).2.2 k hk k List.mem_cons_self rfl
    rw [List.forall_mem_cons] at hmem
    obtain ⟨v, hv⟩ := Option.isSome_iff_exists.1 (AList.lookup_isSome.2 hmem.1)
    rw [← h.unvisited k hk] at hv
    have hvisit := h.visit hk hv
    rw [Turn.loop, hv]
    dsimp only
    split
    · rename_i st' hst'
      rw [hst'] at hvisit
      have hnodup' : (visited ++ [k] ++ order).Nodup := by rwa [List.append_assoc]
      obtain ⟨rest, hrest, hafter, hall⟩ := ih (hvisit.1 rfl) hnodup' hmem.2
      refine ⟨k :: rest, (List.prefix_cons_inj k).2 hrest, ?_, fun htrue => by rw [hall htrue]⟩
      rwa [List.append_assoc] at hafter
    · rename_i st' hst'
      rw [hst'] at hvisit
      exact ⟨[k], ⟨order, rfl⟩, hvisit, fun htrue => by cases htrue⟩

/-! ### The whole turn -/

/-- The turn hands over the due entries that are not aggregates in parts: each call has the
document of its entries; the parts are, one after the other, the due entries among those visited up
to the first write that failed; and exactly the entries of journaled documents are stamped. -/
structure Partitions (env : TurnEnv) (order : List MetricKey) (t : MetricTable) (r : Turn) :
    Prop where
  document : ∀ c ∈ r.calls, c.json = documentText (c.expired.map (rendering env t))
  answer : ∀ i c, r.calls[i]? = some c → c.expired ≠ [] →
    (c.journaled, c.flushedMs) = env.answer i
  parts : ∃ visited, visited <+: order ∧
    r.calls.flatMap JournalCall.expired = visited.filter (due env t) ∧
    (visited = order ∨ ∃ c, r.calls.getLast? = some c ∧ c.journaled = false)
  once : (r.calls.flatMap JournalCall.expired).Nodup
  earlier : ∀ c ∈ r.calls.dropLast, c.journaled = true
  stamped : ∀ k v v', t.lookup k = some v → k.aggregate = false → r.table.lookup k = some v' →
    Stamped r.calls k v v'
  kept : ∀ c ∈ r.calls, ∀ k ∈ c.expired, k ∈ r.table
  advanced : ∀ c ∈ r.calls, ∀ k ∈ c.expired, ∀ v, t.lookup k = some v → 0 < c.flushedMs →
    v.lastSeen ≤ c.flushedMs → v.flushedMs < c.flushedMs

theorem lookup_foldl_erase (t : MetricTable) (keys : List MetricKey) (k : MetricKey) :
    (keys.foldl (fun t k => t.erase k) t).lookup k = if k ∈ keys then none else t.lookup k := by
  induction keys generalizing t with
  | nil => rfl
  | cons key keys ih =>
    rw [List.foldl_cons, ih]
    by_cases hkey : k = key
    · subst hkey
      simp
    · simp [hkey, AList.lookup_erase_ne hkey]

theorem Handed.partitions {journaled : Bool} (h : Handed env t visited journaled st)
    (hpre : visited <+: order) (hnodup : order.Nodup) (hend : visited = order ∨ journaled = false) :
    Partitions env order t st.nextTeam := by
  have hdue : ∀ c ∈ st.calls, ∀ k ∈ c.expired, due env t k = true := by
    intro c hc k hk
    have hmem : k ∈ visited.filter (due env t) :=
      h.parts ▸ List.mem_flatMap.2 ⟨c, hc, hk⟩
    exact (List.mem_filter.1 hmem).2
  have hlookup := lookup_foldl_erase st.table st.kafkaExpired
  exact {
    document := h.document
    answer := h.answer
    parts := by
      refine ⟨visited, hpre, h.parts, hend.imp_right fun hfailed => ?_⟩
      obtain ⟨c, hlast, hc⟩ := h.last
      exact ⟨c, hlast, hc.trans hfailed⟩
    once := by
      show (st.calls.flatMap JournalCall.expired).Nodup
      rw [h.parts]
      exact (hpre.sublist.nodup hnodup).filter _
    earlier := h.earlier
    stamped := by
      intro k v v' hv hagg hv'
      obtain ⟨w, hw, hstamped⟩ := h.stamped k v hv hagg
      unfold Turn.nextTeam at hv'
      dsimp only at hv'
      rw [hlookup] at hv'
      split_ifs at hv'
      rw [← Option.some.inj (hw.symm.trans hv')]
      exact hstamped
    kept := by
      intro c hc k hk
      have hdueK := hdue c hc k hk
      have hkeep : k ∉ st.kafkaExpired := fun hmem => by simp [h.removed k hmem] at hdueK
      have hexists : ∃ v, t.lookup k = some v ∧ k.aggregate = false := by
        unfold due at hdueK
        cases hv : t.lookup k with
        | none => simp [hv] at hdueK
        | some v => exact ⟨v, rfl, by simp [hv] at hdueK; exact hdueK.1.1⟩
      obtain ⟨v, hv, hagg⟩ := hexists
      obtain ⟨v', hv', -⟩ := h.stamped k v hv hagg
      apply AList.lookup_isSome.1
      unfold Turn.nextTeam
      dsimp only
      rw [hlookup, if_neg hkeep, hv']
      rfl
    advanced := fun c hc k hk v hv => flushedMs_lt_of_due (hdue c hc k hk) hv }

/-- **The documents of a flush.**  For every table, every order of the hash table and all answers,
the documents of a turn are a partition of the due entries that are not aggregates. -/
theorem flush_partitions (env : TurnEnv) (t : MetricTable) (horder : order.Perm t.keys) :
    Partitions env order t (flushTeam env order t) := by
  have hnodup : order.Nodup := horder.nodup_iff.2 t.keys_nodup
  have hmem : ∀ k ∈ order, k ∈ t := fun k hk => AList.mem_keys.1 (horder.mem_iff.1 hk)
  obtain ⟨visited, hpre, hafter, hall⟩ :=
    (accumulated_start env t).loop (by rwa [List.nil_append]) hmem
  rw [List.nil_append] at hafter
  unfold flushTeam
  split
  · rename_i st hst
    rw [hst] at hafter hall
    exact (hafter.1 rfl).write.1.partitions hpre hnodup (.inl (hall rfl))
  · rename_i st hst
    rw [hst] at hafter
    exact (hafter.2 rfl).partitions hpre hnodup (.inr rfl)

/-- The counter of a text that is flushed at once. -/
def deployKey : MetricKey := ⟨1553101770000, false, true, cstr "deploys"⟩

/-- The entry of `deployKey`. -/
def deployValue : MetricValue := makeIntegerValue 7 1553101760000 2

/-- A journal that takes what it is handed. -/
def openJournal : TurnEnv where
  printing := ⟨fun _ => cstr "0", fun _ => []⟩
  now := 1553101780000
  rand _ := 5
  produced _ := true
  jlog := some fun _ => true
  nowMs _ := 1553101780001

theorem flush_partitions_deploys :
    Partitions openJournal [deployKey] (AList.insert deployKey deployValue ∅)
      (flushTeam openJournal [deployKey] (AList.insert deployKey deployValue ∅)) :=
  flush_partitions openJournal _ (List.Perm.refl [deployKey])

example : (flushTeam openJournal [deployKey] (AList.insert deployKey deployValue ∅)).calls.map
    JournalCall.json = [cstr "\x7b\"deploys\":\x7b\"_type\":\"L\",\"_value\": 2," ++
      cstr "\"_owner\": 7,\"_ts\": 1553101770005\x7d\x7d"] := by
  decide

end Tracemate.Metric
