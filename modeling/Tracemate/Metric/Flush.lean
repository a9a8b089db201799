import Tracemate.Metric.Updates

/-!
# `tm_flush_team_metrics`, step by step

One team's turn of a flush, cut into the steps between which another thread may update the
table: the reading of the clock, the visit of one entry, the answer of Kafka, the write to the
journal, the stamp of one entry, the removal of one entry.

* `Scan`: the local variables while the team's entries are visited;
* `visit`: the body of the loop over the entries;
* `Phase`: where the flush stands;
* `World`: the team's table, the clock, the phase, and what the journal and Kafka have accepted;
* `Step`: one step, of the flush or an update.

The loop over the path squashers, in `Publication`, leaves the table alone.
-/

namespace Tracemate.Metric

open CStr

/-- The local variables of the loop over the entries: the reading of the clock at the start of
the flush, the keys that the table held when the loop started, the keys visited so far, the
document and the two lists. -/
structure Scan where
  now : ℕ
  original : List MetricKey
  visited : List MetricKey
  json : List MetricJson
  jsonExpired : List MetricKey
  kafkaExpired : List MetricKey
  deriving DecidableEq

/-- Where the flush stands. -/
inductive Phase
  /-- No flush is running. -/
  | idle
  /-- The clock has been read; other teams come first. -/
  | begun (now : ℕ)
  /-- The loop over the entries. -/
  | scan (s : Scan)
  /-- A message has been rendered and its entry reset; `tm_kafka_produce` is called. -/
  | produce (s : Scan) (key : MetricKey) (message : MetricJson)
  /-- Kafka has accepted the message of the entry, which is stamped next. -/
  | stampAggregate (s : Scan) (key : MetricKey)
  /-- The document is handed to `journal_output_metrics`, at its cut-over or at the end. -/
  | journal (s : Scan) (final : Bool)
  /-- The journal has accepted the document; the clock is read next. -/
  | readClock (s : Scan) (final : Bool)
  /-- The entries of the document that are still to be stamped. -/
  | stamp (s : Scan) (final : Bool) (flushedMs : ℕ) (todo : List MetricKey)
  /-- The loop over the path squashers. -/
  | publish (s : Scan)
  /-- The entries that are still to be removed. -/
  | delete (todo : List MetricKey)
  deriving DecidableEq

/-- `TWO_MB`. -/
def twoMb : ℕ := 2097152

section Visit

-- the bytes in the buffer `json`, for the members in it
variable (jsonLength : List MetricJson → ℕ)

/-- Flushed after the last update, and nothing new for ten minutes. -/
def Expired (now : ℕ) (v : MetricValue) : Prop :=
  v.flushedMs > 0 ∧ v.flushedMs ≥ v.lastSeen ∧ now > v.lastSeen ∧ now - v.lastSeen > 600000

/-- Flushed after the last update. -/
def AlreadyFlushed (v : MetricValue) : Prop := v.flushedMs > 0 ∧ v.flushedMs ≥ v.lastSeen

/-- The entry goes into the document: at once, or when its minute and its updates have
settled. -/
def DueForJson (now : ℕ) (k : MetricKey) (v : MetricValue) : Prop :=
  k.immediateFlush = true ∨ ((now > k.timestamp ∧ now - k.timestamp > 1000) ∧
    (now > v.lastSeen ∧ now - v.lastSeen > 10000))

/-- The entry goes back to Kafka for aggregation. -/
def DueForKafka (now : ℕ) (v : MetricValue) : Prop := now > v.lastSeen ∧ now - v.lastSeen > 10000

instance (now : ℕ) (v : MetricValue) : Decidable (Expired now v) := by
  unfold Expired
  infer_instance

instance (v : MetricValue) : Decidable (AlreadyFlushed v) := by
  unfold AlreadyFlushed
  infer_instance

instance (now : ℕ) (k : MetricKey) (v : MetricValue) : Decidable (DueForJson now k v) := by
  unfold DueForJson
  infer_instance

instance (now : ℕ) (v : MetricValue) : Decidable (DueForKafka now v) := by
  unfold DueForKafka
  infer_instance

/-- The end of the loop body: the document is cut over when it is too long. -/
def afterVisit (s : Scan) : Phase :=
  if jsonLength s.json > twoMb then .journal s false else .scan s

/-- The loop body for one entry: the entry and the phase after it.  `rand` is the value of
`rand() % 30000`. -/
def visit (s : Scan) (k : MetricKey) (v : MetricValue) (rand : ℕ) : MetricValue × Phase :=
  let s := { s with visited := k :: s.visited }
  if Expired s.now v then
    ({ v with scheduledForDestruction := true },
      .scan { s with kafkaExpired := s.kafkaExpired ++ [k] })
  else if AlreadyFlushed v then (v, .scan s)
  else if k.aggregate = false then
    if DueForJson s.now k v then
      let (json, v) := metricToJson k v true false rand
      (v, afterVisit jsonLength
        { s with json := s.json ++ [json], jsonExpired := s.jsonExpired ++ [k] })
    else (v, afterVisit jsonLength s)
  else if DueForKafka s.now v then
    let (json, v) := metricToJson k v false true 0
    (resetValue v, .produce s k json)
  else (v, afterVisit jsonLength s)

end Visit

/-- The team's table, the clock, the phase of the flush, the documents and messages accepted so
far, and all updates so far with their keys. -/
structure World where
  table : MetricTable
  clock : ℕ
  phase : Phase
  journal : List (List MetricJson)
  topic : List MetricJson
  updates : List (MetricKey × Update)

/-- An empty table, before the first flush. -/
def World.start : World := ⟨∅, 0, .idle, [], [], []⟩

/-- What happens next: an update at a reading of the clock, or a step of the flush with what it
reads and what it is answered. -/
inductive Action
  | update (key : MetricKey) (u : Update) (now : ℕ)
  | beginFlush (now : ℕ)
  | startTeam
  | visit (key : MetricKey) (rand : ℕ)
  | endScan
  | produceAnswer (ok : Bool)
  | stampAggregate
  | journalAnswer (ok : Bool)
  | readClock (now : ℕ)
  | stamp
  | publish
  | delete
  deriving DecidableEq

/-- `v->flushed_ms = flushed_ms`. -/
def stampEntry (t : MetricTable) (key : MetricKey) (flushedMs : ℕ) : MetricTable :=
  match t.lookup key with
  | some v => t.insert key { v with flushedMs }
  | none => t

/-- One step.  The clock never goes back; the loop over the entries may come across one that was
not there when it started, and comes across all that were. -/
inductive Step (owner : BitVec 32) (jsonLength : List MetricJson → ℕ) :
    World → Action → World → Prop
  | update {w : World} {key : MetricKey} {u : Update} {now : ℕ} {v : MetricValue} :
      w.clock ≤ now → u.Keyed key → u.apply owner now (w.table.lookup key) = some v →
      Step owner jsonLength w (.update key u now)
        { w with
          table := w.table.insert key v, clock := now, updates := w.updates ++ [(key, u)] }
  | beginFlush {w : World} {now : ℕ} :
      w.phase = .idle → w.clock ≤ now →
      Step owner jsonLength w (.beginFlush now) { w with clock := now, phase := .begun now }
  | startTeam {w : World} {now : ℕ} :
      w.phase = .begun now →
      Step owner jsonLength w .startTeam
        { w with phase := .scan ⟨now, w.table.keys, [], [], [], []⟩ }
  | visit {w : World} {s : Scan} {key : MetricKey} {rand : ℕ} {v : MetricValue} :
      w.phase = .scan s → w.table.lookup key = some v → key ∉ s.visited → rand < 30000 →
      Step owner jsonLength w (.visit key rand)
        { w with
          table := w.table.insert key (visit jsonLength s key v rand).1
          phase := (visit jsonLength s key v rand).2 }
  | endScan {w : World} {s : Scan} :
      w.phase = .scan s → (∀ key ∈ s.original, key ∈ s.visited) →
      Step owner jsonLength w .endScan { w with phase := .journal s true }
  | produced {w : World} {s : Scan} {key : MetricKey} {message : MetricJson} :
      w.phase = .produce s key message →
      Step owner jsonLength w (.produceAnswer true)
        { w with topic := w.topic ++ [message], phase := .stampAggregate s key }
  | notProduced {w : World} {s : Scan} {key : MetricKey} {message : MetricJson} :
      w.phase = .produce s key message →
      Step owner jsonLength w (.produceAnswer false) { w with phase := afterVisit jsonLength s }
  | stampAggregate {w : World} {s : Scan} {key : MetricKey} :
      w.phase = .stampAggregate s key →
      Step owner jsonLength w .stampAggregate
        { w with table := stampEntry w.table key s.now, phase := afterVisit jsonLength s }
  /-- Nothing is written when no entry is in the document. -/
  | journaled {w : World} {s : Scan} {final : Bool} :
      w.phase = .journal s final →
      Step owner jsonLength w (.journalAnswer true)
        { w with
          journal := if s.jsonExpired = [] then w.journal else w.journal ++ [s.json]
          phase := .readClock s final }
  | notJournaled {w : World} {s : Scan} {final : Bool} :
      w.phase = .journal s final →
      Step owner jsonLength w (.journalAnswer false)
        { w with phase := if final then .publish s else .delete s.kafkaExpired }
  | readClock {w : World} {s : Scan} {final : Bool} {now : ℕ} :
      w.phase = .readClock s final → w.clock ≤ now →
      Step owner jsonLength w (.readClock now)
        { w with clock := now, phase := .stamp s final now s.jsonExpired }
  | stamp {w : World} {s : Scan} {final : Bool} {flushedMs : ℕ} {key : MetricKey}
      {todo : List MetricKey} :
      w.phase = .stamp s final flushedMs (key :: todo) →
      Step owner jsonLength w .stamp
        { w with
          table := stampEntry w.table key flushedMs, phase := .stamp s final flushedMs todo }
  | stamped {w : World} {s : Scan} {final : Bool} {flushedMs : ℕ} :
      w.phase = .stamp s final flushedMs [] →
      Step owner jsonLength w .stamp
        { w with
          phase := if final then .publish s else .scan { s with json := [], jsonExpired := [] } }
  | publish {w : World} {s : Scan} :
      w.phase = .publish s →
      Step owner jsonLength w .publish { w with phase := .delete s.kafkaExpired }
  | delete {w : World} {key : MetricKey} {todo : List MetricKey} :
      w.phase = .delete (key :: todo) →
      Step owner jsonLength w .delete
        { w with table := w.table.erase key, phase := .delete todo }
  | deleted {w : World} :
      w.phase = .delete [] → Step owner jsonLength w .delete { w with phase := .idle }

/-- The step that an action makes, if it can be made. -/
def World.next (owner : BitVec 32) (jsonLength : List MetricJson → ℕ) (w : World)
    (a : Action) : Option World :=
  match a, w.phase with
  | .update key u now, _ =>
    if w.clock ≤ now ∧ u.Keyed key then
      (u.apply owner now (w.table.lookup key)).map fun v => { w with
        table := w.table.insert key v, clock := now, updates := w.updates ++ [(key, u)] }
    else none
  | .beginFlush now, .idle =>
    if w.clock ≤ now then some { w with clock := now, phase := .begun now } else none
  | .startTeam, .begun now => some { w with phase := .scan ⟨now, w.table.keys, [], [], [], []⟩ }
  | .visit key rand, .scan s =>
    if key ∉ s.visited ∧ rand < 30000 then
      (w.table.lookup key).map fun v => { w with
        table := w.table.insert key (Metric.visit jsonLength s key v rand).1
        phase := (Metric.visit jsonLength s key v rand).2 }
    else none
  | .endScan, .scan s =>
    if ∀ key ∈ s.original, key ∈ s.visited then some { w with phase := .journal s true } else none
  | .produceAnswer true, .produce s key message =>
    some { w with topic := w.topic ++ [message], phase := .stampAggregate s key }
  | .produceAnswer false, .produce s _ _ => some { w with phase := afterVisit jsonLength s }
  | .stampAggregate, .stampAggregate s key =>
    some { w with table := stampEntry w.table key s.now, phase := afterVisit jsonLength s }
  | .journalAnswer true, .journal s final =>
    some { w with
      journal := if s.jsonExpired = [] then w.journal else w.journal ++ [s.json]
      phase := .readClock s final }
  | .journalAnswer false, .journal s final =>
    some { w with phase := if final then .publish s else .delete s.kafkaExpired }
  | .readClock now, .readClock s final =>
    if w.clock ≤ now then
      some { w with clock := now, phase := .stamp s final now s.jsonExpired }
    else none
  | .stamp, .stamp s final flushedMs (key :: todo) =>
    some { w with
      table := stampEntry w.table key flushedMs, phase := .stamp s final flushedMs todo }
  | .stamp, .stamp s final _ [] =>
    some { w with
      phase := if final then .publish s else .scan { s with json := [], jsonExpired := [] } }
  | .publish, .publish s => some { w with phase := .delete s.kafkaExpired }
  | .delete, .delete (key :: todo) =>
    some { w with table := w.table.erase key, phase := .delete todo }
  | .delete, .delete [] => some { w with phase := .idle }
  | _, _ => none

/-- What is computed is a step. -/
theorem step_of_next {owner : BitVec 32} {jsonLength : List MetricJson → ℕ} {w w' : World}
    {a : Action} (h : w.next owner jsonLength a = some w') : Step owner jsonLength w a w' := by
  unfold World.next at h
  split at h
  case h_1 =>
    split_ifs at h with hc
    obtain ⟨v, hv, rfl⟩ := Option.map_eq_some_iff.1 h
    exact .update hc.1 hc.2 hv
  case h_2 hphase =>
    split_ifs at h with hc
    obtain rfl := Option.some.inj h
    exact .beginFlush hphase hc
  case h_3 hphase =>
    obtain rfl := Option.some.inj h
    exact .startTeam hphase
  case h_4 hphase =>
    split_ifs at h with hc
    obtain ⟨v, hv, rfl⟩ := Option.map_eq_some_iff.1 h
    exact .visit hphase hv hc.1 hc.2
  case h_5 hphase =>
    split_ifs at h with hc
    obtain rfl := Option.some.inj h
    exact .endScan hphase hc
  case h_6 hphase =>
    obtain rfl := Option.some.inj h
    exact .produced hphase
  case h_7 hphase =>
    obtain rfl := Option.some.inj h
    exact .notProduced hphase
  case h_8 hphase =>
    obtain rfl := Option.some.inj h
    exact .stampAggregate hphase
  case h_9 hphase =>
    obtain rfl := Option.some.inj h
    exact .journaled hphase
  case h_10 hphase =>
    obtain rfl := Option.some.inj h
    exact .notJournaled hphase
  case h_11 hphase =>
    split_ifs at h with hc
    obtain rfl := Option.some.inj h
    exact .readClock hphase hc
  case h_12 hphase =>
    obtain rfl := Option.some.inj h
    exact .stamp hphase
  case h_13 hphase =>
    obtain rfl := Option.some.inj h
    exact .stamped hphase
  case h_14 hphase =>
    obtain rfl := Option.some.inj h
    exact .publish hphase
  case h_15 hphase =>
    obtain rfl := Option.some.inj h
    exact .delete hphase
  case h_16 hphase =>
    obtain rfl := Option.some.inj h
    exact .deleted hphase
  case h_17 => cases h

/-! ### The body of the loop, by what it does to the entry -/

section VisitCases

variable {jsonLength : List MetricJson → ℕ} {s : Scan} {k : MetricKey} {v : MetricValue}
  {rand : ℕ}

/-- The phase is the loop, or the cut-over of the document. -/
theorem afterVisit_cases (jsonLength : List MetricJson → ℕ) (s : Scan) :
    afterVisit jsonLength s = .journal s false ∨ afterVisit jsonLength s = .scan s := by
  unfold afterVisit
  split_ifs
  · exact .inl rfl
  · exact .inr rfl

theorem afterVisit_ne_produce {s' : Scan} {message : MetricJson} :
    afterVisit jsonLength s ≠ .produce s' k message := by
  rcases afterVisit_cases jsonLength s with h | h <;> rw [h] <;> exact Phase.noConfusion

/-- A visit schedules the entry for deletion, skips it, renders it into the document, sends it to
Kafka and resets it, or leaves it for a later flush. -/
theorem visit_cases (jsonLength : List MetricJson → ℕ) (s : Scan) (k : MetricKey)
    (v : MetricValue) (rand : ℕ) :
    (Expired s.now v ∧ visit jsonLength s k v rand =
      ({ v with scheduledForDestruction := true }, .scan { s with
        visited := k :: s.visited, kafkaExpired := s.kafkaExpired ++ [k] })) ∨
    (AlreadyFlushed v ∧ visit jsonLength s k v rand =
      (v, .scan { s with visited := k :: s.visited })) ∨
    (¬ AlreadyFlushed v ∧ k.aggregate = false ∧ DueForJson s.now k v ∧
      visit jsonLength s k v rand =
        (v, afterVisit jsonLength { s with
          visited := k :: s.visited
          json := s.json ++ [(metricToJson k v true false rand).1]
          jsonExpired := s.jsonExpired ++ [k] })) ∨
    (¬ AlreadyFlushed v ∧ k.aggregate = true ∧ DueForKafka s.now v ∧
      visit jsonLength s k v rand =
        (resetValue v, .produce { s with visited := k :: s.visited } k
          (metricToJson k v false true 0).1)) ∨
    (¬ AlreadyFlushed v ∧ (k.aggregate = false → ¬ DueForJson s.now k v) ∧
      (k.aggregate = true → ¬ DueForKafka s.now v) ∧
      visit jsonLength s k v rand =
        (v, afterVisit jsonLength { s with visited := k :: s.visited })) := by
  unfold visit
  dsimp only
  split_ifs with hexp hflushed hagg hjson hkafka
  · exact .inl ⟨hexp, rfl⟩
  · exact .inr (.inl ⟨hflushed, rfl⟩)
  · exact .inr (.inr (.inl ⟨hflushed, hagg, hjson, rfl⟩))
  · exact .inr (.inr (.inr (.inr ⟨hflushed, fun _ => hjson, fun h => by simp [hagg] at h, rfl⟩)))
  · refine .inr (.inr (.inr (.inl ⟨hflushed, by simpa using hagg, hkafka, ?_⟩)))
    rw [metricToJson, if_pos rfl, resetValue_clearMetric]
  · exact .inr (.inr (.inr (.inr ⟨hflushed, fun h => absurd h hagg, fun _ => hkafka, rfl⟩)))

end VisitCases

end Tracemate.Metric
