import Tracemate.Lib.Runs
import Tracemate.Process.Types

/-!
# Any number of instances

Instances process documents, flush their tables to Kafka and merge what is in the topic, in any
order.  Two of them may share a table; a message may be merged anywhere and any number of times.

* `Effect.applyTo`, `AggregateUpdate`: what a document and an inbound metric do to a table, update
  by update; `chain_applyAggregate`: the updates for a metric are no others;
* `Fleet`, `Fleet.Step`: the tables and the flushes of the instances, and one step of the system;
* `Fleet.Pending`: the updates that may come next;
* `Fleet.Typed`, `typed_fleetStep`: the invariant and its step lemma;
* `updates_find_their_type`: in any run, an update finds an entry of the type that it assumes;
* `run_of_applyAggregate`, `run_of_document`: whole calls are runs of the system.
-/

namespace Tracemate.Process

open CStr JsonC COutcome Outcome Tracemate.Metric Runs

/-! ### Calls, update by update -/

/-- What an effect does to the table of the team: `none` is a misread of the union. -/
def Effect.applyTo (owner : BitVec 32) (now : ℕ) (t : MetricTable) : Effect → Option MetricTable
  | .update u => updateEntry owner now t u.key u.update
  | .replace name timestamp metric =>
    some (t.insert (replaceKey name timestamp) (makeValue owner now metric))
  | _ => some t

/-- The updates for one metric of an inbound message: the one of its type, and for a histogram
those of its rollups. -/
inductive AggregateUpdate (name : Bytes) (timestamp : ℕ) :
    JsonValue → MetricKey → Update → Prop
  | histogram {h : Multiset ℕ} :
      AggregateUpdate name timestamp (.histogram h) (makeMetricKey name timestamp)
        (.mergeHistogram h)
  | rollup {h : Multiset ℕ} {word rollupName : Bytes} {value : ℚ} :
      word ∈ rollupWords → buildRollupKey name word = .ok (some rollupName) →
      AggregateUpdate name timestamp (.histogram h) (makeMetricKey rollupName timestamp)
        (.rollup value)
  | integer {count : BitVec 64} :
      AggregateUpdate name timestamp (.integer count) (makeMetricKey name timestamp)
        (.mergeInteger count)
  | number {num : ℚ} {count : Option (BitVec 32)} :
      AggregateUpdate name timestamp (.number num count) (makeMetricKey name timestamp)
        (.mergeNumber num (count.getD 0))

section Chain

variable {owner : BitVec 32} {now : ℕ} {stats : HistStatistics} {name word : Bytes}
  {timestamp : ℕ} {value : JsonValue} {t t' : MetricTable}

/-- The second table comes from the first by updates that satisfy `P`. -/
def Chain (P : MetricKey → Update → Prop) (owner : BitVec 32) (now : ℕ) :
    MetricTable → MetricTable → Prop :=
  Relation.ReflTransGen fun t t' => ∃ key u, P key u ∧ updateEntry owner now t key u = some t'

theorem written_eq_ok {o : Option MetricTable} : written o = .ok t ↔ o = some t := by
  cases o with
  | none => simp [written]
  | some t => simp [written]

theorem Chain.single {P : MetricKey → Update → Prop} {key : MetricKey} {u : Update} (hu : P key u)
    (h : written (updateEntry owner now t key u) = .ok t') : Chain P owner now t t' :=
  Relation.ReflTransGen.single ⟨key, u, hu, written_eq_ok.1 h⟩

theorem chain_storeNumericRollup {h : Multiset ℕ} {number : Statistic} (hword : word ∈ rollupWords)
    (ht : storeNumericRollup owner now name word number timestamp t = .ok t') :
    Chain (AggregateUpdate name timestamp (.histogram h)) owner now t t' := by
  unfold storeNumericRollup at ht
  split_ifs at ht
  · obtain ⟨rollupName, hkey, ht⟩ := bind_eq_ok.1 ht
    cases rollupName with
    | none =>
      obtain rfl := Except.ok.inj ht
      exact .refl
    | some rollupName => exact .single (.rollup hword hkey) ht
  · obtain rfl := Except.ok.inj ht
    exact .refl

theorem chain_storeRollups {h : Multiset ℕ} {l : List (Bytes × Statistic)}
    (hl : ∀ e ∈ l, e.1 ∈ rollupWords) (ht : storeRollups owner now name timestamp l t = .ok t') :
    Chain (AggregateUpdate name timestamp (.histogram h)) owner now t t' := by
  induction l generalizing t with
  | nil =>
    obtain rfl := Except.ok.inj ht
    exact .refl
  | cons e l ih =>
    rw [List.forall_mem_cons] at hl
    obtain ⟨t₁, ht₁, hrest⟩ := bind_eq_ok.1 ht
    exact (chain_storeNumericRollup hl.1 ht₁).trans (ih hl.2 hrest)

/-- The updates for one metric are those of `AggregateUpdate`, one after the other. -/
theorem chain_applyAggregate (h : applyAggregate stats owner now name timestamp value t = .ok t') :
    Chain (AggregateUpdate name timestamp value) owner now t t' := by
  unfold applyAggregate at h
  cases value with
  | histogram hist =>
    obtain ⟨t₁, ht₁, hrest⟩ := bind_eq_ok.1 h
    exact (Chain.single .histogram ht₁).trans
      (chain_storeRollups (fun _ => mem_rollupWords_of_mem) hrest)
  | integer count => exact .single .integer h
  | number num count => exact .single .number h
  | text str =>
    obtain rfl := Except.ok.inj h
    exact .refl

end Chain

/-- All updates for a metric whose value has the type of its name are made under keys for their
types. -/
theorem AggregateUpdate.holds {name : Bytes} {timestamp : ℕ} {value : JsonValue}
    {key : MetricKey} {u : Update} (h : AggregateUpdate name timestamp value key u)
    (hvalue : value.type = typeOf name false) : key.Holds typeOf u.type := by
  cases h with
  | histogram => exact ⟨hvalue, fun _ => rfl⟩
  | rollup hword hkey => exact ⟨(typed_buildRollupKey hvalue.symm hword hkey).symm, fun _ => rfl⟩
  | integer => exact ⟨hvalue, fun _ => rfl⟩
  | number => exact ⟨hvalue, fun _ => rfl⟩

/-! ### The system -/

/-- The tables, and the flushes over them; the table of a flush is in `table`. -/
structure Fleet (ι κ : Type) where
  table : κ → MetricTable
  flush : ι → World

namespace Fleet

variable {ι κ : Type}

/-- Empty tables, before the first flush. -/
def start : Fleet ι κ := ⟨fun _ => ∅, fun _ => .start⟩

/-- What instance `i` sees; `tableOf i` is its table. -/
def world (f : Fleet ι κ) (tableOf : ι → κ) (i : ι) : World :=
  { f.flush i with table := f.table (tableOf i) }

/-- The updates that may come next, at any table: those of a document, and those of a message
that a flush has sent. -/
inductive Pending (f : Fleet ι κ) : MetricKey → Update → Prop
  | document {env : Env} {m : Option Json} {kind : DocumentKind} {effects : List Effect}
      {u : NamedUpdate} :
      processDocument env m kind = .ok effects → .update u ∈ effects → Pending f u.key u.update
  | message {i : ι} {message : MetricJson} {name : Bytes} {key : MetricKey} {u : Update} :
      message ∈ (f.flush i).topic → decodeString (jsonEscapeStr message.metricName) = some name →
      AggregateUpdate name message.ts message.value key u → Pending f key u

/-- What happens next. -/
inductive Action (ι κ : Type)
  | flush (i : ι) (a : Metric.Action)
  | endScan (i : ι)
  | update (k : κ) (key : MetricKey) (u : Update)
  | replace (k : κ) (name : MetricName) (timestamp : ℕ) (metric : Payload)

/-- One step.  A flush does not come across an entry that another instance has removed. -/
inductive Step [DecidableEq ι] [DecidableEq κ] (tableOf : ι → κ) (owner : ι → BitVec 32)
    (jsonLength : List MetricJson → ℕ) : Fleet ι κ → Action ι κ → Fleet ι κ → Prop
  | flush {f : Fleet ι κ} {i : ι} {a : Metric.Action} {w : World} :
      (∀ key u now, a ≠ .update key u now) →
      Metric.Step (owner i) jsonLength (f.world tableOf i) a w →
      Step tableOf owner jsonLength f (.flush i a)
        ⟨Function.update f.table (tableOf i) w.table, Function.update f.flush i w⟩
  | endScan {f : Fleet ι κ} {i : ι} {s : Scan} :
      (f.flush i).phase = .scan s →
      (∀ key ∈ s.original, key ∈ s.visited ∨ (f.table (tableOf i)).lookup key = none) →
      Step tableOf owner jsonLength f (.endScan i)
        { f with flush := Function.update f.flush i { f.flush i with phase := .journal s true } }
  | update {f : Fleet ι κ} {k : κ} {i : ι} {key : MetricKey} {u : Update} {now : ℕ}
      {t : MetricTable} :
      f.Pending key u → updateEntry (owner i) now (f.table k) key u = some t →
      Step tableOf owner jsonLength f (.update k key u)
        { f with table := Function.update f.table k t }
  | replace {f : Fleet ι κ} {k : κ} {i : ι} {now : ℕ} {env : Env} {m : Option Json}
      {kind : DocumentKind} {effects : List Effect} {name : MetricName} {timestamp : ℕ}
      {metric : Payload} :
      processDocument env m kind = .ok effects → .replace name timestamp metric ∈ effects →
      Step tableOf owner jsonLength f (.replace k name timestamp metric)
        { f with
          table := Function.update f.table k
            ((f.table k).insert (replaceKey name timestamp) (makeValue (owner i) now metric)) }

/-! ### The types -/

/-- The tables, the messages that are being sent and the messages that have been accepted have
the types of their names. -/
structure Typed (f : Fleet ι κ) : Prop where
  table : ∀ k, Metric.Typed typeOf (f.table k)
  sending : ∀ i, ∀ s key message, (f.flush i).phase = .produce s key message →
    message.Typed typeOf
  topic : ∀ i, ∀ message ∈ (f.flush i).topic, message.Typed typeOf

variable {tableOf : ι → κ} {owner : ι → BitVec 32} {jsonLength : List MetricJson → ℕ}
  {f g : Fleet ι κ} {key : MetricKey} {u : Update}

theorem typed_start : (start : Fleet ι κ).Typed where
  table _ := typed_empty
  sending _ := World.typed_start.sending
  topic _ := World.typed_start.topic

theorem Typed.world (h : f.Typed) (tableOf : ι → κ) (i : ι) :
    (f.world tableOf i).Typed typeOf where
  table := h.table (tableOf i)
  sending := h.sending i
  topic := h.topic i

/-- An update that may come next is made under a key for its type. -/
theorem Typed.pending (h : f.Typed) (hu : f.Pending key u) : key.Holds typeOf u.type := by
  cases hu with
  | document hdoc hmem => exact typed_processDocument _ _ hdoc _ hmem
  | @message i message name _ _ hmem hdecode hagg =>
    rw [decodeString_jsonEscapeStr] at hdecode
    obtain rfl := Option.some.inj hdecode
    exact hagg.holds (h.topic i message hmem)

/-- What may come next depends on the topics only. -/
theorem Pending.of_flush (h : f.Pending key u) (hflush : g.flush = f.flush) : g.Pending key u := by
  cases h with
  | document hdoc hmem => exact .document hdoc hmem
  | message hmem hdecode hagg => exact .message (hflush ▸ hmem) hdecode hagg

/-- A table that changes. -/
theorem Typed.setTable [DecidableEq κ] (h : f.Typed) {t : MetricTable}
    (ht : Metric.Typed typeOf t) (k : κ) :
    Typed { f with table := Function.update f.table k t } := by
  refine ⟨?_, h.sending, h.topic⟩
  rw [Function.forall_update_iff f.table fun _ t => Metric.Typed typeOf t]
  exact ⟨ht, fun k _ => h.table k⟩

/-- A flush that changes. -/
theorem Typed.setFlush [DecidableEq ι] (h : f.Typed) {w : World}
    (hsending : ∀ s key message, w.phase = .produce s key message → message.Typed typeOf)
    (htopic : ∀ message ∈ w.topic, message.Typed typeOf) (i : ι) :
    Typed { f with flush := Function.update f.flush i w } := by
  refine ⟨h.table, ?_, ?_⟩
  · rw [Function.forall_update_iff f.flush fun _ w => ∀ s key message,
      w.phase = .produce s key message → message.Typed typeOf]
    exact ⟨hsending, fun j _ => h.sending j⟩
  · rw [Function.forall_update_iff f.flush fun _ w => ∀ message ∈ w.topic, message.Typed typeOf]
    exact ⟨htopic, fun j _ => h.topic j⟩

variable [DecidableEq ι] [DecidableEq κ]

/-- A step keeps the types. -/
theorem typed_fleetStep {a : Action ι κ} (h : f.Typed)
    (hs : Step tableOf owner jsonLength f a g) : g.Typed := by
  cases hs with
  | @flush i a w hact hstep =>
    have hw : w.Typed typeOf := typed_step (h.world tableOf i) hstep fun key u now ha =>
      absurd ha (hact key u now)
    exact (h.setTable hw.table (tableOf i)).setFlush hw.sending hw.topic i
  | @endScan i s hphase hall =>
    have htopic : ∀ message ∈ World.topic { f.flush i with phase := .journal s true },
        message.Typed typeOf := h.topic i
    refine h.setFlush ?_ htopic i
    simp
  | @update k i key u now t hu ht =>
    exact h.setTable ((h.table k).updateEntry (h.pending hu) ht) k
  | @replace k i now env m kind effects name timestamp metric hdoc hmem =>
    refine h.setTable ((h.table k).insert ?_) k
    exact typed_processDocument _ _ hdoc _ hmem

/-- In every run, an update that may come next finds an entry of the type that it assumes, if it
finds one, and misreads nothing. -/
theorem updates_find_their_type (tableOf : ι → κ) (owner : ι → BitVec 32)
    (jsonLength : List MetricJson → ℕ) {tr : List (Event (Fleet ι κ) (Action ι κ))}
    (h : Run (Step tableOf owner jsonLength) start tr f) (hu : f.Pending key u) (k : κ) :
    (∀ v, (f.table k).lookup key = some v → v.metric.type = u.type) ∧
      ∀ owner now, ∃ t, updateEntry owner now (f.table k) key u = some t := by
  have htyped : f.Typed := (h.invariant Typed typed_start fun _ _ _ => typed_fleetStep).2
  have hkey := htyped.pending hu
  exact ⟨fun v => (htyped.table k).lookup_type hkey, (htyped.table k).updateEntry_isSome hkey⟩

/-- The first counter of the job `nightly`. -/
def nightlyCount : NamedUpdate :=
  ⟨⟨cstr "transaction - request_count - ", cstr "nightly", aggTagStringOf (cstr "a-b")⟩, true,
    .counter 1, 1553101770000⟩

/-- The message in which the counter is sent. -/
def nightlyMessage : MetricJson := ⟨nightlyCount.key.metricName, 1, 1553101770000, .integer 1⟩

theorem nightlyCount_pending (f : Fleet Bool Bool) :
    f.Pending nightlyCount.key nightlyCount.update := by
  have hdoc : ∃ effects, processDocument plainEnv
      (some (scheduledTransaction (cstr "nightly"))) .transaction = .ok effects ∧
      .update nightlyCount ∈ effects := by
    refine ⟨_, rfl, ?_⟩
    decide
  obtain ⟨effects, hok, hmem⟩ := hdoc
  exact .document hok hmem

/-- The fleet of two instances with tables of their own, after the first has counted the job and
sent the counter, and the second has merged it once. -/
theorem nightly_merged_as_counter :
    ∃ (tr : List (Event (Fleet Bool Bool) (Action Bool Bool))) (f : Fleet Bool Bool),
      Run (Step id (fun _ => 1) fun _ => 0) start tr f ∧ nightlyMessage ∈ (f.flush false).topic ∧
        ∃ v, (f.table true).lookup (makeMetricKey nightlyMessage.metricName nightlyMessage.ts) =
          some v ∧ v.metric.type = .integer := by
  have h₀ : Run (Step id (fun _ => 1) fun _ => 0) (start : Fleet Bool Bool) [] start := .nil
  have h₁ := h₀.snoc (.update (k := false) (i := false) (nightlyCount_pending _)
    (show updateEntry 1 0 ∅ nightlyCount.key nightlyCount.update = some _ from rfl))
  have h₂ := h₁.snoc (.flush (i := false) (a := .beginFlush 20000) (by simp)
    (.beginFlush rfl (Nat.zero_le _)))
  have h₃ := h₂.snoc (.flush (i := false) (a := .startTeam) (by simp) (.startTeam rfl))
  have h₄ := h₃.snoc (.flush (i := false) (a := .visit nightlyCount.key 0) (by simp)
    (.visit rfl (AList.lookup_insert _) (by simp) (by decide)))
  have h₅ := h₄.snoc (.flush (i := false) (a := .produceAnswer true) (by simp) (.produced rfl))
  have hname := decodeString_jsonEscapeStr nightlyMessage.metricName
  have h₆ := h₅.snoc (.update (k := true) (i := true)
    (.message (i := false) (List.mem_singleton.2 rfl) hname .integer)
    (show updateEntry 1 30000 ∅ (makeMetricKey nightlyMessage.metricName nightlyMessage.ts)
      (.mergeInteger 1) = some _ from rfl))
  obtain ⟨htype, -⟩ := updates_find_their_type id (fun _ => 1) (fun _ => 0) h₆
    (.message (i := false) (List.mem_singleton.2 rfl) hname .integer) true
  exact ⟨_, _, h₆, List.mem_singleton.2 rfl, _, AList.lookup_insert _,
    htype _ (AList.lookup_insert _)⟩

/-! ### Whole calls -/

/-- Updates one after the other, each of which may come next, are a run. -/
theorem run_of_chain {P : MetricKey → Update → Prop} {k : κ} {i : ι} {now : ℕ} {t : MetricTable}
    (hP : ∀ key u, P key u → f.Pending key u) (h : Chain P (owner i) now (f.table k) t) :
    ∃ tr, Run (Step tableOf owner jsonLength) f tr
      { f with table := Function.update f.table k t } := by
  induction h with
  | refl =>
    rw [Function.update_eq_self]
    exact ⟨[], .nil⟩
  | @tail t₁ t₂ _ hlast ih =>
    obtain ⟨key, u, hu, ht⟩ := hlast
    obtain ⟨tr, htr⟩ := ih
    have hpending : Pending { f with table := Function.update f.table k t₁ } key u :=
      (hP key u hu).of_flush rfl
    have hentry : updateEntry (owner i) now (Function.update f.table k t₁ k) key u = some t₂ := by
      rwa [Function.update_self]
    have hstep : Step tableOf owner jsonLength _ _ _ := .update hpending hentry
    rw [Function.update_idem] at hstep
    exact ⟨_, htr.snoc hstep⟩

/-- The processing of a metric that a flush has sent is a run. -/
theorem run_of_applyAggregate {stats : HistStatistics} {k : κ} {i j : ι} {now : ℕ}
    {message : MetricJson} {name : Bytes} {t : MetricTable} (hmem : message ∈ (f.flush j).topic)
    (hname : decodeString (jsonEscapeStr message.metricName) = some name)
    (h : applyAggregate stats (owner i) now name message.ts message.value (f.table k) = .ok t) :
    ∃ tr, Run (Step tableOf owner jsonLength) f tr
      { f with table := Function.update f.table k t } :=
  run_of_chain (fun _ _ hu => .message hmem hname hu) (chain_applyAggregate h)

/-- An effect of a document misreads nothing, and is a step if it changes the table. -/
theorem step_of_effect (tableOf : ι → κ) (jsonLength : List MetricJson → ℕ) {env : Env}
    {m : Option Json} {kind : DocumentKind} {effects : List Effect} (h : f.Typed)
    (hdoc : processDocument env m kind = .ok effects) {e : Effect} (he : e ∈ effects) (k : κ)
    (i : ι) (now : ℕ) :
    ∃ t, e.applyTo (owner i) now (f.table k) = some t ∧ (t = f.table k ∨
      ∃ a, Step tableOf owner jsonLength f a { f with table := Function.update f.table k t }) := by
  cases e with
  | update u =>
    have hu : f.Pending u.key u.update := .document hdoc he
    obtain ⟨t, ht⟩ := (h.table k).updateEntry_isSome (h.pending hu) (owner i) now
    exact ⟨t, ht, .inr ⟨_, .update hu ht⟩⟩
  | replace name timestamp metric => exact ⟨_, rfl, .inr ⟨_, .replace hdoc he⟩⟩
  | _ => exact ⟨_, rfl, .inl rfl⟩

/-- The processing of a document misreads nothing, and is a run. -/
theorem run_of_document {env : Env} {m : Option Json} {kind : DocumentKind}
    {effects : List Effect} (h : f.Typed) (hdoc : processDocument env m kind = .ok effects)
    (k : κ) (i : ι) (now : ℕ) :
    ∃ tr t, effects.foldlM (Effect.applyTo (owner i) now) (f.table k) = some t ∧
      Run (Step tableOf owner jsonLength) f tr
        { f with table := Function.update f.table k t } := by
  -- the effects that are still to come
  suffices hrest : ∀ l : List Effect, (∀ e ∈ l, e ∈ effects) → ∀ g : Fleet ι κ, g.Typed →
      ∃ tr t, l.foldlM (Effect.applyTo (owner i) now) (g.table k) = some t ∧
        Run (Step tableOf owner jsonLength) g tr
          { g with table := Function.update g.table k t } from
    hrest effects (fun _ he => he) f h
  intro l
  induction l with
  | nil =>
    intro _ g _
    refine ⟨[], g.table k, rfl, ?_⟩
    rw [Function.update_eq_self]
    exact .nil
  | cons e l ih =>
    intro hl g hg
    rw [List.forall_mem_cons] at hl
    obtain ⟨t, ht, hstep⟩ := step_of_effect tableOf jsonLength hg hdoc hl.1 k i now
    rw [List.foldlM_cons, ht]
    rcases hstep with rfl | ⟨a, hstep⟩
    · exact ih hl.2 g hg
    · obtain ⟨tr, t', hfold, hrun⟩ := ih hl.2 _ (typed_fleetStep hg hstep)
      dsimp only at hfold hrun
      rw [Function.update_self] at hfold
      rw [Function.update_idem] at hrun
      exact ⟨_, t', hfold, .cons hstep hrun⟩

end Fleet

end Tracemate.Process
