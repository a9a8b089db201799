import Tracemate.Metric.Flush

/-!
# The types of entries

No update checks the type of the entry that it finds: what it reads of the union is what its key
promises.  A typing assigns a type to every name, for either value of the flag `immediate_flush`.

* `MetricType`: the types, with the type of a value, of a printed value and of an update;
* `Update.apply_isSome`: an update of an entry of its own type misreads nothing;
* `Typed`: all entries of a table have the types of their names;
* `World.Typed`: so have the messages that a flush sends and has sent;
* `typed_step`: a step of a flush keeps this.
-/

namespace Tracemate.Metric

open CStr

/-- `METRIC_VALUE_TYPE`. -/
inductive MetricType
  | number
  | text
  | histogram
  | integer
  deriving DecidableEq

/-- The field `type`, which selects the member of the union. -/
def Payload.type : Payload → MetricType
  | number _ => .number
  | text _ => .text
  | histogram _ => .histogram
  | integer _ => .integer

/-- The letter `_type` of a printed value. -/
def JsonValue.type : JsonValue → MetricType
  | number _ _ => .number
  | text _ => .text
  | histogram _ => .histogram
  | integer _ => .integer

/-- The type of the entry that an update makes, and that it assumes of the entry that it finds. -/
def Update.type : Update → MetricType
  | histogram _ => .histogram
  | counter _ => .integer
  | text _ => .text
  | numeric _ => .number
  | average _ => .number
  | mergeHistogram _ => .histogram
  | mergeInteger _ => .integer
  | mergeNumber _ _ => .number
  | rollup _ => .number

variable {owner : BitVec 32} {now : ℕ} {u : Update} {v v' : MetricValue}

namespace Update

theorem type_make (u : Update) (owner : BitVec 32) (now : ℕ) :
    (u.make owner now).metric.type = u.type := by
  cases u <;> rfl

/-- A change in place is one of an entry of the update's type, and keeps this type. -/
theorem type_change (h : u.change v = some v') :
    v.metric.type = u.type ∧ v'.metric.type = u.type := by
  obtain ⟨metric, count, lastSeen, flushedMs, ownerId, scheduled⟩ := v
  cases u <;> cases metric <;> simp only [change, reduceCtorEq, Option.some.injEq] at h <;>
    subst h <;> exact ⟨rfl, rfl⟩

/-- An entry of the update's type can be changed in place. -/
theorem change_of_type (hu : ∀ str, u ≠ .text str) (h : v.metric.type = u.type) :
    ∃ v', u.change v = some v' := by
  obtain ⟨metric, count, lastSeen, flushedMs, ownerId, scheduled⟩ := v
  cases u with
  | text str => exact absurd rfl (hu str)
  | _ =>
    cases metric <;> cases h
    exact ⟨_, rfl⟩

/-- The entry after an update has the update's type. -/
theorem type_apply {e : Option MetricValue} (h : u.apply owner now e = some v') :
    v'.metric.type = u.type := by
  cases e with
  | none =>
    obtain rfl : u.make owner now = v' := by cases u <;> simpa [apply] using h
    exact type_make u owner now
  | some v =>
    cases u with
    | text str =>
      obtain rfl : makeTextValue owner now str = v' := by simpa [apply] using h
      rfl
    | _ =>
      obtain ⟨w, hw, rfl⟩ := Option.map_eq_some_iff.1 h
      exact (type_change hw).2

/-- An update that finds no entry, or one of its own type, misreads nothing. -/
theorem apply_isSome {e : Option MetricValue} (h : ∀ v, e = some v → v.metric.type = u.type)
    (owner : BitVec 32) (now : ℕ) : ∃ v', u.apply owner now e = some v' := by
  cases e with
  | none =>
    refine ⟨u.make owner now, ?_⟩
    cases u <;> rfl
  | some v =>
    by_cases hu : ∃ str, u = .text str
    · obtain ⟨str, rfl⟩ := hu
      exact ⟨_, rfl⟩
    · obtain ⟨w, hw⟩ := change_of_type (fun str hs => hu ⟨str, hs⟩) (h v rfl)
      refine ⟨{ w with lastSeen := now }, ?_⟩
      cases u with
      | text str => exact absurd ⟨str, rfl⟩ hu
      | _ => simp [apply, hw]

end Update

@[simp] theorem type_resetValue (v : MetricValue) :
    (resetValue v).metric.type = v.metric.type := by
  unfold resetValue
  cases v.metric <;> rfl

@[simp] theorem type_jsonValue (v : MetricValue) (resolveAvg : Bool) :
    (jsonValue v resolveAvg).type = v.metric.type := by
  unfold jsonValue
  cases v.metric with
  | number number => cases resolveAvg <;> rfl
  | _ => rfl

/-! ### Tables -/

/-- The type of the entries with a name, for either value of `immediate_flush`. -/
abbrev Typing := Bytes → Bool → MetricType

/-- The key is one under which entries of this type are kept; what is flushed at once is no
aggregate. -/
structure MetricKey.Holds (T : Typing) (key : MetricKey) (type : MetricType) : Prop where
  type : type = T key.metricName key.immediateFlush
  flag : key.aggregate = true → key.immediateFlush = false

/-- All entries have the types of their names. -/
def Typed (T : Typing) (t : MetricTable) : Prop :=
  ∀ key v, t.lookup key = some v → key.Holds T v.metric.type

variable {T : Typing} {t t' : MetricTable} {key : MetricKey}

theorem typed_empty : Typed T ∅ := fun key v h => by
  rw [AList.lookup_empty] at h
  cases h

theorem Typed.insert (h : Typed T t) (hkey : key.Holds T v.metric.type) :
    Typed T (t.insert key v) := by
  intro k w hw
  by_cases hk : k = key
  · subst hk
    rw [AList.lookup_insert] at hw
    obtain rfl := Option.some.inj hw
    exact hkey
  · rw [AList.lookup_insert_ne hk] at hw
    exact h k w hw

theorem Typed.erase (h : Typed T t) (key : MetricKey) : Typed T (t.erase key) := by
  intro k w hw
  by_cases hk : k = key
  · subst hk
    rw [AList.lookup_erase] at hw
    cases hw
  · rw [AList.lookup_erase_ne hk] at hw
    exact h k w hw

theorem Typed.stampEntry (h : Typed T t) (key : MetricKey) (flushedMs : ℕ) :
    Typed T (stampEntry t key flushedMs) := by
  unfold Metric.stampEntry
  split
  · next v hv => exact h.insert (h key v hv)
  · exact h

/-- An update under a key for its type finds an entry of this type. -/
theorem Typed.lookup_type (h : Typed T t) (hkey : key.Holds T u.type)
    (hv : t.lookup key = some v) : v.metric.type = u.type := by
  rw [(h key v hv).type, hkey.type]

/-- An update under a key for its type misreads nothing. -/
theorem Typed.updateEntry_isSome (h : Typed T t) (hkey : key.Holds T u.type)
    (owner : BitVec 32) (now : ℕ) : ∃ t', updateEntry owner now t key u = some t' := by
  obtain ⟨v, hv⟩ := u.apply_isSome (e := t.lookup key) (fun v => h.lookup_type hkey) owner now
  exact ⟨t.insert key v, by rw [updateEntry, hv, Option.map_some]⟩

/-- An update under a key for its type keeps the types. -/
theorem Typed.updateEntry (h : Typed T t) (hkey : key.Holds T u.type)
    (ht : updateEntry owner now t key u = some t') : Typed T t' := by
  obtain ⟨v, hv, rfl⟩ := Option.map_eq_some_iff.1 ht
  refine h.insert ?_
  rw [Update.type_apply hv]
  exact hkey

/-! ### Flushes -/

/-- The value of an aggregate message has the type of its name. -/
def MetricJson.Typed (T : Typing) (j : MetricJson) : Prop := j.value.type = T j.metricName false

/-- The entries, the message that is being sent and the messages that have been accepted have the
types of their names. -/
structure World.Typed (T : Typing) (w : World) : Prop where
  table : Metric.Typed T w.table
  sending : ∀ s key message, w.phase = .produce s key message → message.Typed T
  topic : ∀ message ∈ w.topic, message.Typed T

theorem World.typed_start : World.start.Typed T where
  table := typed_empty
  sending s key message h := by cases h
  topic message h := by cases h

/-- What is sent to Kafka is an aggregate, with the type of its entry. -/
theorem typed_metricToJson (h : key.Holds T v.metric.type) (hagg : key.aggregate = true)
    (resolveAvg reset : Bool) (jitter : ℕ) :
    (metricToJson key v resolveAvg reset jitter).1.Typed T := by
  show (jsonValue v resolveAvg).type = T key.metricName false
  rw [type_jsonValue, h.type, h.flag hagg]

variable {jsonLength : List MetricJson → ℕ} {w w' : World} {a : Action} {s : Scan}

/-- The body of the loop keeps the type of the entry, and sends a message of this type. -/
theorem typed_visit (jsonLength : List MetricJson → ℕ) (s : Scan)
    (h : key.Holds T v.metric.type) (rand : ℕ) :
    key.Holds T (visit jsonLength s key v rand).1.metric.type ∧
      ∀ s' key' message, (visit jsonLength s key v rand).2 = .produce s' key' message →
        message.Typed T := by
  rcases visit_cases jsonLength s key v rand with
    ⟨-, hv⟩ | ⟨-, hv⟩ | ⟨-, -, -, hv⟩ | ⟨-, hagg, -, hv⟩ | ⟨-, -, -, hv⟩ <;> rw [hv]
  · exact ⟨h, fun _ _ _ hp => by cases hp⟩
  · exact ⟨h, fun _ _ _ hp => by cases hp⟩
  · exact ⟨h, fun _ _ _ hp => absurd hp afterVisit_ne_produce⟩
  · refine ⟨by rwa [type_resetValue], fun s' key' message hp => ?_⟩
    cases hp
    exact typed_metricToJson h hagg false true 0
  · exact ⟨h, fun _ _ _ hp => absurd hp afterVisit_ne_produce⟩

/-- A step keeps the types, if its update, when it is one, is made under a key for its type. -/
theorem typed_step (h : w.Typed T) (hs : Step owner jsonLength w a w')
    (hu : ∀ key u now, a = .update key u now → key.Holds T u.type) : w'.Typed T := by
  -- the steps that leave the table and the topic alone and send nothing
  have hquiet : ∀ {clock : ℕ} {phase : Phase} {journal : List (List MetricJson)},
      (∀ s key message, phase ≠ .produce s key message) →
      World.Typed T { w with clock, phase, journal } := fun hphase =>
    ⟨h.table, fun s key message hp => absurd hp (hphase s key message), h.topic⟩
  cases hs with
  | @update key u now v hclock hkeyed hv =>
    have hkey := hu key u now rfl
    refine ⟨h.table.insert ?_, h.sending, h.topic⟩
    rw [Update.type_apply hv]
    exact hkey
  | beginFlush hphase hclock => exact hquiet (by simp)
  | startTeam hphase => exact hquiet (by simp)
  | @visit s key rand v hphase hv hnew hrand =>
    obtain ⟨hkey, hmessage⟩ := typed_visit jsonLength s (h.table key v hv) rand
    exact ⟨h.table.insert hkey, hmessage, h.topic⟩
  | endScan hphase hall => exact hquiet (by simp)
  | @produced s key message hphase =>
    refine ⟨h.table, by simp, ?_⟩
    rw [List.forall_mem_append, List.forall_mem_singleton]
    exact ⟨h.topic, h.sending s key message hphase⟩
  | notProduced hphase => exact hquiet fun _ _ _ => afterVisit_ne_produce
  | @stampAggregate s key hphase =>
    exact ⟨h.table.stampEntry key s.now, fun _ _ _ hp => absurd hp afterVisit_ne_produce, h.topic⟩
  | journaled hphase => exact hquiet (by simp)
  | @notJournaled s final hphase =>
    refine hquiet fun _ _ _ hp => ?_
    cases final <;> cases hp
  | readClock hphase hclock => exact hquiet (by simp)
  | @stamp s final flushedMs key todo hphase =>
    exact ⟨h.table.stampEntry key flushedMs, by simp, h.topic⟩
  | @stamped s final flushedMs hphase =>
    refine hquiet fun _ _ _ hp => ?_
    cases final <;> cases hp
  | publish hphase => exact hquiet (by simp)
  | @delete key todo hphase =>
    exact ⟨h.table.erase key, by simp, h.topic⟩
  | deleted hphase => exact hquiet (by simp)

end Tracemate.Metric
