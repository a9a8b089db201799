import Tracemate.TransactionStore.Jaeger
import Tracemate.TransactionStore.Lookups

/-!
# A trace is quiet when it goes to Jaeger

The root record of a trace holds the time at which it was put or a child was added last.

* `IsTraceId`: the ids of traces, and the key that is none of them;
* `Call`, `Moment`, `jaegerStep`: runs of the operations and of
  `tm_transaction_store_process_jaeger`, with the clock, the ids that have been put and the
  children that have been added;
* `Orderly`: the clock does not go back, no root is put twice, and ids are ids;
* `Dominated`: the root record of a trace is not older than its children;
* `children_before_handed`: the children of a trace that is handed to Jaeger have been added before
  the lookback time.
-/

namespace Tracemate.TransactionStore

open CStr JsonC Lmdb Runs

/-- A C string without a dash. -/
def IsTraceId (id : Bytes) : Prop := '-'.toUInt8 ∉ id ∧ 0 ∉ id

instance (id : Bytes) : Decidable (IsTraceId id) := by
  unfold IsTraceId
  infer_instance

/-- The id of a trace that is not the key of the time of opening. -/
def IsOrdinaryId (id : Bytes) : Prop := IsTraceId id ∧ id ≠ openMsKey

/-- A call of an operation or of `tm_transaction_store_process_jaeger`. -/
inductive Call
  | op (op : Op)
  | processJaeger (now : ℕ) (a : JaegerAnswers)

/-- The store and the last reading of the clock, the ids whose roots have been put, and the
children that have been added, with their times. -/
structure Moment where
  store : Store
  clock : ℕ
  roots : List Bytes
  children : List (Bytes × ℕ)

/-- The reading of the clock, where an operation reads it. -/
def Op.reading : Op → Option ℕ
  | .put _ _ _ now _ => some now
  | .addChild _ _ _ now _ => some now
  | .markTraceable _ _ => none
  | .deleteOldTransactions now _ _ => some now

section Steps

variable (j : JaegerEnv) (compress : Bytes → Option Bytes)

/-- The ids that have been put after an operation. -/
def Moment.rootsAfter (m : Moment) : Op → List Bytes
  | .put id _ _ _ _ => id :: m.roots
  | _ => m.roots

/-- The children that have been added after an operation. -/
def Moment.childrenAfter (m : Moment) : Op → List (Bytes × ℕ)
  | .addChild traceId child ttl now a =>
    if (tmTransactionStoreAddChild j.lib compress m.store traceId child ttl now a).2 then
      (traceId, now) :: m.children
    else m.children
  | _ => m.children

/-- The state after a call, if it returns. -/
def Moment.next (m : Moment) : Call → Option Moment
  | .op op => some ⟨m.store.apply j.lib compress op, op.reading.getD m.clock, m.rootsAfter op,
      m.childrenAfter j compress op⟩
  | .processJaeger now a =>
    match tmTransactionStoreProcessJaeger j m.store now a with
    | .ok (store, _, _) => some ⟨store, now, m.roots, m.children⟩
    | .error _ => none

/-- One call of a run. -/
def jaegerStep (m : Moment) (call : Call) (m' : Moment) : Prop :=
  m.next j compress call = some m'

end Steps

/-- The calls are made with ids, each at one reading of a clock that does not go back and is past
the lookback time, no root is put twice, and the parent record that is written back is
committed. -/
def Orderly (ids : Bytes → Prop) (m : Moment) : Call → Prop
  | .op op =>
    (∀ now ∈ op.reading, m.clock ≤ now ∧ m.store.defaultLookbackSecs.toInt * 1000 ≤ now) ∧
    match op with
    | .put id _ _ _ _ => ids id ∧ id ∉ m.roots
    | .addChild traceId _ _ _ a => ids traceId ∧ a.commitParent = true
    | .markTraceable traceId _ => ids traceId
    | .deleteOldTransactions now nowCurrent nowLast => nowCurrent = now ∧ nowLast = now
  | .processJaeger now _ =>
    m.clock ≤ now ∧ m.store.defaultLookbackSecs.toInt * 1000 ≤ now

/-- The calls of LMDB succeed. -/
def JaegerAnswers.Succeed (a : JaegerAnswers) : Prop :=
  (∀ side, a.read side = true) ∧ (∀ key, a.writeTxn key = true) ∧ ∀ key, a.deletes key = true

/-- All calls of LMDB succeed. -/
def Call.Succeeds : Call → Prop
  | .op (.put _ _ _ _ ok) => ok = true
  | .op (.addChild _ _ _ _ a) => a.readLast = true ∧ a.readCurrent = true ∧ a.putParent = true ∧
    a.commitParent = true ∧ a.putChild = true
  | .op (.markTraceable _ ok) => ok = true
  | .op (.deleteOldTransactions _ _ _) => True
  | .processJaeger _ a => a.Succeed

/-- The call hands over traces whose children have been added before the lookback time only. -/
def HandsOverQuiet (j : JaegerEnv) (m : Moment) : Call → Prop
  | .op _ => True
  | .processJaeger now a => ∀ store report n,
    tmTransactionStoreProcessJaeger j m.store now a = .ok (store, report, n) →
      ∀ h ∈ report.handed, ∀ time, (h.key, time) ∈ m.children →
        (time : ℤ) ≤ now - m.store.defaultLookbackSecs.toInt * 1000

/-- Every root record is that of an id that has been put, and is not older than the children of its
trace; no trace has two of them. -/
structure Dominated (ids : Bytes → Prop) (m : Moment) : Prop where
  opened : m.store.Opened
  filtered : Filtered ids m.store
  dominates : ∀ side key v, ids key → m.store.record side key = some v →
    key ∈ m.roots ∧ ∃ r, v = .root r ∧ ∀ time, (key, time) ∈ m.children → time ≤ r.lastModifiedMs
  single : ∀ side key, ids key → (m.store.record side key).isSome = true →
    m.store.record side.other key = none
  past : ∀ key time, (key, time) ∈ m.children → time ≤ m.clock
  marks : ∀ side key, m.store.contents.marked side key → ids key

variable {j : JaegerEnv} {compress : Bytes → Option Bytes} {ids : Bytes → Prop} {m m' : Moment}
  {s s' : Store} {side : Side} {key traceId : Bytes}

/-! ### Ids and marks -/

/-- The key of a child has a dash, or the end of its buffer. -/
theorem not_isTraceId_childKey (lib : Conversions) (child : Json) (stack : Bytes)
    (hkey : ValidKey (childKey lib traceId child stack)) :
    ¬ IsTraceId (childKey lib traceId child stack) := by
  rintro ⟨hdash, hnul⟩
  unfold childKey at hkey hdash hnul
  dsimp only at hkey hdash hnul
  split_ifs at hkey hdash hnul with hlong
  · unfold childKeyText at hkey hdash
    split at hkey
    · exact hkey.1 rfl
    · next hevent =>
      rw [hevent] at hdash
      apply hdash
      simp only [List.mem_append]
      exact .inl (.inr (by decide))
  · exact hnul (List.mem_append_right _ List.mem_cons_self)

theorem MarksDeleted.record_eq (h : MarksDeleted s s') (side : Side) (key : Bytes) :
    s'.record side key = s.record side key := by
  unfold Store.record
  rw [h.ts]

theorem MarksDeleted.marked (h : MarksDeleted s s') (hmark : s'.contents.marked side key) :
    s.contents.marked side key := by
  obtain ⟨v, hv⟩ := Option.isSome_iff_exists.1 (AList.lookup_isSome.2 hmark)
  exact AList.lookup_isSome.1 (by rw [h.marks side key v hv]; rfl)

/-! ### The invariant -/

/-- A root record is put. -/
theorem Dominated.put (h : Dominated ids m) (hms : ¬ ids openMsKey) {id : Bytes} {entry : Entry}
    {ttl : Int32} {now : ℕ} {ok : Bool} (hid : ids id) (hnew : id ∉ m.roots)
    (hnow : m.clock ≤ now) :
    Dominated ids ⟨m.store.apply j.lib compress (.put id entry ttl now ok), now, id :: m.roots,
      m.children⟩ where
  opened := (apply_spec j.lib compress h.opened _).1
  filtered := h.filtered.apply j.lib compress h.opened hms hid
  dominates side key v hkey hv := by
    dsimp only at hv ⊢
    rcases @record_put _ j.lib compress h.opened id entry ttl now ok with
      heq | ⟨r, hr, hrecord, -⟩
    · rw [heq] at hv
      obtain ⟨hroots, hdominates⟩ := h.dominates side key v hkey hv
      exact ⟨List.mem_cons_of_mem _ hroots, hdominates⟩
    · rw [hrecord] at hv
      split_ifs at hv with hput
      · rw [hput.2]
        refine ⟨List.mem_cons_self, r, (Option.some.inj hv).symm, fun time htime => ?_⟩
        rw [hr]
        exact (h.past id time htime).trans hnow
      · obtain ⟨hroots, hdominates⟩ := h.dominates side key v hkey hv
        exact ⟨List.mem_cons_of_mem _ hroots, hdominates⟩
  single side key hkey hsome := by
    dsimp only at hsome ⊢
    -- the id has no record yet
    have hnone : ∀ side, m.store.record side id = none := fun side => by
      cases hv : m.store.record side id with
      | none => rfl
      | some v => exact absurd (h.dominates side id v hid hv).1 hnew
    rcases @record_put _ j.lib compress h.opened id entry ttl now ok with
      heq | ⟨r, -, hrecord, -⟩
    · rw [heq] at hsome ⊢
      exact h.single side key hkey hsome
    · rw [hrecord] at hsome ⊢
      by_cases hk : key = id
      · subst hk
        rw [hnone] at hsome ⊢
        cases side with
        | current => rfl
        | last => cases hsome
      · rw [if_neg fun hc => hk hc.2] at hsome ⊢
        exact h.single side key hkey hsome
  past key time htime := (h.past key time htime).trans hnow
  marks side key hmark := h.marks side key (marked_apply compress h.opened _ hmark)

/-- An operation that keeps the records under ids and adds no child. -/
theorem Dominated.of_record (h : Dominated ids m) {s : Store} {now : ℕ} (hopen : s.Opened)
    (hfiltered : Filtered ids s)
    (hrecord : ∀ side key, ids key → s.record side key = m.store.record side key)
    (hnow : m.clock ≤ now) (hmarks : ∀ side key, s.contents.marked side key → ids key) :
    Dominated ids ⟨s, now, m.roots, m.children⟩ where
  opened := hopen
  filtered := hfiltered
  dominates side key v hkey hv := by
    rw [hrecord side key hkey] at hv
    exact h.dominates side key v hkey hv
  single side key hkey hsome := by
    dsimp only at hsome ⊢
    rw [hrecord side key hkey] at hsome
    rw [hrecord side.other key hkey]
    exact h.single side key hkey hsome
  past key time htime := (h.past key time htime).trans hnow
  marks := hmarks

section AddChild

variable {child : Json} {ttl : Int32} {now : ℕ} {a : Answers}

/-- One more child at most, of this trace. -/
theorem mem_childrenAfter_addChild {time : ℕ} (htime :
    (key, time) ∈ m.childrenAfter j compress (.addChild traceId child ttl now a)) :
    (key, time) ∈ m.children ∨ (key = traceId ∧ time = now ∧
      (tmTransactionStoreAddChild j.lib compress m.store traceId child ttl now a).2 = true) := by
  unfold Moment.childrenAfter at htime
  dsimp only at htime
  split_ifs at htime with hadded
  · rcases List.mem_cons.1 htime with heq | htime
    · obtain ⟨rfl, rfl⟩ := Prod.mk.inj heq
      exact .inr ⟨rfl, rfl, hadded⟩
    · exact .inl htime
  · exact .inl htime

theorem Dominated.past_addChild (h : Dominated ids m) (hnow : m.clock ≤ now) {time : ℕ} (htime :
    (key, time) ∈ m.childrenAfter j compress (.addChild traceId child ttl now a)) :
    time ≤ now := by
  rcases mem_childrenAfter_addChild htime with htime | ⟨-, rfl, -⟩
  · exact (h.past key time htime).trans hnow
  · exact le_rfl

/-- The parent record is written back where it has been read, so no root record is doubled. -/
theorem Dominated.single_addChild (h : Dominated ids m)
    (hop : (Op.addChild traceId child ttl now a).Apart j.lib ids) (hkey : ids key)
    (hsome : ((m.store.apply j.lib compress (.addChild traceId child ttl now a)).record side
      key).isSome = true) :
    (m.store.apply j.lib compress (.addChild traceId child ttl now a)).record side.other key =
      none := by
  dsimp only [Store.apply] at hsome ⊢
  rcases record_addChild compress h.opened child ttl now a hop.2 with
    heq | ⟨-, hrecord⟩ | ⟨side', parent, hp, hrecord⟩
  · rw [heq] at hsome ⊢
    exact h.single side key hkey hsome
  · rw [hrecord side key hkey] at hsome
    rw [hrecord side.other key hkey]
    exact h.single side key hkey hsome
  · rw [hrecord side key hkey] at hsome
    rw [hrecord side.other key hkey]
    have hnone := h.single side key hkey (isSome_touchParent h.opened hp hsome)
    rw [← Option.not_isSome_iff_eq_none] at hnone ⊢
    exact fun hsome' => hnone (isSome_touchParent h.opened hp hsome')

/-- The parent record is written back with the reading of the clock. -/
theorem Dominated.dominates_addChild (h : Dominated ids m)
    (hop : (Op.addChild traceId child ttl now a).Apart j.lib ids) (hcommit : a.commitParent = true)
    (hnow : m.clock ≤ now) {v : Stored} (hkey : ids key)
    (hv : (m.store.apply j.lib compress (.addChild traceId child ttl now a)).record side key =
      some v) :
    key ∈ m.roots ∧ ∃ r, v = .root r ∧ ∀ time,
      (key, time) ∈ m.childrenAfter j compress (.addChild traceId child ttl now a) →
        time ≤ r.lastModifiedMs := by
  dsimp only [Store.apply] at hv
  rcases record_addChild compress h.opened child ttl now a hop.2 with
    heq | ⟨hp, hrecord⟩ | ⟨side', parent, hp, hrecord⟩
  · -- the call has failed
    rw [heq] at hv
    obtain ⟨hroots, r, rfl, hdominates⟩ := h.dominates side key v hkey hv
    refine ⟨hroots, r, rfl, fun time htime => ?_⟩
    rcases mem_childrenAfter_addChild htime with htime | ⟨-, -, hadded⟩
    · exact hdominates time htime
    · rw [heq] at hadded
      cases hadded
  · -- there is no root record of this trace
    rw [hrecord side key hkey] at hv
    obtain ⟨hroots, r, rfl, hdominates⟩ := h.dominates side key v hkey hv
    refine ⟨hroots, r, rfl, fun time htime => ?_⟩
    rcases mem_childrenAfter_addChild htime with htime | ⟨rfl, -, -⟩
    · exact hdominates time htime
    · rw [parentLookup_notFound h.opened h.filtered hkey hp] at hv
      cases hv
  · rw [hrecord side key hkey] at hv
    unfold Store.touchParent at hv
    rw [if_pos hcommit, record_write] at hv
    have hparent := parentLookup_found h.opened hp
    split_ifs at hv with hhere
    · -- the record that has been written back
      obtain ⟨rfl, rfl⟩ := hhere
      obtain ⟨hroots, r, rfl, -⟩ := h.dominates side key parent hkey hparent
      exact ⟨hroots, _, (Option.some.inj hv).symm, fun time htime => h.past_addChild hnow htime⟩
    · obtain ⟨hroots, r, rfl, hdominates⟩ := h.dominates side key v hkey hv
      refine ⟨hroots, r, rfl, fun time htime => ?_⟩
      rcases mem_childrenAfter_addChild htime with htime | ⟨rfl, -, -⟩
      · exact hdominates time htime
      · -- the trace would have a root record on the other side, too
        obtain rfl : side'.other = side := by
          cases side <;> cases side' <;> first | rfl | exact absurd ⟨rfl, rfl⟩ hhere
        rw [h.single side' key hkey (by unfold Store.record; rw [hparent]; rfl)] at hv
        cases hv

/-- A child is added. -/
theorem Dominated.addChild (h : Dominated ids m) (hms : ¬ ids openMsKey)
    (hop : (Op.addChild traceId child ttl now a).Apart j.lib ids) (hcommit : a.commitParent = true)
    (hnow : m.clock ≤ now) :
    Dominated ids ⟨m.store.apply j.lib compress (.addChild traceId child ttl now a), now, m.roots,
      m.childrenAfter j compress (.addChild traceId child ttl now a)⟩ where
  opened := (apply_spec j.lib compress h.opened _).1
  filtered := h.filtered.apply j.lib compress h.opened hms hop
  dominates _ _ _ hkey hv := h.dominates_addChild hop hcommit hnow hkey hv
  single _ _ hkey hsome := h.single_addChild hop hkey hsome
  past _ _ htime := h.past_addChild hnow htime
  marks side key hmark := h.marks side key (marked_apply compress h.opened _ hmark)

end AddChild

/-- The environments are rotated. -/
theorem Dominated.deleteOldTransactions (h : Dominated ids m) (hms : ¬ ids openMsKey)
    {now nowCurrent nowLast : ℕ} (hnow : m.clock ≤ now) :
    Dominated ids ⟨m.store.apply j.lib compress (.deleteOldTransactions now nowCurrent nowLast),
      now, m.roots, m.children⟩ where
  opened := (apply_spec j.lib compress h.opened _).1
  filtered := h.filtered.apply j.lib compress h.opened hms trivial
  dominates side key v hkey hv := by
    dsimp only at hv ⊢
    rcases @record_deleteOldTransactions _ j.lib compress h.opened now nowCurrent nowLast with
      heq | ⟨hlast, hcurrent, -, -⟩
    · rw [heq] at hv
      exact h.dominates side key v hkey hv
    · cases side with
      | current =>
        rw [hcurrent key fun hc => hms (hc ▸ hkey)] at hv
        cases hv
      | last =>
        rw [hlast] at hv
        exact h.dominates .current key v hkey hv
  single side key hkey hsome := by
    dsimp only at hsome ⊢
    rcases @record_deleteOldTransactions _ j.lib compress h.opened now nowCurrent nowLast with
      heq | ⟨hlast, hcurrent, -, -⟩
    · rw [heq] at hsome ⊢
      exact h.single side key hkey hsome
    · have hnone := hcurrent key fun hc => hms (hc ▸ hkey)
      cases side with
      | current =>
        rw [hnone] at hsome
        cases hsome
      | last => exact hnone
  past key time htime := (h.past key time htime).trans hnow
  marks side key hmark := by
    rcases marked_apply compress h.opened _ hmark with ⟨-, -, hmark⟩ | ⟨-, hmark⟩
    · exact h.marks .current key hmark
    · exact h.marks side key hmark

/-- Marks are deleted. -/
theorem Dominated.processJaeger (h : Dominated ids m) {now : ℕ} {a : JaegerAnswers}
    {report : JaegerReport} {n : ℕ} (hnow : m.clock ≤ now)
    (hok : tmTransactionStoreProcessJaeger j m.store now a = .ok (s, report, n)) :
    Dominated ids ⟨s, now, m.roots, m.children⟩ := by
  obtain ⟨hdeleted, -⟩ := processJaeger_spec h.opened hok
  refine h.of_record (hdeleted.opened h.opened) ?_ (fun side key _ => hdeleted.record_eq side key)
    hnow fun side key hmark => h.marks side key (hdeleted.marked hmark)
  refine h.filtered.of_record hdeleted.useBloom (fun side key _ hsome => ?_) hdeleted.bloom
  rwa [hdeleted.record_eq] at hsome

/-- Every orderly call keeps the invariant. -/
theorem Dominated.step (hms : ¬ ids openMsKey)
    (hids : ∀ id, ids id → IsTraceId id) (h : Dominated ids m) {call : Call}
    (hcall : Orderly ids m call) (hstep : jaegerStep j compress m call m') : Dominated ids m' := by
  unfold jaegerStep at hstep
  cases call with
  | op op =>
    obtain rfl := Option.some.inj hstep
    obtain ⟨hnow, hop⟩ := hcall
    cases op with
    | put id entry ttl now ok => exact h.put hms hop.1 hop.2 (hnow now rfl).1
    | addChild traceId child ttl now a =>
      refine h.addChild hms ⟨hop.1, fun hkey hid => ?_⟩ hop.2 (hnow now rfl).1
      exact not_isTraceId_childKey j.lib child a.stack hkey (hids _ hid)
    | markTraceable traceId ok =>
      refine h.of_record (apply_spec j.lib compress h.opened _).1
        (h.filtered.apply j.lib compress h.opened hms trivial)
        (fun side key _ => record_markTraceable compress h.opened traceId ok side key) le_rfl
        fun side key hmark => ?_
      rcases marked_apply compress h.opened _ hmark with ⟨-, rfl⟩ | hmark
      · exact hop
      · exact h.marks side key hmark
    | deleteOldTransactions now nowCurrent nowLast =>
      exact h.deleteOldTransactions hms (hnow now rfl).1
  | processJaeger now a =>
    unfold Moment.next at hstep
    dsimp only at hstep
    split at hstep
    · next store report n hok =>
      obtain rfl := Option.some.inj hstep
      exact h.processJaeger hcall.1 hok
    · cases hstep

/-- The time before which a trace is quiet. -/
theorem timeMs_le {lookback : Int32} {now : ℕ} (h : lookback.toInt * 1000 ≤ now) :
    (timeMs lookback now : ℤ) ≤ now - lookback.toInt * 1000 := by
  unfold timeMs
  have hnonneg : 0 ≤ (now : ℤ) - lookback.toInt * 1000 := by omega
  rw [Int.toNat_of_nonneg (Int.emod_nonneg _ (by decide))]
  omega

/-- What is handed over in a dominated state is quiet. -/
theorem Dominated.handsOverQuiet (h : Dominated ids m) {call : Call}
    (hcall : Orderly ids m call) : HandsOverQuiet j m call := by
  cases call with
  | op op => trivial
  | processJaeger now a =>
    intro store report n hok x hx time htime
    obtain ⟨side, ⟨data, record, hmem, hrecord, hquiet⟩, -, -⟩ :=
      (processJaeger_spec h.opened hok).2 x hx
    have hname : (m.store.side side).env.dbName (m.store.side side).jaegerDbi = some .jaeger := by
      rw [(h.opened side).jaegerDbi]
      exact (h.opened side).dbName_jaeger
    have hdata := (mem_cursor_iff hname).1 hmem
    have hkey : ids x.key := h.marks side x.key (AList.lookup_isSome.1 (by rw [hdata]; rfl))
    rw [(h.opened side).marks x.key data hdata, markedRecord_trace h.opened] at hrecord
    obtain ⟨-, r, rfl, hdominates⟩ := h.dominates side x.key record hkey hrecord
    have htimeMs := timeMs_le hcall.2
    have hle : time ≤ timeMs m.store.defaultLookbackSecs now :=
      (hdominates time htime).trans hquiet
    omega

/-! ### Runs -/

/-- The store in a directory without files, and no calls yet. -/
def Moment.fresh (nowCurrent nowLast : ℕ) (defaultLookbackSecs : Int32) (useBloomFilters : Bool) :
    Moment :=
  ⟨Store.fresh nowCurrent nowLast defaultLookbackSecs useBloomFilters, nowLast, [], []⟩

theorem Dominated.fresh (hms : ¬ ids openMsKey) (nowCurrent nowLast : ℕ)
    (defaultLookbackSecs : Int32) (useBloomFilters : Bool) :
    Dominated ids (Moment.fresh nowCurrent nowLast defaultLookbackSecs useBloomFilters) := by
  have hrecord : ∀ side key, ids key → (Moment.fresh nowCurrent nowLast defaultLookbackSecs
      useBloomFilters).store.record side key = none := by
    intro side key hkey
    have hne : key ≠ openMsKey := fun heq => hms (heq ▸ hkey)
    cases side with
    | current => exact (lookup_emptyFile nowCurrent ∅ key).trans (if_neg hne)
    | last => exact (lookup_emptyFile nowLast ∅ key).trans (if_neg hne)
  refine ⟨opened_fresh nowCurrent nowLast defaultLookbackSecs useBloomFilters, ?_, ?_, ?_, ?_, ?_⟩
  · intro _ side key hkey hsome
    rw [hrecord side key hkey] at hsome
    cases hsome
  · intro side key v hkey hv
    rw [hrecord side key hkey] at hv
    cases hv
  · intro side key hkey hsome
    rw [hrecord side key hkey] at hsome
    cases hsome
  · intro key time htime
    cases htime
  · intro side key hmark
    exact absurd hmark ((contents_fresh nowCurrent nowLast defaultLookbackSecs useBloomFilters
      side).2 key)

/-- **Quiescence.**  From a directory without files, whenever a trace is handed to Jaeger, all its
children that have been added before were added no later than the lookback time ago. -/
theorem children_before_handed (j : JaegerEnv) (compress : Bytes → Option Bytes)
    (nowCurrent nowLast : ℕ) (defaultLookbackSecs : Int32) (useBloomFilters : Bool)
    {tr : List (Event Moment Call)} {m : Moment}
    (hrun : Run (jaegerStep j compress)
      (Moment.fresh nowCurrent nowLast defaultLookbackSecs useBloomFilters) tr m)
    (horderly : ∀ e ∈ tr, Orderly IsOrdinaryId e.before e.label) :
    ∀ e ∈ tr, HandsOverQuiet j e.before e.label := by
  have hms : ¬ IsOrdinaryId openMsKey := fun h => h.2 rfl
  have hinv := hrun.guarded (Dominated IsOrdinaryId) (Orderly IsOrdinaryId)
    (.fresh hms nowCurrent nowLast defaultLookbackSecs useBloomFilters)
    (fun _ _ _ h hcall hstep => h.step hms (fun _ hid => hid.1) hcall hstep) horderly
  intro e he
  exact (hinv.1 e he).1.handsOverQuiet (horderly e he)

/-! ### Two ids -/

/-- The libraries, if every record holds this document of the service `a-web`. -/
def oneDocument : JaegerEnv where
  lib := reference
  jaegerDestUrl team := team ++ cstr ":14250"
  decompress _ := none
  parse _ := some (.obj [(cstr "transaction", .obj [(cstr "context", .obj [(cstr "service",
    .obj [(cstr "name", .str (cstr "a-web"))])])])])
  otherAsRoot _ := ⟨false, 0, 0, 0, []⟩
  otherAsChild _ := ⟨[], false, 0, 0, []⟩

/-- A root is put and marked, and a span is added long after it. -/
def putMarkAdd (id : Bytes) : List Call := [
  .op (.put id ⟨1000000, .obj []⟩ 0 1000000 true),
  .op (.markTraceable id true),
  .op (.addChild id (.obj [(cstr "processor", .obj [(cstr "event", .str (cstr "span"))])]) 0
    1400000 ⟨true, true, true, true, true, false, false, []⟩)]

/-- LMDB succeeds. -/
def allReads : JaegerAnswers := ⟨fun _ => true, fun _ => true, fun _ => true⟩

/-- The states of the run. -/
def putMarkAddRun (id : Bytes) (now : ℕ) : Option (List (Event Moment Call) × Moment) :=
  exec (fun m call => m.next oneDocument (fun _ => none) call) (Moment.fresh 1000 1000 300 false)
    (putMarkAdd id ++ [.processJaeger now allReads])

instance (ids : Bytes → Prop) [DecidablePred ids] (m : Moment) (call : Call) :
    Decidable (Orderly ids m call) :=
  match call with
  | .op op =>
    @instDecidableAnd _ _
      (inferInstanceAs (Decidable
        (∀ now ∈ op.reading, m.clock ≤ now ∧ m.store.defaultLookbackSecs.toInt * 1000 ≤ now)))
      (match op with
      | .put id _ _ _ _ => inferInstanceAs (Decidable (ids id ∧ id ∉ m.roots))
      | .addChild traceId _ _ _ a =>
        inferInstanceAs (Decidable (ids traceId ∧ a.commitParent = true))
      | .markTraceable traceId _ => inferInstanceAs (Decidable (ids traceId))
      | .deleteOldTransactions now nowCurrent nowLast =>
        inferInstanceAs (Decidable (nowCurrent = now ∧ nowLast = now)))
  | .processJaeger now _ => inferInstanceAs (Decidable
      (m.clock ≤ now ∧ m.store.defaultLookbackSecs.toInt * 1000 ≤ now))

instance : DecidablePred IsOrdinaryId := fun id => by
  unfold IsOrdinaryId
  infer_instance

/-- The run ends with a trace that is handed over, for an ordinary id and for the other one. -/
theorem putMarkAddRun_eq {id : Bytes} {now : ℕ}
    (h : (id = cstr "1f" ∧ now = 1700000) ∨ (id = openMsKey ∧ now = 1400001)) :
    ∃ tr before after trace count n, putMarkAddRun id now =
        some (tr ++ [⟨before, .processJaeger now allReads, after⟩], after) ∧
      before.store.defaultLookbackSecs = 300 ∧ before.children = [(id, 1400000)] ∧
      tmTransactionStoreProcessJaeger oneDocument before.store now allReads =
        .ok (after.store, ⟨count, [trace], []⟩, n) ∧ trace.key = id := by
  rcases h with ⟨rfl, rfl⟩ | ⟨rfl, rfl⟩
  · exact ⟨[_, _, _], _, _, _, _, _, rfl, rfl, rfl, rfl, rfl⟩
  · exact ⟨[_, _, _], _, _, _, _, _, rfl, rfl, rfl, rfl, rfl⟩

/-- The trace of an ordinary id is handed over when its span is old enough. -/
theorem quiet_trace_handed : ∃ tr m, putMarkAddRun (cstr "1f") 1700000 = some (tr, m) ∧
    (∃ e ∈ tr, ∃ store report n trace, tmTransactionStoreProcessJaeger oneDocument e.before.store
      1700000 allReads = .ok (store, report, n) ∧ trace ∈ report.handed ∧ trace.key = cstr "1f") ∧
    ∀ e ∈ tr, HandsOverQuiet oneDocument e.before e.label := by
  obtain ⟨tr, before, after, trace, count, n, hrun, -, -, hok, hkey⟩ :=
    putMarkAddRun_eq (.inl ⟨rfl, rfl⟩)
  have horderly : (putMarkAddRun (cstr "1f") 1700000).map (fun p => p.1.all fun e =>
      Orderly IsOrdinaryId e.before e.label) = some true := by decide
  rw [hrun] at horderly
  refine ⟨_, _, hrun, ⟨_, List.mem_append_right _ (List.mem_singleton_self _), _, _, _, trace, hok,
    List.mem_singleton_self _, hkey⟩, ?_⟩
  refine children_before_handed oneDocument (fun _ => none) 1000 1000 300 false
    (.of_exec (fun _ _ _ h => h) hrun) fun e he => ?_
  exact of_decide_eq_true (List.all_eq_true.1 (Option.some.inj horderly) e he)

/-- A child of the trace whose id is the key of the time of opening does not touch its root
record. -/
theorem reserved_id_handed_early : ¬ ∀ (j : JaegerEnv) (compress : Bytes → Option Bytes)
    (nowCurrent nowLast : ℕ) (defaultLookbackSecs : Int32) (useBloomFilters : Bool)
    (tr : List (Event Moment Call)) (m : Moment), 0 ≤ defaultLookbackSecs.toInt →
    Run (jaegerStep j compress)
      (Moment.fresh nowCurrent nowLast defaultLookbackSecs useBloomFilters) tr m →
    (∀ e ∈ tr, Orderly IsTraceId e.before e.label ∧ e.label.Succeeds) →
    ∀ e ∈ tr, HandsOverQuiet j e.before e.label := by
  intro hall
  obtain ⟨tr, before, after, trace, count, n, hrun, hlookback, hchildren, hok, hkey⟩ :=
    putMarkAddRun_eq (.inr ⟨rfl, rfl⟩)
  have horderly : (putMarkAddRun openMsKey 1400001).map (fun p => p.1.all fun e =>
      Orderly IsTraceId e.before e.label) = some true := by decide
  rw [hrun] at horderly
  have hsucceeds : ∀ call ∈ putMarkAdd openMsKey ++ [.processJaeger 1400001 allReads],
      call.Succeeds := by simp [putMarkAdd, Call.Succeeds, JaegerAnswers.Succeed, allReads]
  have hquiet := hall oneDocument (fun _ => none) 1000 1000 300 false _ _ (by decide)
    (.of_exec (fun _ _ _ h => h) hrun)
    (fun e he => ⟨of_decide_eq_true (List.all_eq_true.1 (Option.some.inj horderly) e he),
      hsucceeds _ (labels_of_exec hrun ▸ List.mem_map_of_mem he)⟩)
    _ (List.mem_append_right _ (List.mem_singleton_self _))
  have hle := hquiet _ _ _ hok trace (List.mem_singleton_self _) 1400000
    (by rw [hchildren, hkey]; exact List.mem_cons_self)
  rw [hlookback] at hle
  exact absurd hle (by decide)

end Tracemate.TransactionStore
