import Tracemate.Lib.Runs
import Tracemate.TransactionStore.Operations

/-!
# What the environments hold

The contents of a store, by the kinds of its records and by its marks, and what the operations do
to them.

* `Contents`: for each environment the kinds of the records, by key, and the marked keys;
* `Opened`: the handles of an environment denote `ts` and `jaeger`;
* `Store.writes`, `Store.target`: whether an operation writes, and where a child goes;
* `contents_put` and the like: the contents after an operation;
* `storeStep`, `opened_run`: runs, and the invariant.
-/

namespace Tracemate.TransactionStore

open CStr JsonC Lmdb Runs

/-! ### Handles -/

/-- The two databases are open, in this order, and `ts` holds the time of opening. -/
structure Opened (e : StoreEnv) : Prop where
  slots : e.env.slots = [.ts, .jaeger]
  dbi : e.dbi = 2
  jaegerDbi : e.jaegerDbi = 3
  openMs : openMsKey ∈ e.env.file .ts
  keys : ∀ name, [] ∉ e.env.file name
  marks : ∀ key v, (e.env.file .jaeger).lookup key = some v → v = .trace

variable {e : StoreEnv} {s : Store}

theorem Opened.dbName_ts (h : Opened e) : e.env.dbName 2 = some .ts := by
  simp [Env.dbName, h.slots]

theorem Opened.dbName_jaeger (h : Opened e) : e.env.dbName 3 = some .jaeger := by
  simp [Env.dbName, h.slots]

/-- A key that LMDB stores. -/
def ValidKey (key : Bytes) : Prop := key ≠ [] ∧ key.length ≤ maxKeySize

instance (key : Bytes) : Decidable (ValidKey key) := by
  unfold ValidKey
  infer_instance

/-- The environment after a record has been written to `ts`. -/
def StoreEnv.write (e : StoreEnv) (name : DbName) (key : Bytes) (v : Stored) : StoreEnv :=
  { e with env := { e.env with
    file := Function.update e.env.file name ((e.env.file name).insert key v) } }

theorem Opened.write (h : Opened e) {name : DbName} {key : Bytes} {v : Stored} (hkey : key ≠ [])
    (hv : name = .jaeger → v = .trace) : Opened (e.write name key v) where
  slots := h.slots
  dbi := h.dbi
  jaegerDbi := h.jaegerDbi
  openMs := by
    unfold StoreEnv.write
    by_cases hname : name = .ts
    · subst hname
      dsimp only
      rw [Function.update_self]
      exact (AList.mem_insert _).2 (.inr h.openMs)
    · dsimp only
      rw [Function.update_of_ne (Ne.symm hname)]
      exact h.openMs
  keys name' := by
    unfold StoreEnv.write
    by_cases hname : name' = name
    · subst hname
      dsimp only
      rw [Function.update_self, AList.mem_insert]
      exact fun hk => hk.elim (fun hk => hkey hk.symm) (h.keys _)
    · dsimp only
      rw [Function.update_of_ne hname]
      exact h.keys name'
  marks k v' hv' := by
    unfold StoreEnv.write at hv'
    by_cases hname : name = .jaeger
    · subst hname
      dsimp only at hv'
      rw [Function.update_self] at hv'
      by_cases hk : k = key
      · rw [hk, AList.lookup_insert] at hv'
        rw [← Option.some.inj hv', hv rfl]
      · rw [AList.lookup_insert_ne hk] at hv'
        exact h.marks k v' hv'
    · dsimp only at hv'
      rw [Function.update_of_ne (Ne.symm hname)] at hv'
      exact h.marks k v' hv'

/-- Both environments of the store are open. -/
def Store.Opened (s : Store) : Prop := ∀ side, TransactionStore.Opened (s.side side)

/-! ### Contents -/

/-- For each environment the kinds of the records in `ts`, by key, and the marked keys. -/
structure Contents where
  kinds : Side → Bytes → Option Kind
  marked : Side → Bytes → Prop

def Store.contents (s : Store) : Contents where
  kinds side key := (((s.side side).env.file .ts).lookup key).map Stored.kind
  marked side key := key ∈ (s.side side).env.file .jaeger

/-- A record of this kind is written to `ts`. -/
def Contents.write (c : Contents) (side : Side) (key : Bytes) (kind : Kind) : Contents :=
  { c with kinds := Function.update c.kinds side (Function.update (c.kinds side) key (some kind)) }

/-- The key is marked. -/
def Contents.mark (c : Contents) (side : Side) (key : Bytes) : Contents :=
  { c with marked := Function.update c.marked side fun k => k = key ∨ c.marked side k }

/-- The current environment becomes the last one, and a fresh one the current. -/
def Contents.rotate (c : Contents) : Contents where
  kinds
    | .current => fun key => if key = openMsKey then some .other else none
    | .last => c.kinds .current
  marked
    | .current => fun _ => False
    | .last => c.marked .current

/-! ### Writes -/

/-- The store after a record has been written to one environment. -/
def Store.write (s : Store) (side : Side) (name : DbName) (key : Bytes) (v : Stored) : Store :=
  s.commit side ((s.side side).write name key v).env

theorem side_commit_self (s : Store) (side : Side) (env : Env DbName Stored) :
    (s.commit side env).side side = { s.side side with env } := by
  cases side <;> rfl

theorem side_commit_of_ne (s : Store) {side side' : Side} (env : Env DbName Stored)
    (h : side' ≠ side) : (s.commit side env).side side' = s.side side' := by
  cases side <;> cases side' <;> first | rfl | exact absurd rfl h

theorem Store.Opened.write (h : s.Opened) {side : Side} {name : DbName} {key : Bytes} {v : Stored}
    (hkey : key ≠ []) (hv : name = .jaeger → v = .trace) : (s.write side name key v).Opened := by
  intro side'
  unfold Store.write
  by_cases hside : side' = side
  · subst hside
    rw [side_commit_self]
    exact (h side').write hkey hv
  · rw [side_commit_of_ne s _ hside]
    exact h side'

/-- A write to `ts` changes one kind. -/
theorem contents_write_ts (s : Store) (side : Side) (key : Bytes) (v : Stored) :
    (s.write side .ts key v).contents = s.contents.write side key v.kind := by
  unfold Store.contents Contents.write
  congr 1
  · funext side' k
    by_cases hside : side' = side
    · subst hside
      rw [Store.write, side_commit_self, Function.update_self]
      by_cases hk : k = key
      · subst hk
        simp [StoreEnv.write]
      · rw [Function.update_of_ne hk]
        simp [StoreEnv.write, AList.lookup_insert_ne hk]
    · rw [Store.write, side_commit_of_ne s _ hside, Function.update_of_ne hside]
  · funext side' k
    by_cases hside : side' = side
    · subst hside
      rw [Store.write, side_commit_self]
      simp [StoreEnv.write]
    · rw [Store.write, side_commit_of_ne s _ hside]

/-- A write to `jaeger` marks one key. -/
theorem contents_write_jaeger (s : Store) (side : Side) (key : Bytes) (v : Stored) :
    (s.write side .jaeger key v).contents = s.contents.mark side key := by
  unfold Store.contents Contents.mark
  congr 1
  · funext side' k
    by_cases hside : side' = side
    · subst hside
      rw [Store.write, side_commit_self]
      simp [StoreEnv.write]
    · rw [Store.write, side_commit_of_ne s _ hside]
  · funext side' k
    by_cases hside : side' = side
    · subst hside
      rw [Store.write, side_commit_self, Function.update_self]
      simp [StoreEnv.write, AList.mem_insert]
    · rw [Store.write, side_commit_of_ne s _ hside, Function.update_of_ne hside]

/-- A record that is written again as the same kind. -/
theorem Contents.write_self {c : Contents} {side : Side} {key : Bytes} {kind : Kind}
    (h : c.kinds side key = some kind) : c.write side key kind = c := by
  unfold Contents.write
  rw [← h, Function.update_eq_self, Function.update_eq_self]

/-! ### Looking at the contents -/

/-- The main database of the environment holds a root record for the key. -/
def HoldsRoot (s : Store) (side : Side) (key : Bytes) : Prop :=
  ∃ r, ((s.side side).env.file .ts).lookup key = some (.root r)

theorem holdsRoot_iff {side : Side} {key : Bytes} :
    HoldsRoot s side key ↔ s.contents.kinds side key = some .root := by
  unfold HoldsRoot Store.contents
  constructor
  · rintro ⟨r, hr⟩
    dsimp only
    rw [hr]
    rfl
  · intro h
    obtain ⟨v, hv, hkind⟩ := Option.map_eq_some_iff.1 h
    obtain ⟨r, rfl⟩ := Stored.kind_eq_root.1 hkind
    exact ⟨r, hv⟩

instance (s : Store) (side : Side) (key : Bytes) : Decidable (HoldsRoot s side key) :=
  decidable_of_iff _ holdsRoot_iff.symm

instance (s : Store) (side : Side) (key : Bytes) : Decidable (s.contents.marked side key) :=
  inferInstanceAs (Decidable (key ∈ (s.side side).env.file .jaeger))

theorem Side.other_ne (side : Side) : side.other ≠ side := by cases side <;> decide

@[simp] theorem Side.other_other (side : Side) : side.other.other = side := by cases side <;> rfl

theorem Contents.kinds_write_self (c : Contents) (side : Side) (key : Bytes) (kind : Kind) :
    (c.write side key kind).kinds side key = some kind := by
  simp [Contents.write]

theorem Contents.kinds_write_of_ne (c : Contents) {side side' : Side} {key key' : Bytes}
    (kind : Kind) (h : side' = side → key' ≠ key) :
    (c.write side key kind).kinds side' key' = c.kinds side' key' := by
  unfold Contents.write
  by_cases hside : side' = side
  · subst hside
    dsimp only
    rw [Function.update_self, Function.update_of_ne (h rfl)]
  · dsimp only
    rw [Function.update_of_ne hside]

/-! ### Reading and writing through the handles -/

theorem put_ts (h : Opened e) (key : Bytes) (v : Stored) :
    e.env.put e.dbi key v = if ValidKey key then some (e.write .ts key v).env else none := by
  have hname : e.env.dbName e.dbi = some .ts := by rw [h.dbi]; exact h.dbName_ts
  split_ifs with hkey
  · exact put_eq hname hkey
  · exact put_eq_none hname hkey

theorem put_jaeger (h : Opened e) (key : Bytes) (v : Stored) :
    e.env.put e.jaegerDbi key v =
      if ValidKey key then some (e.write .jaeger key v).env else none := by
  have hname : e.env.dbName e.jaegerDbi = some .jaeger := by rw [h.jaegerDbi]; exact h.dbName_jaeger
  split_ifs with hkey
  · exact put_eq hname hkey
  · exact put_eq_none hname hkey

/-- Every handle of a main database denotes `ts`, in either environment. -/
theorem get_ts (h : s.Opened) (side side' : Side) (key : Bytes) (v : Stored) :
    (s.side side).env.get (s.side side').dbi key = .found v ↔
      ((s.side side).env.file .ts).lookup key = some v := by
  rw [(h side').dbi]
  by_cases hkey : key = []
  · subst hkey
    have hnone := AList.lookup_eq_none.2 ((h side).keys .ts)
    simp [Env.get, (h side).dbName_ts, hnone]
  · rw [get_eq (h side).dbName_ts hkey]
    cases ((s.side side).env.file .ts).lookup key <;> simp

/-- A parent record that is found is in `ts`. -/
theorem parentLookup_found (h : s.Opened) {traceId : Bytes} {a : Answers} {side : Side}
    {v : Stored} (hp : parentLookup s traceId a = .found (side, v)) :
    ((s.side side).env.file .ts).lookup traceId = some v := by
  have hin : ∀ side₀ inBloom ok, s.lookupIn side₀ traceId inBloom ok = .found (side, v) →
      ((s.side side).env.file .ts).lookup traceId = some v := by
    intro side₀ inBloom ok hl
    unfold Store.lookupIn at hl
    split_ifs at hl
    cases hg : (s.side side₀).env.get (s.side side₀).dbi traceId with
    | found w =>
      simp only [hg, Found.found.injEq, Prod.mk.injEq] at hl
      obtain ⟨rfl, rfl⟩ := hl
      exact (get_ts h side₀ side₀ traceId w).1 hg
    | notFound => simp [hg] at hl
    | error => simp [hg] at hl
  unfold parentLookup at hp
  split at hp
  · exact hin _ _ _ hp
  · exact hin _ _ _ hp

/-! ### The operations -/

section Effects

variable (lib : Conversions) (compress : Bytes → Option Bytes)

/-- Where a call of `tm_transaction_store_add_child` writes the child record, if it does. -/
def childTarget (s : Store) (traceId : Bytes) (child : Json) (a : Answers) :
    Option (Side × Bytes) :=
  let key := childKey lib traceId child a.stack
  match parentLookup s traceId a with
  | .error => none
  | .notFound => if a.putChild = true ∧ ValidKey key then some (.current, key) else none
  | .found (side, _) =>
    if (a.putParent = true ∧ ValidKey traceId) ∧ a.putChild = true ∧ ValidKey key then
      some (side, key)
    else none

/-- The contents after an operation. -/
def Store.effect (s : Store) : Op → Contents
  | .put id _ _ _ ok =>
    if ok = true ∧ ValidKey id then s.contents.write .current id .root else s.contents
  | .addChild traceId child _ _ a =>
    match childTarget lib s traceId child a with
    | some (side, key) => s.contents.write side key (.child traceId)
    | none => s.contents
  | .markTraceable traceId ok =>
    if ok = true ∧ ValidKey traceId then s.contents.mark .current traceId else s.contents
  | .deleteOldTransactions now _ _ =>
    if now > s.current.openMs ∧ now - s.current.openMs > tenMinutesMs then s.contents.rotate
    else s.contents

/-- The filter is of no account here. -/
theorem Opened.of_bloom (h : Opened e) (bloom : Finset Bytes) : Opened { e with bloom } :=
  ⟨h.slots, h.dbi, h.jaegerDbi, h.openMs, h.keys, h.marks⟩

theorem contents_of_bloom (s : Store) (env : Env DbName Stored) (bloom : Finset Bytes) :
    ({ s with current := { s.current with env, bloom } } : Store).contents =
      (s.commit .current env).contents := by
  unfold Store.contents
  congr 1 <;> funext side key <;> cases side <;> rfl

theorem put_spec (h : s.Opened) (id : Bytes) (entry : Entry) (ttl : Int32) (now : ℕ) (ok : Bool) :
    let s' := s.apply lib compress (.put id entry ttl now ok)
    s'.Opened ∧ s'.contents = s.effect lib (.put id entry ttl now ok) := by
  have hput := put_ts (h .current) id
  dsimp only [Store.apply, tmTransactionStorePut, Store.effect]
  by_cases hok : ok = true ∧ ValidKey id
  · obtain ⟨rfl, hkey⟩ := hok
    have hcurrent : (s.side .current) = s.current := rfl
    have heffect : true = true ∧ ValidKey id := ⟨rfl, hkey⟩
    rw [if_pos rfl, ← hcurrent, hput, if_pos hkey, if_pos heffect]
    refine ⟨fun side => ?_, (contents_of_bloom s _ _).trans (contents_write_ts s .current id _)⟩
    cases side with
    | current => exact ((h .current).write hkey.1 (by simp)).of_bloom _
    | last => exact h .last
  · rw [if_neg hok]
    cases ok with
    | false => exact ⟨h, rfl⟩
    | true =>
      have hcurrent : (s.side .current) = s.current := rfl
      have hkey : ¬ ValidKey id := fun hkey => hok ⟨rfl, hkey⟩
      rw [if_pos rfl, ← hcurrent, hput, if_neg hkey]
      exact ⟨h, rfl⟩

/-- The child record is written, or nothing is. -/
theorem writeChild_spec (h : s.Opened) (side : Side) (traceId : Bytes) (child : Json) (ttl : Int32)
    (now : ℕ) (a : Answers) :
    let s' := (writeChild lib compress s side traceId child ttl now a).1
    s'.Opened ∧ s'.contents =
      if a.putChild = true ∧ ValidKey (childKey lib traceId child a.stack) then
        s.contents.write side (childKey lib traceId child a.stack) (.child traceId)
      else s.contents := by
  dsimp only [writeChild]
  by_cases hput : a.putChild = true
  · rw [if_pos hput, put_ts (h side)]
    by_cases hkey : ValidKey (childKey lib traceId child a.stack)
    · rw [if_pos hkey, if_pos ⟨hput, hkey⟩]
      exact ⟨h.write hkey.1 (by simp), contents_write_ts s side _ _⟩
    · rw [if_neg hkey, if_neg fun hc => hkey hc.2]
      exact ⟨h, rfl⟩
  · rw [if_neg hput, if_neg fun hc => hput hc.1]
    exact ⟨h, rfl⟩

/-- The parent record is written back, and stays what it is. -/
theorem touch_spec (h : s.Opened) {side : Side} {traceId : Bytes} {parent : Stored}
    (hparent : ((s.side side).env.file .ts).lookup traceId = some parent) (hkey : ValidKey traceId)
    (now : ℕ) :
    let s' := s.write side .ts traceId (parent.touch now)
    s'.Opened ∧ s'.contents = s.contents := by
  refine ⟨h.write hkey.1 (by simp), ?_⟩
  rw [contents_write_ts, Stored.kind_touch]
  apply Contents.write_self
  simp [Store.contents, hparent]

theorem addChild_spec (h : s.Opened) (traceId : Bytes) (child : Json) (ttl : Int32) (now : ℕ)
    (a : Answers) :
    let s' := s.apply lib compress (.addChild traceId child ttl now a)
    s'.Opened ∧ s'.contents = s.effect lib (.addChild traceId child ttl now a) := by
  dsimp only [Store.apply, tmTransactionStoreAddChild, Store.effect, childTarget]
  cases hp : parentLookup s traceId a with
  | error => exact ⟨h, rfl⟩
  | notFound =>
    have hw := writeChild_spec lib compress h .current traceId child ttl now a
    refine ⟨hw.1, hw.2.trans ?_⟩
    split_ifs <;> rfl
  | found p =>
    obtain ⟨side, parent⟩ := p
    have hparent := parentLookup_found h hp
    dsimp only
    by_cases hput : a.putParent = true ∧ ValidKey traceId
    · obtain ⟨hput, hkey⟩ := hput
      -- the store after the parent record has been written back
      obtain ⟨s₁, hs₁, hopen, hcontents⟩ : ∃ s₁ : Store,
          (if a.commitParent = true then s.commit side
            ((s.side side).write .ts traceId (parent.touch now)).env else s) = s₁ ∧
          s₁.Opened ∧ s₁.contents = s.contents := by
        by_cases hcommit : a.commitParent = true
        · obtain ⟨ho, hc⟩ := touch_spec h hparent hkey now
          exact ⟨_, if_pos hcommit, ho, hc⟩
        · exact ⟨s, if_neg hcommit, h, rfl⟩
      rw [if_pos hput, put_ts (h side), if_pos hkey]
      dsimp only
      rw [hs₁]
      have hw := writeChild_spec lib compress hopen side traceId child ttl now a
      refine ⟨hw.1, hw.2.trans ?_⟩
      rw [hcontents]
      by_cases hchild : a.putChild = true ∧ ValidKey (childKey lib traceId child a.stack)
      · rw [if_pos hchild, if_pos ⟨⟨hput, hkey⟩, hchild⟩]
      · rw [if_neg hchild, if_neg fun hc => hchild hc.2]
    · have hno : ¬ ((a.putParent = true ∧ ValidKey traceId) ∧
          a.putChild = true ∧ ValidKey (childKey lib traceId child a.stack)) := fun hc => hput hc.1
      rw [if_neg hno]
      by_cases hparent' : a.putParent = true
      · rw [if_pos hparent', put_ts (h side), if_neg fun hkey => hput ⟨hparent', hkey⟩]
        exact ⟨h, rfl⟩
      · rw [if_neg hparent']
        exact ⟨h, rfl⟩

theorem markTraceable_spec (h : s.Opened) (traceId : Bytes) (ok : Bool) :
    let s' := s.apply lib compress (.markTraceable traceId ok)
    s'.Opened ∧ s'.contents = s.effect lib (.markTraceable traceId ok) := by
  dsimp only [Store.apply, tmTransactionStoreMarkTraceable, Store.effect]
  have hcurrent : (s.side .current) = s.current := rfl
  have hput := put_jaeger (h .current) traceId .trace
  by_cases hok : ok = true ∧ ValidKey traceId
  · obtain ⟨rfl, hkey⟩ := hok
    rw [if_pos rfl, if_pos ⟨rfl, hkey⟩, ← hcurrent, hput, if_pos hkey]
    exact ⟨h.write hkey.1 fun _ => rfl, contents_write_jaeger s .current traceId .trace⟩
  · rw [if_neg hok]
    cases ok with
    | false => exact ⟨h, rfl⟩
    | true =>
      rw [if_pos rfl, ← hcurrent, hput, if_neg fun hkey => hok ⟨rfl, hkey⟩]
      exact ⟨h, rfl⟩

/-- An environment whose file holds the time of opening is opened as it is. -/
theorem openEnvironment_of_mem {file : DbName → Db Stored} (h : openMsKey ∈ file .ts) (now : ℕ)
    (bloom : Finset Bytes) : ∃ openMs, openEnvironment file now bloom =
      ⟨⟨file, [.ts, .jaeger]⟩, 2, 3, openMs, bloom⟩ := by
  obtain ⟨v, hv⟩ := Option.isSome_iff_exists.1 (AList.lookup_isSome.2 h)
  refine ⟨v.firstWord, ?_⟩
  have hget : (((Env.ofFile file).dbiOpen .ts).1.dbiOpen .jaeger).1.get
      ((Env.ofFile file).dbiOpen .ts).2 openMsKey = .found v := by
    have hts : (⟨file, [.ts, .jaeger]⟩ : Env DbName Stored).dbName 2 = some .ts := rfl
    show (⟨file, [.ts, .jaeger]⟩ : Env DbName Stored).get 2 openMsKey = .found v
    rw [get_eq hts (by decide), hv]
  simp only [openEnvironment, hget]
  rfl

theorem lookup_emptyFile (now : ℕ) (bloom : Finset Bytes) (key : Bytes) :
    ((openEnvironment emptyFile now bloom).env.file .ts).lookup key =
      if key = openMsKey then some (.openMs now) else none := by
  show ((∅ : Db Stored).insert openMsKey (.openMs now)).lookup key = _
  by_cases hkey : key = openMsKey
  · subst hkey
    rw [AList.lookup_insert, if_pos rfl]
  · rw [AList.lookup_insert_ne hkey, if_neg hkey, AList.lookup_empty]

theorem opened_emptyFile (now : ℕ) (bloom : Finset Bytes) :
    Opened (openEnvironment emptyFile now bloom) := by
  have hmem : ∀ key, key ∈ (openEnvironment emptyFile now bloom).env.file .ts ↔
      key = openMsKey := by
    intro key
    rw [← AList.lookup_isSome, lookup_emptyFile]
    split_ifs with hkey <;> simp [hkey]
  refine ⟨rfl, rfl, rfl, (hmem _).2 rfl, fun name => ?_, fun key v hv => by cases hv⟩
  cases name with
  | ts =>
    rw [hmem]
    decide
  | jaeger => exact AList.notMem_empty _

/-- The environment that has been the current one is opened as the last one, as it is. -/
theorem Opened.reopen (h : Opened e) (now : ℕ) (bloom : Finset Bytes) :
    Opened (openEnvironment e.env.file now bloom) ∧
      (openEnvironment e.env.file now bloom).env.file = e.env.file := by
  obtain ⟨openMs, heq⟩ := openEnvironment_of_mem h.openMs now bloom
  rw [heq]
  exact ⟨⟨rfl, rfl, rfl, h.openMs, h.keys, h.marks⟩, rfl⟩

theorem deleteOldTransactions_spec (h : s.Opened) (now nowCurrent nowLast : ℕ) :
    let s' := s.apply lib compress (.deleteOldTransactions now nowCurrent nowLast)
    s'.Opened ∧ s'.contents = s.effect lib (.deleteOldTransactions now nowCurrent nowLast) := by
  dsimp only [Store.apply, tmTransactionStoreDeleteOldTransactions, Store.effect]
  split_ifs with hdue
  · obtain ⟨hlast, hfile⟩ := (h .current).reopen nowLast s.current.bloom
    constructor
    · intro side
      cases side with
      | current => exact opened_emptyFile nowCurrent ∅
      | last => exact hlast
    · unfold Store.contents Contents.rotate
      congr 1
      · funext side key
        cases side with
        | current =>
          dsimp only [Store.side]
          rw [lookup_emptyFile]
          split_ifs <;> rfl
        | last =>
          dsimp only [Store.side] at hfile ⊢
          rw [hfile]
      · funext side key
        cases side with
        | current => exact eq_false (AList.notMem_empty key)
        | last =>
          dsimp only [Store.side] at hfile ⊢
          rw [hfile]
  · exact ⟨h, rfl⟩

/-- Every operation keeps the environments open and has its effect. -/
theorem apply_spec (h : s.Opened) (op : Op) :
    (s.apply lib compress op).Opened ∧ (s.apply lib compress op).contents = s.effect lib op := by
  cases op with
  | put id entry ttl now ok => exact put_spec lib compress h id entry ttl now ok
  | addChild traceId child ttl now a => exact addChild_spec lib compress h traceId child ttl now a
  | markTraceable traceId ok => exact markTraceable_spec lib compress h traceId ok
  | deleteOldTransactions now nowCurrent nowLast =>
    exact deleteOldTransactions_spec lib compress h now nowCurrent nowLast

/-! ### Runs -/

/-- One operation of a run. -/
def storeStep (s : Store) (op : Op) (s' : Store) : Prop := s.apply lib compress op = s'

/-- The events of a list of operations. -/
def storeRun (s : Store) (ops : List Op) : Option (List (Event Store Op) × Store) :=
  exec (fun s op => some (s.apply lib compress op)) s ops

theorem run_of_storeRun {ops : List Op} {tr : List (Event Store Op)} {s' : Store}
    (h : storeRun lib compress s ops = some (tr, s')) : Run (storeStep lib compress) s tr s' :=
  .of_exec (fun _ _ _ => Option.some.inj) h

/-- A property of the stores of a run, when one operation keeps it exactly if it meets a guard. -/
theorem storeRun_forall_iff {P : Store → Prop} {guard : Store → Op → Prop} {s₀ s : Store}
    {tr : List (Event Store Op)} (hopen : s₀.Opened) (h₀ : P s₀)
    (hstep : ∀ s : Store, s.Opened → P s → ∀ op, P (s.apply lib compress op) ↔ guard s op)
    (h : Run (storeStep lib compress) s₀ tr s) :
    (∀ e ∈ tr, P e.after) ↔ ∀ e ∈ tr, guard e.before e.label := by
  have hinv := h.invariant Store.Opened hopen fun u a v hu hs => by
    rw [← hs]
    exact (apply_spec lib compress hu a).1
  have hiff := h.forall_iff (fun s => s.Opened ∧ P s) guard ⟨hopen, h₀⟩ fun u a v hu hs => by
    rw [← hstep u hu.1 hu.2 a, ← hs]
    exact and_iff_right (apply_spec lib compress hu.1 a).1
  rw [← hiff]
  exact forall₂_congr fun e he => (and_iff_right (hinv.1 e he).2).symm

end Effects

/-- The store in a directory without files. -/
def Store.fresh (nowCurrent nowLast : ℕ) (defaultLookbackSecs : Int32) (useBloomFilters : Bool) :
    Store :=
  tmTransactionStoreInit emptyFile emptyFile nowCurrent nowLast defaultLookbackSecs useBloomFilters

theorem opened_fresh (nowCurrent nowLast : ℕ) (defaultLookbackSecs : Int32)
    (useBloomFilters : Bool) :
    (Store.fresh nowCurrent nowLast defaultLookbackSecs useBloomFilters).Opened := by
  intro side
  cases side with
  | current => exact (opened_emptyFile nowCurrent ∅).of_bloom _
  | last => exact (opened_emptyFile nowLast ∅).of_bloom _

/-- A fresh environment holds the time of opening and nothing else. -/
theorem contents_fresh (nowCurrent nowLast : ℕ) (defaultLookbackSecs : Int32)
    (useBloomFilters : Bool) (side : Side) :
    ((Store.fresh nowCurrent nowLast defaultLookbackSecs useBloomFilters).contents.kinds side =
      fun key => if key = openMsKey then some .other else none) ∧
    ∀ key, ¬ (Store.fresh nowCurrent nowLast defaultLookbackSecs
      useBloomFilters).contents.marked side key := by
  constructor
  · funext key
    cases side
    · refine (congrArg (Option.map Stored.kind) (lookup_emptyFile nowCurrent ∅ key)).trans ?_
      split_ifs <;> rfl
    · refine (congrArg (Option.map Stored.kind) (lookup_emptyFile nowLast ∅ key)).trans ?_
      split_ifs <;> rfl
  · intro key
    cases side <;> exact AList.notMem_empty key

end Tracemate.TransactionStore
