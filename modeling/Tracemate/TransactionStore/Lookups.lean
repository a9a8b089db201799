import Tracemate.TransactionStore.Contents

/-!
# Looking ids up

The records under the ids that the operations are called with, as opposed to those under the keys
of children, and the bloom filters in front of them.

* `Store.record`: the record of `ts` under a key;
* `addChild_cases`, `writeChild_cases`: what `tm_transaction_store_add_child` does, by cases;
* `Op.Apart`: no child is written under an id;
* `record_put`, `record_addChild`, `record_markTraceable`, `record_deleteOldTransactions`: the
  records under ids after an operation;
* `Filtered`: every id with a record is in the filter;
* `Filtered.apply`: every operation keeps it so;
* `parentLookup_notFound`: a lookup misses only ids without a record.
-/

namespace Tracemate.TransactionStore

open CStr JsonC Lmdb

/-- The record of `ts` under a key. -/
def Store.record (s : Store) (side : Side) (key : Bytes) : Option Stored :=
  ((s.side side).env.file .ts).lookup key

variable {s : Store} {side side' : Side} {key k traceId id : Bytes} {v : Stored}

theorem record_write (s : Store) (side side' : Side) (key k : Bytes) (v : Stored) :
    (s.write side .ts key v).record side' k =
      if side' = side ∧ k = key then some v else s.record side' k := by
  unfold Store.record Store.write
  by_cases hside : side' = side
  · subst hside
    rw [side_commit_self]
    by_cases hk : k = key
    · subst hk
      simp [StoreEnv.write]
    · simp [StoreEnv.write, hk]
  · rw [side_commit_of_ne s _ hside, if_neg fun h => hside h.1]

theorem record_write_jaeger (s : Store) (side side' : Side) (key k : Bytes) (v : Stored) :
    (s.write side .jaeger key v).record side' k = s.record side' k := by
  unfold Store.record Store.write
  by_cases hside : side' = side
  · subst hside
    rw [side_commit_self]
    simp [StoreEnv.write]
  · rw [side_commit_of_ne s _ hside]

theorem bloom_write (s : Store) (side side' : Side) (name : DbName) (key : Bytes) (v : Stored) :
    ((s.write side name key v).side side').bloom = (s.side side').bloom := by
  cases side <;> cases side' <;> rfl

theorem useBloom_write (s : Store) (side : Side) (name : DbName) (key : Bytes) (v : Stored) :
    (s.write side name key v).useBloomFilters = s.useBloomFilters := by
  cases side <;> rfl

/-! ### Adding a child -/

section AddChild

variable (lib : Conversions) (compress : Bytes → Option Bytes)

/-- The child record is written, or the call fails and leaves the store as it is. -/
theorem writeChild_cases (h : s.Opened) (side : Side) (traceId : Bytes) (child : Json)
    (ttl : Int32) (now : ℕ) (a : Answers) :
    writeChild lib compress s side traceId child ttl now a = (s, false) ∨
    (ValidKey (childKey lib traceId child a.stack) ∧ ∃ c : StoredChild,
      writeChild lib compress s side traceId child ttl now a =
        (s.write side .ts (childKey lib traceId child a.stack) (.child c), true)) := by
  dsimp only [writeChild]
  by_cases hput : a.putChild = true
  · rw [if_pos hput, put_ts (h side)]
    by_cases hkey : ValidKey (childKey lib traceId child a.stack)
    · rw [if_pos hkey]
      exact .inr ⟨hkey, _, rfl⟩
    · rw [if_neg hkey]
      exact .inl rfl
  · rw [if_neg hput]
    exact .inl rfl

/-- The store after the parent record has been written back; the answer of the commit is not
looked at. -/
def Store.touchParent (s : Store) (side : Side) (traceId : Bytes) (parent : Stored) (now : ℕ)
    (a : Answers) : Store :=
  if a.commitParent then s.write side .ts traceId (parent.touch now) else s

/-- `tm_transaction_store_add_child`: the call fails, or there is no parent record, or the parent
record is written back. -/
theorem addChild_cases (h : s.Opened) (traceId : Bytes) (child : Json) (ttl : Int32) (now : ℕ)
    (a : Answers) :
    tmTransactionStoreAddChild lib compress s traceId child ttl now a = (s, false) ∨
    (parentLookup s traceId a = .notFound ∧
      tmTransactionStoreAddChild lib compress s traceId child ttl now a =
        writeChild lib compress s .current traceId child ttl now a) ∨
    (∃ side parent, parentLookup s traceId a = .found (side, parent) ∧ ValidKey traceId ∧
      tmTransactionStoreAddChild lib compress s traceId child ttl now a =
        writeChild lib compress (s.touchParent side traceId parent now a) side traceId child ttl
          now a) := by
  dsimp only [tmTransactionStoreAddChild]
  cases hp : parentLookup s traceId a with
  | error => exact .inl rfl
  | notFound => exact .inr (.inl ⟨rfl, rfl⟩)
  | found p =>
    obtain ⟨side, parent⟩ := p
    dsimp only
    by_cases hput : a.putParent = true
    · rw [if_pos hput, put_ts (h side)]
      by_cases hkey : ValidKey traceId
      · rw [if_pos hkey]
        exact .inr (.inr ⟨side, parent, rfl, hkey, rfl⟩)
      · rw [if_neg hkey]
        exact .inl rfl
    · rw [if_neg hput]
      exact .inl rfl

theorem opened_touchParent (h : s.Opened) {parent : Stored} (hkey : ValidKey traceId) (now : ℕ)
    (a : Answers) : (s.touchParent side traceId parent now a).Opened := by
  unfold Store.touchParent
  split_ifs
  · exact h.write hkey.1 (by simp)
  · exact h

end AddChild

/-! ### Ids -/

section Ids

variable (lib : Conversions) (compress : Bytes → Option Bytes) {ids : Bytes → Prop}

/-- The operation is called with one of the ids, and writes no child under one of them. -/
def Op.Apart (ids : Bytes → Prop) : Op → Prop
  | .put id _ _ _ _ => ids id
  | .addChild traceId child _ _ a =>
    ids traceId ∧ (ValidKey (childKey lib traceId child a.stack) →
      ¬ ids (childKey lib traceId child a.stack))
  | .markTraceable _ _ => True
  | .deleteOldTransactions _ _ _ => True

variable {lib}

/-- The root record is put, or the call fails. -/
theorem record_put (h : s.Opened) (id : Bytes) (entry : Entry) (ttl : Int32) (now : ℕ)
    (ok : Bool) :
    let s' := s.apply lib compress (.put id entry ttl now ok)
    s' = s ∨ ∃ r : StoredRoot, r.lastModifiedMs = now ∧ (∀ side k, s'.record side k =
      if side = .current ∧ k = id then some (.root r) else s.record side k) ∧
      s'.last = s.last ∧ s'.useBloomFilters = s.useBloomFilters ∧
      s'.current.bloom = if s.useBloomFilters then insert id s.current.bloom else s.current.bloom := by
  dsimp only [Store.apply, tmTransactionStorePut]
  by_cases hok : ok = true
  · have hput := put_ts (h .current) id
    have hcurrent : (s.side .current) = s.current := rfl
    rw [if_pos hok, ← hcurrent, hput]
    by_cases hkey : ValidKey id
    · rw [if_pos hkey]
      refine .inr ⟨⟨(storeString lib compress entry.data).1, entry.firstSeenMs, now, s.ttl ttl,
        (storeString lib compress entry.data).2⟩, rfl, fun side k => ?_, rfl, rfl, rfl⟩
      rw [← record_write s .current side id k]
      cases side <;> rfl
    · rw [if_neg hkey]
      exact .inl rfl
  · rw [if_neg hok]
    exact .inl rfl

/-- A child record is not under an id. -/
theorem record_writeChild (h : s.Opened) {child : Json} {ttl : Int32} {now : ℕ} {a : Answers}
    (hapart : ValidKey (childKey lib traceId child a.stack) →
      ¬ ids (childKey lib traceId child a.stack)) (hk : ids k) :
    (writeChild lib compress s side traceId child ttl now a).1.record side' k =
      s.record side' k := by
  rcases writeChild_cases lib compress h side traceId child ttl now a with heq | ⟨hkey, c, heq⟩
  · rw [heq]
  · rw [heq, record_write, if_neg]
    rintro ⟨-, rfl⟩
    exact hapart hkey hk

/-- The records under ids after a call of `tm_transaction_store_add_child`: at most the parent
record has been written back. -/
theorem record_addChild (h : s.Opened) (child : Json) (ttl : Int32) (now : ℕ) (a : Answers)
    (hapart : ValidKey (childKey lib traceId child a.stack) →
      ¬ ids (childKey lib traceId child a.stack)) :
    let r := tmTransactionStoreAddChild lib compress s traceId child ttl now a
    (r = (s, false)) ∨
    (parentLookup s traceId a = .notFound ∧
      ∀ side k, ids k → r.1.record side k = s.record side k) ∨
    (∃ side parent, parentLookup s traceId a = .found (side, parent) ∧
      ∀ side' k, ids k → r.1.record side' k =
        (s.touchParent side traceId parent now a).record side' k) := by
  rcases addChild_cases lib compress h traceId child ttl now a with
    heq | ⟨hp, heq⟩ | ⟨side, parent, hp, hkey, heq⟩
  · exact .inl heq
  · refine .inr (.inl ⟨hp, fun side k hk => ?_⟩)
    rw [heq, record_writeChild compress h hapart hk]
  · refine .inr (.inr ⟨side, parent, hp, fun side' k hk => ?_⟩)
    rw [heq, record_writeChild compress (opened_touchParent h hkey now a) hapart hk]

/-- A mark is no record of `ts`. -/
theorem record_markTraceable (h : s.Opened) (traceId : Bytes) (ok : Bool) (side : Side)
    (k : Bytes) :
    (s.apply lib compress (.markTraceable traceId ok)).record side k = s.record side k := by
  dsimp only [Store.apply, tmTransactionStoreMarkTraceable]
  by_cases hok : ok = true
  · have hput := put_jaeger (h .current) traceId .trace
    have hcurrent : (s.side .current) = s.current := rfl
    rw [if_pos hok, ← hcurrent, hput]
    by_cases hkey : ValidKey traceId
    · rw [if_pos hkey]
      exact record_write_jaeger s .current side traceId k .trace
    · rw [if_neg hkey]
  · rw [if_neg hok]

/-- A rotation takes the records of the current environment to the last one; the fresh one holds
the time of opening only. -/
theorem record_deleteOldTransactions (h : s.Opened) (now nowCurrent nowLast : ℕ) :
    let s' := s.apply lib compress (.deleteOldTransactions now nowCurrent nowLast)
    s' = s ∨ ((∀ k, s'.record .last k = s.record .current k) ∧
      (∀ k, k ≠ openMsKey → s'.record .current k = none) ∧
      s'.last.bloom = s.current.bloom ∧ s'.useBloomFilters = s.useBloomFilters) := by
  dsimp only [Store.apply, tmTransactionStoreDeleteOldTransactions]
  split_ifs with hdue
  · refine .inr ⟨fun k => ?_, fun k hk => ?_, ?_, rfl⟩
    · have hfile := ((h .current).reopen nowLast s.current.bloom).2
      exact congrArg (fun file => AList.lookup k (file .ts)) hfile
    · exact (lookup_emptyFile nowCurrent ∅ k).trans (if_neg hk)
    · obtain ⟨openMs, heq⟩ := openEnvironment_of_mem (h .current).openMs nowLast s.current.bloom
      show (openEnvironment (s.side .current).env.file nowLast s.current.bloom).bloom = _
      rw [heq]
  · exact .inl rfl

/-- The environments are rotated at this time. -/
def Store.Due (s : Store) (now : ℕ) : Prop :=
  now > s.current.openMs ∧ now - s.current.openMs > tenMinutesMs

instance (s : Store) (now : ℕ) : Decidable (s.Due now) := by
  unfold Store.Due
  infer_instance

/-- What has been marked before an operation, if the key is marked after it. -/
def Store.MarkedBefore (s : Store) (side : Side) (key : Bytes) : Op → Prop
  | .put _ _ _ _ _ => s.contents.marked side key
  | .addChild _ _ _ _ _ => s.contents.marked side key
  | .markTraceable traceId _ => (side = .current ∧ key = traceId) ∨ s.contents.marked side key
  | .deleteOldTransactions now _ _ =>
    (s.Due now ∧ side = .last ∧ s.contents.marked .current key) ∨
      (¬ s.Due now ∧ s.contents.marked side key)

/-- The marks after an operation. -/
theorem marked_apply (h : s.Opened) (op : Op)
    (hmark : (s.apply lib compress op).contents.marked side key) : s.MarkedBefore side key op := by
  rw [(apply_spec lib compress h op).2] at hmark
  cases op with
  | put id entry ttl now ok =>
    dsimp only [Store.effect] at hmark
    split_ifs at hmark
    · exact hmark
    · exact hmark
  | addChild traceId child ttl now a =>
    dsimp only [Store.effect] at hmark
    split at hmark
    · exact hmark
    · exact hmark
  | markTraceable traceId ok =>
    dsimp only [Store.effect] at hmark
    split_ifs at hmark
    · cases side with
      | current =>
        simp only [Contents.mark, Function.update_self] at hmark
        rcases hmark with hmark | hmark
        · exact .inl ⟨rfl, hmark⟩
        · exact .inr hmark
      | last =>
        simp only [Contents.mark, ne_eq, reduceCtorEq, not_false_eq_true,
          Function.update_of_ne] at hmark
        exact .inr hmark
    · exact .inr hmark
  | deleteOldTransactions now nowCurrent nowLast =>
    dsimp only [Store.effect] at hmark
    split_ifs at hmark with hdue
    · cases side with
      | current => exact hmark.elim
      | last => exact .inl ⟨hdue, rfl, hmark⟩
    · exact .inr ⟨hdue, hmark⟩

end Ids

/-! ### The filters -/

/-- Every id with a record is in the filter of its environment, if the filters are used. -/
def Filtered (ids : Bytes → Prop) (s : Store) : Prop :=
  s.useBloomFilters = true → ∀ side key, ids key → (s.record side key).isSome = true →
    key ∈ (s.side side).bloom

section Filters

variable (lib : Conversions) (compress : Bytes → Option Bytes) {ids : Bytes → Prop}

/-- Operations that keep the filters and add no record under an id. -/
theorem Filtered.of_record {s' : Store} (h : Filtered ids s)
    (huse : s'.useBloomFilters = s.useBloomFilters)
    (hrecord : ∀ side key, ids key → (s'.record side key).isSome = true →
      (s.record side key).isSome = true)
    (hbloom : ∀ side, (s'.side side).bloom = (s.side side).bloom) : Filtered ids s' := by
  intro hon side key hkey hsome
  rw [hbloom]
  exact h (huse ▸ hon) side key hkey (hrecord side key hkey hsome)

/-- The filters after a call of `tm_transaction_store_add_child`. -/
theorem addChild_blooms (h : s.Opened) (traceId : Bytes) (child : Json) (ttl : Int32) (now : ℕ)
    (a : Answers) :
    let s' := (tmTransactionStoreAddChild lib compress s traceId child ttl now a).1
    (∀ side, (s'.side side).bloom = (s.side side).bloom) ∧
      s'.useBloomFilters = s.useBloomFilters := by
  have hchild : ∀ s : Store, s.Opened → ∀ side,
      let s' := (writeChild lib compress s side traceId child ttl now a).1
      (∀ side, (s'.side side).bloom = (s.side side).bloom) ∧
        s'.useBloomFilters = s.useBloomFilters := by
    intro s hs side
    dsimp only
    rcases writeChild_cases lib compress hs side traceId child ttl now a with heq | ⟨-, c, heq⟩
    · rw [heq]
      exact ⟨fun _ => rfl, rfl⟩
    · rw [heq]
      exact ⟨fun side' => bloom_write s side side' .ts _ _, useBloom_write s side .ts _ _⟩
  dsimp only at hchild ⊢
  rcases addChild_cases lib compress h traceId child ttl now a with
    heq | ⟨-, heq⟩ | ⟨side, parent, -, hkey, heq⟩
  · rw [heq]
    exact ⟨fun _ => rfl, rfl⟩
  · rw [heq]
    exact hchild s h .current
  · rw [heq]
    obtain ⟨hbloom, huse⟩ := hchild _ (opened_touchParent h hkey now a) side
    unfold Store.touchParent at hbloom huse ⊢
    split_ifs at hbloom huse ⊢
    · exact ⟨fun side' => (hbloom side').trans (bloom_write s side side' .ts _ _),
        huse.trans (useBloom_write s side .ts _ _)⟩
    · exact ⟨hbloom, huse⟩

/-- The parent record that is written back has been there. -/
theorem isSome_touchParent (h : s.Opened) {parent : Stored} {now : ℕ} {a : Answers}
    (hp : parentLookup s traceId a = .found (side, parent))
    (hsome : ((s.touchParent side traceId parent now a).record side' k).isSome = true) :
    (s.record side' k).isSome = true := by
  unfold Store.touchParent at hsome
  split_ifs at hsome with hcommit
  · rw [record_write] at hsome
    split_ifs at hsome with hk
    · obtain ⟨rfl, rfl⟩ := hk
      unfold Store.record
      rw [parentLookup_found h hp]
      rfl
    · exact hsome
  · exact hsome

/-- No operation turns the filters on or off. -/
theorem useBloom_apply (hopen : s.Opened) (op : Op) :
    (s.apply lib compress op).useBloomFilters = s.useBloomFilters := by
  cases op with
  | put id entry ttl now ok =>
    rcases @record_put _ lib compress hopen id entry ttl now ok with
      heq | ⟨-, -, -, -, huse, -⟩
    · rw [heq]
    · exact huse
  | addChild traceId child ttl now a =>
    exact (addChild_blooms lib compress hopen traceId child ttl now a).2
  | markTraceable traceId ok =>
    dsimp only [Store.apply, tmTransactionStoreMarkTraceable]
    split_ifs
    · split <;> rfl
    · rfl
  | deleteOldTransactions now nowCurrent nowLast =>
    rcases @record_deleteOldTransactions _ lib compress hopen now nowCurrent nowLast with
      heq | ⟨-, -, -, huse⟩
    · rw [heq]
    · exact huse

/-- Every operation keeps the ids in the filters. -/
theorem Filtered.apply (h : Filtered ids s) (hopen : s.Opened) (hms : ¬ ids openMsKey) {op : Op}
    (hop : op.Apart lib ids) : Filtered ids (s.apply lib compress op) := by
  cases op with
  | put id entry ttl now ok =>
    rcases @record_put _ lib compress hopen id entry ttl now ok with
      heq | ⟨r, -, hrecord, hlast, huse, hbloom⟩
    · rwa [heq]
    · intro hon side key hkey hsome
      rw [hrecord] at hsome
      rw [huse] at hon
      cases side with
      | current =>
        show key ∈ (s.apply lib compress (.put id entry ttl now ok)).current.bloom
        rw [hbloom, if_pos hon, Finset.mem_insert]
        by_cases hid : key = id
        · exact .inl hid
        · rw [if_neg fun hc => hid hc.2] at hsome
          exact .inr (h hon .current key hkey hsome)
      | last =>
        show key ∈ (s.apply lib compress (.put id entry ttl now ok)).last.bloom
        rw [hlast]
        exact h hon .last key hkey (by simpa using hsome)
  | addChild traceId child ttl now a =>
    obtain ⟨hbloom, huse⟩ := addChild_blooms lib compress hopen traceId child ttl now a
    refine h.of_record huse (fun side key hkey hsome => ?_) hbloom
    dsimp only [Store.apply] at hsome
    rcases record_addChild compress hopen child ttl now a hop.2 with
      heq | ⟨-, hrecord⟩ | ⟨side', parent, hp, hrecord⟩
    · rwa [heq] at hsome
    · rwa [← hrecord side key hkey]
    · rw [hrecord side key hkey] at hsome
      exact isSome_touchParent hopen hp hsome
  | markTraceable traceId ok =>
    refine h.of_record (useBloom_apply lib compress hopen _) (fun side key _ hsome => ?_)
      fun side => ?_
    · rwa [@record_markTraceable _ lib compress hopen] at hsome
    · dsimp only [Store.apply, tmTransactionStoreMarkTraceable]
      split_ifs
      · split <;> cases side <;> rfl
      · rfl
  | deleteOldTransactions now nowCurrent nowLast =>
    rcases @record_deleteOldTransactions _ lib compress hopen now nowCurrent nowLast with
      heq | ⟨hlast, hcurrent, hbloom, huse⟩
    · rwa [heq]
    · intro hon side key hkey hsome
      rw [huse] at hon
      cases side with
      | current =>
        rw [hcurrent key fun hc => hms (hc ▸ hkey)] at hsome
        cases hsome
      | last =>
        rw [hlast] at hsome
        show key ∈ (s.apply lib compress (.deleteOldTransactions now nowCurrent nowLast)).last.bloom
        rw [hbloom]
        exact h hon .current key hkey hsome

/-- A lookup in one environment misses only ids without a record. -/
theorem lookupIn_notFound (hopen : s.Opened) (h : Filtered ids s) (hid : ids id)
    {inBloom ok : Bool} (hmiss : s.lookupIn side id inBloom ok = .notFound) :
    s.record side id = none := by
  unfold Store.lookupIn at hmiss
  cases hrecord : s.record side id with
  | none => rfl
  | some v =>
    split_ifs at hmiss with hbloom hok
    · have hmem := h hbloom.1 side id hid (by rw [hrecord]; rfl)
      have hno := hbloom.2
      simp [bloomContains, hmem] at hno
    · rw [(get_ts hopen side side id v).2 hrecord] at hmiss
      cases hmiss

/-- The lookup of the parent misses only ids without a record. -/
theorem parentLookup_notFound (hopen : s.Opened) (h : Filtered ids s) (hid : ids id)
    {a : Answers} (hmiss : parentLookup s id a = .notFound) (side : Side) :
    s.record side id = none := by
  unfold parentLookup at hmiss
  split at hmiss
  · next hlast =>
    cases side with
    | current => exact lookupIn_notFound hopen h hid hmiss
    | last => exact lookupIn_notFound hopen h hid hlast
  · next hlast => exact absurd hmiss hlast

end Filters

end Tracemate.TransactionStore
