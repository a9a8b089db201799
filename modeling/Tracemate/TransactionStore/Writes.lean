import Tracemate.TransactionStore.Lookups

/-!
# What the operations write

The stores after a put and after a call of `tm_transaction_store_add_child`, as writes of records.

* `rootRecord`, `put_eq`, `markTraceable_eq`: a root record, or a mark, is written to the current
  environment;
* `Store.touched`: the store after the parent record, if there is one, has been written back;
* `childRecord`, `addChild_of_target`, `addChild_of_no_target`: a child record is written to its
  target, or nothing more;
* `record_touched`, `record_addChild_of_ne`: the other records are the same, up to the time of
  the last change;
* `root_of_put`, `root_of_addChild`: where a root record after these operations comes from;
* `openMs_put`, `openMs_addChild`, `openMs_markTraceable`: they do not open the environments;
* `record_rotate`, `apply_of_not_due`: the stores after `tm_transaction_store_delete_old_transactions`.
-/

namespace Tracemate.TransactionStore

open CStr JsonC Lmdb

variable {s : Store} {side side' : Side} {key k traceId : Bytes}

section Put

variable (lib : Conversions) (compress : Bytes → Option Bytes)

/-- The record that `tm_transaction_store_put` writes. -/
def rootRecord (s : Store) (entry : Entry) (ttl : Int32) (now : ℕ) : StoredRoot :=
  ⟨(storeString lib compress entry.data).1, entry.firstSeenMs, now, s.ttl ttl,
    (storeString lib compress entry.data).2⟩

/-- `bloom_add` to the filter of the current environment, if the filters are used. -/
def Store.addBloom (s : Store) (id : Bytes) : Store :=
  { s with current := { s.current with
      bloom := if s.useBloomFilters then insert id s.current.bloom else s.current.bloom } }

/-- The root record is written, or the call fails and leaves the store as it is. -/
theorem put_eq (h : s.Opened) (id : Bytes) (entry : Entry) (ttl : Int32) (now : ℕ) (ok : Bool) :
    tmTransactionStorePut lib compress s id entry ttl now ok =
      if ok = true ∧ ValidKey id then
        ((s.write .current .ts id (.root (rootRecord lib compress s entry ttl now))).addBloom id, true)
      else (s, false) := by
  have hput := put_ts (h .current) id
  have hcurrent : s.side .current = s.current := rfl
  dsimp only [tmTransactionStorePut]
  by_cases hwrite : ok = true ∧ ValidKey id
  · rw [if_pos hwrite, if_pos hwrite.1, ← hcurrent, hput, if_pos hwrite.2]
    rfl
  · rw [if_neg hwrite]
    by_cases hok : ok = true
    · rw [if_pos hok, ← hcurrent, hput, if_neg fun hkey => hwrite ⟨hok, hkey⟩]
    · rw [if_neg hok]

@[simp] theorem record_addBloom (s : Store) (id : Bytes) (side : Side) (k : Bytes) :
    (s.addBloom id).record side k = s.record side k := by
  cases side <;> rfl

end Put

/-- The mark is written, or the call fails and leaves the store as it is. -/
theorem markTraceable_eq (h : s.Opened) (traceId : Bytes) (ok : Bool) :
    tmTransactionStoreMarkTraceable s traceId ok =
      if ok = true ∧ ValidKey traceId then s.write .current .jaeger traceId .trace else s := by
  have hput := put_jaeger (h .current) traceId .trace
  have hcurrent : s.side .current = s.current := rfl
  unfold tmTransactionStoreMarkTraceable
  cases ok with
  | false => rfl
  | true =>
    rw [if_pos rfl, ← hcurrent, hput]
    by_cases hkey : ValidKey traceId
    · rw [if_pos hkey, if_pos ⟨rfl, hkey⟩]
      rfl
    · rw [if_neg hkey, if_neg fun hc => hkey hc.2]

/-! ### The parent record -/

/-- The store after the parent record, if one is found, has been written back. -/
def Store.touched (s : Store) (traceId : Bytes) (now : ℕ) (a : Answers) : Store :=
  match parentLookup s traceId a with
  | .found (side, parent) => s.touchParent side traceId parent now a
  | _ => s

/-- A record after a write of its parent: the same one, up to the time of the last change. -/
def SameRecord (now : ℕ) (before after : Option Stored) : Prop :=
  after = before ∨ after = before.map (Stored.touch now)

theorem SameRecord.none_iff {now : ℕ} {before after : Option Stored}
    (h : SameRecord now before after) : after = none ↔ before = none := by
  obtain rfl | rfl := h
  · rfl
  · simp

theorem record_touched (h : s.Opened) (traceId : Bytes) (now : ℕ) (a : Answers) (side : Side)
    (k : Bytes) : SameRecord now (s.record side k) ((s.touched traceId now a).record side k) := by
  unfold Store.touched
  split
  · next side' parent hp =>
    have hparent : s.record side' traceId = some parent := parentLookup_found h hp
    unfold Store.touchParent
    split_ifs
    · rw [record_write]
      split_ifs with hk
      · obtain ⟨rfl, rfl⟩ := hk
        rw [hparent]
        exact .inr rfl
      · exact .inl rfl
    · exact .inl rfl
  · exact .inl rfl

/-- Only the parent record is written back. -/
theorem record_touched_of_ne (s : Store) (traceId : Bytes) (now : ℕ) (a : Answers) (side : Side)
    (hk : k ≠ traceId) : (s.touched traceId now a).record side k = s.record side k := by
  unfold Store.touched
  split
  · unfold Store.touchParent
    split_ifs
    · rw [record_write, if_neg fun h => hk h.2]
    · rfl
  · rfl

theorem openMs_touched (s : Store) (traceId : Bytes) (now : ℕ) (a : Answers) (side : Side) :
    ((s.touched traceId now a).side side).openMs = (s.side side).openMs := by
  unfold Store.touched
  split
  · next side' parent _ =>
    unfold Store.touchParent
    split_ifs
    · cases side <;> cases side' <;> rfl
    · rfl
  · rfl

/-! ### The child record -/

section AddChild

variable (lib : Conversions) (compress : Bytes → Option Bytes)

/-- The record that `tm_transaction_store_add_child` writes. -/
def childRecord (s : Store) (traceId : Bytes) (child : Json) (ttl : Int32) (now : ℕ) :
    StoredChild :=
  ⟨traceId, (storeString lib compress child).1, now, s.ttl ttl, (storeString lib compress child).2⟩

theorem writeChild_eq (h : s.Opened) (side : Side) (traceId : Bytes) (child : Json) (ttl : Int32)
    (now : ℕ) (a : Answers) :
    writeChild lib compress s side traceId child ttl now a =
      if a.putChild = true ∧ ValidKey (childKey lib traceId child a.stack) then
        (s.write side .ts (childKey lib traceId child a.stack)
          (.child (childRecord lib compress s traceId child ttl now)), true)
      else (s, false) := by
  dsimp only [writeChild]
  by_cases hput : a.putChild = true
  · rw [if_pos hput, put_ts (h side)]
    by_cases hkey : ValidKey (childKey lib traceId child a.stack)
    · rw [if_pos hkey, if_pos ⟨hput, hkey⟩]
      rfl
    · rw [if_neg hkey, if_neg fun hc => hkey hc.2]
  · rw [if_neg hput, if_neg fun hc => hput hc.1]

/-- The default of `ttl` stays. -/
theorem childRecord_touched (s : Store) (traceId : Bytes) (child : Json) (ttl : Int32) (now : ℕ)
    (a : Answers) :
    childRecord lib compress (s.touched traceId now a) traceId child ttl now =
      childRecord lib compress s traceId child ttl now := by
  have hlookback : (s.touched traceId now a).defaultLookbackSecs = s.defaultLookbackSecs := by
    unfold Store.touched
    split
    · next side parent _ =>
      unfold Store.touchParent
      split_ifs
      · cases side <;> rfl
      · rfl
    · rfl
  unfold childRecord Store.ttl
  rw [hlookback]

/-- The store after the parent record has been written back is open. -/
theorem opened_touched (h : s.Opened) (hkey : ValidKey traceId) (now : ℕ) (a : Answers) :
    (s.touched traceId now a).Opened := by
  unfold Store.touched
  split
  · exact opened_touchParent h hkey now a
  · exact h

/-- What a call does: it fails, or the parent record is written back if there is one, and then the
child record, if its target says so. -/
theorem addChild_eq (h : s.Opened) (traceId : Bytes) (child : Json) (ttl : Int32) (now : ℕ)
    (a : Answers) :
    (childTarget lib s traceId child a = none ∧
      tmTransactionStoreAddChild lib compress s traceId child ttl now a = (s, false)) ∨
    ((s.touched traceId now a).Opened ∧ ∃ side,
      tmTransactionStoreAddChild lib compress s traceId child ttl now a =
        writeChild lib compress (s.touched traceId now a) side traceId child ttl now a ∧
      childTarget lib s traceId child a =
        if a.putChild = true ∧ ValidKey (childKey lib traceId child a.stack) then
          some (side, childKey lib traceId child a.stack)
        else none) := by
  have htouched : ∀ p, parentLookup s traceId a = p → s.touched traceId now a =
      match p with
      | .found (side, parent) => s.touchParent side traceId parent now a
      | _ => s := fun p hp => by rw [← hp]; rfl
  dsimp only [tmTransactionStoreAddChild, childTarget]
  cases hp : parentLookup s traceId a with
  | error => exact .inl ⟨rfl, rfl⟩
  | notFound =>
    rw [htouched _ hp]
    exact .inr ⟨h, .current, rfl, rfl⟩
  | found p =>
    obtain ⟨side, parent⟩ := p
    dsimp only
    by_cases hput : a.putParent = true ∧ ValidKey traceId
    · obtain ⟨hput, hkey⟩ := hput
      refine .inr ⟨opened_touched h hkey now a, side, ?_, ?_⟩
      · rw [if_pos hput, put_ts (h side), if_pos hkey, htouched _ hp]
        rfl
      · simp only [hput, hkey, and_self, true_and]
    · refine .inl ⟨if_neg fun hc => hput hc.1, ?_⟩
      by_cases hparent : a.putParent = true
      · rw [if_pos hparent, put_ts (h side), if_neg fun hkey => hput ⟨hparent, hkey⟩]
      · rw [if_neg hparent]

variable {lib}

theorem addChild_of_target (h : s.Opened) {child : Json} (ttl : Int32) (now : ℕ) {a : Answers}
    (ht : childTarget lib s traceId child a = some (side, key)) :
    tmTransactionStoreAddChild lib compress s traceId child ttl now a =
      ((s.touched traceId now a).write side .ts key
        (.child (childRecord lib compress s traceId child ttl now)), true) := by
  rcases addChild_eq lib compress h traceId child ttl now a with
    ⟨hnone, -⟩ | ⟨hopen, side', heq, htarget⟩
  · rw [hnone] at ht
    cases ht
  · rw [htarget] at ht
    split_ifs at ht with hwrite
    obtain ⟨rfl, rfl⟩ := Prod.mk.inj (Option.some.inj ht)
    rw [heq, writeChild_eq lib compress hopen, if_pos hwrite, childRecord_touched]

theorem addChild_of_no_target (h : s.Opened) {child : Json} (ttl : Int32) (now : ℕ) {a : Answers}
    (ht : childTarget lib s traceId child a = none) :
    tmTransactionStoreAddChild lib compress s traceId child ttl now a = (s, false) ∨
      tmTransactionStoreAddChild lib compress s traceId child ttl now a =
        (s.touched traceId now a, false) := by
  rcases addChild_eq lib compress h traceId child ttl now a with
    ⟨-, heq⟩ | ⟨hopen, side', heq, htarget⟩
  · exact .inl heq
  · rw [htarget] at ht
    split_ifs at ht with hwrite
    rw [heq, writeChild_eq lib compress hopen, if_neg hwrite]
    exact .inr rfl

/-- A record that is not the one written. -/
theorem record_addChild_of_ne (h : s.Opened) {child : Json} (ttl : Int32) (now : ℕ) {a : Answers}
    (hne : childTarget lib s traceId child a ≠ some (side, k)) :
    SameRecord now (s.record side k)
      ((tmTransactionStoreAddChild lib compress s traceId child ttl now a).1.record side k) := by
  cases ht : childTarget lib s traceId child a with
  | none =>
    rcases addChild_of_no_target compress h ttl now ht with heq | heq
    · rw [heq]
      exact .inl rfl
    · rw [heq]
      exact record_touched h traceId now a side k
  | some target =>
    obtain ⟨side', key⟩ := target
    rw [addChild_of_target compress h ttl now ht, record_write, if_neg]
    · exact record_touched h traceId now a side k
    · rintro ⟨rfl, rfl⟩
      exact hne ht

/-- A record that is neither the one written nor the parent's. -/
theorem record_addChild_of_ne_parent (h : s.Opened) {child : Json} {ttl : Int32} {now : ℕ}
    {a : Answers} (hne : childTarget lib s traceId child a ≠ some (side, k)) (hk : k ≠ traceId) :
    (tmTransactionStoreAddChild lib compress s traceId child ttl now a).1.record side k =
      s.record side k := by
  cases ht : childTarget lib s traceId child a with
  | none =>
    rcases addChild_of_no_target compress h ttl now ht with heq | heq
    · rw [heq]
    · rw [heq]
      exact record_touched_of_ne s traceId now a side hk
  | some target =>
    obtain ⟨side', key⟩ := target
    rw [addChild_of_target compress h ttl now ht, record_write, if_neg]
    · exact record_touched_of_ne s traceId now a side hk
    · rintro ⟨rfl, rfl⟩
      exact hne ht

/-- The record that is written. -/
theorem record_addChild_self (h : s.Opened) {child : Json} (ttl : Int32) (now : ℕ) {a : Answers}
    (ht : childTarget lib s traceId child a = some (side, key)) :
    (tmTransactionStoreAddChild lib compress s traceId child ttl now a).1.record side key =
      some (.child (childRecord lib compress s traceId child ttl now)) := by
  rw [addChild_of_target compress h ttl now ht, record_write, if_pos ⟨rfl, rfl⟩]

end AddChild

/-! ### Root records and the time of opening -/

section Roots

variable {lib : Conversions} {compress : Bytes → Option Bytes} {child : Json} {ttl : Int32}
  {now : ℕ} {a : Answers} {r : StoredRoot}

/-- A root record after a put: it has been there, or it is the one that is put. -/
theorem root_of_put (h : s.Opened) {id : Bytes} {entry : Entry} {ok : Bool}
    (hr : (s.apply lib compress (.put id entry ttl now ok)).record side k = some (.root r)) :
    s.record side k = some (.root r) ∨
      (ok = true ∧ side = .current ∧ k = id ∧ r.lastModifiedMs = now) := by
  dsimp only [Store.apply] at hr
  rw [put_eq lib compress h] at hr
  split_ifs at hr with hwrite
  · rw [record_addBloom, record_write] at hr
    split_ifs at hr with hput
    · obtain rfl := Stored.root.inj (Option.some.inj hr)
      exact .inr ⟨hwrite.1, hput.1, hput.2, rfl⟩
    · exact .inl hr
  · exact .inl hr

/-- A root record after a call of `tm_transaction_store_add_child`: it has been there, or it is the
record of the parent, with the time of the call. -/
theorem root_of_addChild (h : s.Opened)
    (hr : (s.apply lib compress (.addChild traceId child ttl now a)).record side k =
      some (.root r)) :
    ∃ r₀, s.record side k = some (.root r₀) ∧
      (r = r₀ ∨ (k = traceId ∧ r.lastModifiedMs = now)) := by
  dsimp only [Store.apply] at hr
  by_cases ht : childTarget lib s traceId child a = some (side, k)
  · rw [record_addChild_self compress h ttl now ht] at hr
    cases hr
  · rcases record_addChild_of_ne compress h ttl now ht with hsame | htouched
    · exact ⟨r, hsame ▸ hr, .inl rfl⟩
    · by_cases hk : k = traceId
      · rw [htouched] at hr
        obtain ⟨v, hv, heq⟩ := Option.map_eq_some_iff.1 hr
        cases v with
        | root r₀ =>
          obtain rfl := Stored.root.inj heq
          exact ⟨r₀, hv, .inr ⟨hk, rfl⟩⟩
        | _ => cases heq
      · rw [record_addChild_of_ne_parent compress h ht hk] at hr
        exact ⟨r, hr, .inl rfl⟩

theorem openMs_put (hopen : s.Opened) (id : Bytes) (entry : Entry) (ttl : Int32) (now : ℕ)
    (ok : Bool) :
    (s.apply lib compress (.put id entry ttl now ok)).current.openMs = s.current.openMs := by
  dsimp only [Store.apply]
  rw [put_eq lib compress hopen]
  split_ifs
  · rfl
  · rfl

theorem openMs_addChild (hopen : s.Opened) (traceId : Bytes) (child : Json) (ttl : Int32) (now : ℕ)
    (a : Answers) :
    (s.apply lib compress (.addChild traceId child ttl now a)).current.openMs =
      s.current.openMs := by
  have htouched := openMs_touched s traceId now a .current
  dsimp only [Store.apply]
  cases ht : childTarget lib s traceId child a with
  | none =>
    rcases addChild_of_no_target compress hopen ttl now ht with heq | heq
    · rw [heq]
    · rw [heq]
      exact htouched
  | some target =>
    obtain ⟨side, key⟩ := target
    rw [addChild_of_target compress hopen ttl now ht]
    cases side <;> exact htouched

theorem openMs_markTraceable (traceId : Bytes) (ok : Bool) :
    (s.apply lib compress (.markTraceable traceId ok)).current.openMs = s.current.openMs := by
  dsimp only [Store.apply, tmTransactionStoreMarkTraceable]
  split_ifs
  · split <;> rfl
  · rfl

end Roots

/-! ### Rotations -/

section Rotate

variable (lib : Conversions) (compress : Bytes → Option Bytes) {now : ℕ}

/-- A rotation takes the records and the filter of the current environment to the last one. -/
theorem record_rotate (h : s.Opened) (hdue : s.Due now) (nowCurrent nowLast : ℕ) :
    let s' := s.apply lib compress (.deleteOldTransactions now nowCurrent nowLast)
    (∀ k, s'.record .last k = s.record .current k) ∧
      (∀ k, s'.record .current k = if k = openMsKey then some (.openMs nowCurrent) else none) ∧
      s'.last.bloom = s.current.bloom ∧ s'.current.openMs = nowCurrent ∧
      s'.useBloomFilters = s.useBloomFilters := by
  unfold Store.Due at hdue
  dsimp only [Store.apply, tmTransactionStoreDeleteOldTransactions]
  rw [if_pos hdue]
  obtain ⟨openMs, heq⟩ := openEnvironment_of_mem (h .current).openMs nowLast s.current.bloom
  have hlast : openEnvironment s.current.env.file nowLast s.current.bloom = _ := heq
  refine ⟨fun k => ?_, fun k => lookup_emptyFile nowCurrent ∅ k, ?_, rfl, rfl⟩
  · dsimp only [Store.record, Store.side]
    rw [hlast]
    rfl
  · dsimp only
    rw [hlast]

theorem apply_of_not_due (hdue : ¬ s.Due now) (nowCurrent nowLast : ℕ) :
    s.apply lib compress (.deleteOldTransactions now nowCurrent nowLast) = s := by
  unfold Store.Due at hdue
  dsimp only [Store.apply, tmTransactionStoreDeleteOldTransactions]
  rw [if_neg hdue]

end Rotate

end Tracemate.TransactionStore
