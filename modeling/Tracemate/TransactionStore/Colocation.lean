import Tracemate.TransactionStore.Contents

/-!
# The records of one trace

A root record is put into the current environment.  A child record goes where the root record is
found, and into the current environment if there is none.

* `HasRecord`, `Colocated`: no trace has records in both environments;
* `colocated_write_iff`: writing a record of a trace keeps it so exactly if the other environment
  has no record of it;
* `KeepsTogether`, `colocated_iff_keepsTogether`: the operations that keep it so, and runs of them.
-/

namespace Tracemate.TransactionStore

open CStr JsonC Lmdb Runs

/-- The environment stores a record of the trace: its root record, or a child record that was
added for it. -/
def HasRecord (s : Store) (side : Side) (traceId : Bytes) : Prop :=
  HoldsRoot s side traceId ∨
    ∃ key c, ((s.side side).env.file .ts).lookup key = some (.child c) ∧ c.traceId = traceId

/-- All stored records of one trace are in the same environment. -/
def Colocated (s : Store) : Prop :=
  ∀ traceId, ¬ (HasRecord s .current traceId ∧ HasRecord s .last traceId)

/-- The trace that a record under this key belongs to. -/
def Kind.traceOf (key : Bytes) : Kind → Option Bytes
  | root => some key
  | child traceId => some traceId
  | other => none

def Contents.HasRecord (c : Contents) (side : Side) (traceId : Bytes) : Prop :=
  ∃ key kind, c.kinds side key = some kind ∧ kind.traceOf key = some traceId

def Contents.Colocated (c : Contents) : Prop :=
  ∀ side traceId, c.HasRecord side traceId → ¬ c.HasRecord side.other traceId

variable {s : Store} {c : Contents} {side side' : Side} {key traceId : Bytes} {kind : Kind}

theorem hasRecord_iff : HasRecord s side traceId ↔ s.contents.HasRecord side traceId := by
  unfold HasRecord Contents.HasRecord
  constructor
  · rintro (hroot | ⟨key, c, hc, rfl⟩)
    · exact ⟨traceId, .root, holdsRoot_iff.1 hroot, rfl⟩
    · exact ⟨key, .child c.traceId, Option.map_eq_some_iff.2 ⟨_, hc, rfl⟩, rfl⟩
  · rintro ⟨key, kind, hkind, htrace⟩
    cases kind with
    | root =>
      obtain rfl := Option.some.inj htrace
      exact .inl (holdsRoot_iff.2 hkind)
    | child t =>
      obtain rfl := Option.some.inj htrace
      obtain ⟨v, hv, hk⟩ := Option.map_eq_some_iff.1 hkind
      obtain ⟨c, rfl, hc⟩ := Stored.kind_eq_child.1 hk
      exact .inr ⟨key, c, hv, hc⟩
    | other => cases htrace

theorem colocated_iff : Colocated s ↔ s.contents.Colocated := by
  unfold Colocated Contents.Colocated
  simp only [hasRecord_iff]
  constructor
  · intro h side traceId hown hother
    cases side with
    | current => exact h traceId ⟨hown, hother⟩
    | last => exact h traceId ⟨hother, hown⟩
  · rintro h traceId ⟨hcurrent, hlast⟩
    exact h .current traceId hcurrent hlast

/-! ### Operations -/

/-- A write adds a record of one trace at most. -/
theorem Contents.HasRecord.of_write (h : (c.write side key kind).HasRecord side' traceId) :
    c.HasRecord side' traceId ∨ (side' = side ∧ kind.traceOf key = some traceId) := by
  obtain ⟨k, kind', hkind, htrace⟩ := h
  by_cases hk : side' = side ∧ k = key
  · obtain ⟨rfl, rfl⟩ := hk
    rw [c.kinds_write_self] at hkind
    obtain rfl := Option.some.inj hkind
    exact .inr ⟨rfl, htrace⟩
  · rw [c.kinds_write_of_ne kind fun hs he => hk ⟨hs, he⟩] at hkind
    exact .inl ⟨k, kind', hkind, htrace⟩

/-- The other environment is left alone. -/
theorem Contents.hasRecord_write_other :
    (c.write side key kind).HasRecord side.other traceId ↔ c.HasRecord side.other traceId := by
  unfold HasRecord
  simp only [c.kinds_write_of_ne kind fun hs => absurd hs side.other_ne]

/-- Writing a record of a trace keeps the records together exactly if the other environment has
none of the trace. -/
theorem colocated_write_iff (h : c.Colocated) (ht : kind.traceOf key = some traceId) :
    (c.write side key kind).Colocated ↔ ¬ c.HasRecord side.other traceId := by
  constructor
  · intro hnew hother
    refine hnew side traceId ⟨key, kind, c.kinds_write_self side key kind, ht⟩ ?_
    exact Contents.hasRecord_write_other.2 hother
  · intro hno side' t hown hother
    -- an old record is on both sides, or the new one is on one of them
    rcases hown.of_write with hold | ⟨rfl, htrace⟩
    · rcases hother.of_write with hother | ⟨rfl, htrace⟩
      · exact h side' t hold hother
      · obtain rfl := Option.some.inj (ht.symm.trans htrace)
        rw [Side.other_other] at hno
        exact hno hold
    · obtain rfl := Option.some.inj (ht.symm.trans htrace)
      exact hno (Contents.hasRecord_write_other.1 hother)

/-- After a rotation the current environment has no record of any trace. -/
theorem colocated_rotate (c : Contents) : c.rotate.Colocated := by
  have hcurrent : ∀ t, ¬ c.rotate.HasRecord .current t := by
    rintro t ⟨key, kind, hkind, htrace⟩
    simp only [Contents.rotate] at hkind
    split_ifs at hkind
    rw [← Option.some.inj hkind] at htrace
    cases htrace
  intro side t hown hother
  cases side with
  | current => exact hcurrent t hown
  | last => exact hcurrent t hother

/-- The operation writes no record of a trace that the other environment has a record of. -/
def KeepsTogether (lib : Conversions) (s : Store) : Op → Prop
  | .put id _ _ _ ok => ok = true → ValidKey id → ¬ HasRecord s .last id
  | .addChild traceId child _ _ a =>
    match childTarget lib s traceId child a with
    | some (side, _) => ¬ HasRecord s side.other traceId
    | none => True
  | .markTraceable _ _ => True
  | .deleteOldTransactions _ _ _ => True

/-- One operation keeps the records together exactly if it writes none beside another
environment's. -/
theorem colocated_apply_iff (lib : Conversions) (compress : Bytes → Option Bytes)
    (hopen : s.Opened) (h : Colocated s) (op : Op) :
    Colocated (s.apply lib compress op) ↔ KeepsTogether lib s op := by
  rw [colocated_iff, (apply_spec lib compress hopen op).2]
  have hc := colocated_iff.1 h
  cases op with
  | put id entry ttl now ok =>
    dsimp only [Store.effect, KeepsTogether]
    rw [hasRecord_iff]
    split_ifs with hput
    · rw [colocated_write_iff hc rfl]
      exact ⟨fun hl _ _ => hl, fun hl => hl hput.1 hput.2⟩
    · exact iff_of_true hc fun hok hkey => absurd ⟨hok, hkey⟩ hput
  | addChild traceId child ttl now a =>
    dsimp only [Store.effect, KeepsTogether]
    cases ht : childTarget lib s traceId child a with
    | none => exact iff_of_true hc trivial
    | some p =>
      obtain ⟨side, key⟩ := p
      dsimp only
      rw [colocated_write_iff hc rfl, hasRecord_iff]
  | markTraceable traceId ok =>
    dsimp only [Store.effect]
    split_ifs
    · exact iff_of_true hc trivial
    · exact iff_of_true hc trivial
  | deleteOldTransactions now nowCurrent nowLast =>
    dsimp only [Store.effect]
    split_ifs
    · exact iff_of_true (colocated_rotate _) trivial
    · exact iff_of_true hc trivial

/-! ### Runs -/

theorem not_hasRecord_fresh (nowCurrent nowLast : ℕ) (defaultLookbackSecs : Int32)
    (useBloomFilters : Bool) (side : Side) (traceId : Bytes) :
    ¬ HasRecord (Store.fresh nowCurrent nowLast defaultLookbackSecs useBloomFilters) side
      traceId := by
  rw [hasRecord_iff]
  rintro ⟨key, kind, hkind, htrace⟩
  rw [(contents_fresh nowCurrent nowLast defaultLookbackSecs useBloomFilters side).1] at hkind
  dsimp only at hkind
  split_ifs at hkind
  rw [← Option.some.inj hkind] at htrace
  cases htrace

/-- **Co-location over runs.**  From a directory without files, the records of every trace are
together in every state that a run reaches exactly if every operation of the run keeps them
together. -/
theorem colocated_iff_keepsTogether (lib : Conversions) (compress : Bytes → Option Bytes)
    (nowCurrent nowLast : ℕ) (defaultLookbackSecs : Int32) (useBloomFilters : Bool)
    {tr : List (Event Store Op)} {s : Store}
    (h : Run (storeStep lib compress)
      (Store.fresh nowCurrent nowLast defaultLookbackSecs useBloomFilters) tr s) :
    (∀ e ∈ tr, Colocated e.after) ↔ ∀ e ∈ tr, KeepsTogether lib e.before e.label := by
  have hopen := opened_fresh nowCurrent nowLast defaultLookbackSecs useBloomFilters
  have hfresh : Colocated (Store.fresh nowCurrent nowLast defaultLookbackSecs useBloomFilters) :=
    fun t ht => not_hasRecord_fresh _ _ _ _ .current t ht.1
  exact storeRun_forall_iff lib compress hopen hfresh
    (fun _ hopen hc op => colocated_apply_iff lib compress hopen hc op) h

/-! ### Two runs -/

instance (s : Store) (side : Side) (traceId : Bytes) : Decidable (HasRecord s side traceId) :=
  decidable_of_iff (HoldsRoot s side traceId ∨ ∃ e ∈ ((s.side side).env.file .ts).entries,
      e.2.kind = .child traceId) <| or_congr Iff.rfl <| by
    constructor
    · rintro ⟨⟨key, v⟩, he, hkind⟩
      obtain ⟨c, rfl, hc⟩ := Stored.kind_eq_child.1 hkind
      exact ⟨key, c, AList.mem_lookup_iff.2 he, hc⟩
    · rintro ⟨key, c, hc, rfl⟩
      exact ⟨⟨key, .child c⟩, AList.mem_lookup_iff.1 hc, rfl⟩

instance (lib : Conversions) (s : Store) (op : Op) : Decidable (KeepsTogether lib s op) := by
  cases op with
  | addChild traceId child ttl now a =>
    unfold KeepsTogether
    dsimp only
    split <;> infer_instance
  | _ => unfold KeepsTogether; infer_instance

/-- A span. -/
def spanDocument : Json := .obj [
  (cstr "processor", .obj [(cstr "event", .str (cstr "span"))]),
  (cstr "span", .obj [(cstr "hex_id", .str (cstr "00f067aa"))])]

/-- LMDB succeeds and the filters give no false answer. -/
def allWell : Answers := ⟨true, true, true, true, true, false, false, []⟩

/-- A root record is put and a child is added, with a rotation between the two. -/
def putAndAddChild (childFirst : Bool) : List Op :=
  let put : Op := .put (cstr "4bf92f35") ⟨1000, .obj []⟩ 0 1000 true
  let addChild : Op := .addChild (cstr "4bf92f35") spanDocument 0 1000 allWell
  [if childFirst then addChild else put, .deleteOldTransactions 601001 601001 601002,
    if childFirst then put else addChild]

/-- The run of these operations in a directory without files. -/
def putAndAddChildRun (childFirst : Bool) : Option (List (Event Store Op) × Store) :=
  storeRun reference (fun _ => none) (Store.fresh 1000 1000 300 true) (putAndAddChild childFirst)

/-- The root record comes first: the child follows it into the last environment. -/
theorem colocated_of_root_first :
    ∃ tr s, Run (storeStep reference fun _ => none) (Store.fresh 1000 1000 300 true) tr s ∧
      putAndAddChildRun false = some (tr, s) ∧
      ((s.side .last).env.file .ts).keys.contains (cstr "4bf92f35-00f067aa") ∧
      ∀ e ∈ tr, Colocated e.after := by
  obtain ⟨⟨tr, s⟩, h⟩ : ∃ p, putAndAddChildRun false = some p := ⟨_, rfl⟩
  have hrun := run_of_storeRun _ _ h
  have hkeeps : (putAndAddChildRun false).map (fun p => p.1.all fun e =>
      KeepsTogether reference e.before e.label) = some true := by decide
  have hchild : (putAndAddChildRun false).map (fun p =>
      ((p.2.side .last).env.file .ts).keys.contains (cstr "4bf92f35-00f067aa")) = some true := by
    decide
  rw [h] at hkeeps hchild
  refine ⟨tr, s, hrun, h, Option.some.inj hchild,
    (colocated_iff_keepsTogether _ _ _ _ _ _ hrun).2 ?_⟩
  simpa using hkeeps

/-- The child comes first: it rotates into the last environment, and the root record is put into
the current one. -/
theorem child_and_root_apart :
    ∃ tr s, Run (storeStep reference fun _ => none) (Store.fresh 1000 1000 300 true) tr s ∧
      putAndAddChildRun true = some (tr, s) ∧ HoldsRoot s .current (cstr "4bf92f35") ∧
      HasRecord s .last (cstr "4bf92f35") ∧ ¬ Colocated s := by
  obtain ⟨⟨tr, s⟩, h⟩ : ∃ p, putAndAddChildRun true = some p := ⟨_, rfl⟩
  have hroot : (putAndAddChildRun true).map (fun p =>
      decide (HoldsRoot p.2 .current (cstr "4bf92f35"))) = some true := by decide
  have hchild : (putAndAddChildRun true).map (fun p =>
      decide (HasRecord p.2 .last (cstr "4bf92f35"))) = some true := by decide
  rw [h] at hroot hchild
  simp only [Option.map_some, Option.some.injEq, decide_eq_true_eq] at hroot hchild
  exact ⟨tr, s, run_of_storeRun _ _ h, h, hroot, hchild,
    fun hc => hc _ ⟨.inl hroot, hchild⟩⟩

end Tracemate.TransactionStore
