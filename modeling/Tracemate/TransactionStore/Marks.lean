import Tracemate.TransactionStore.Contents

/-!
# Marks and their root records

`tm_transaction_store_process_jaeger` looks the key of a mark up in the main database of the
environment that holds the mark, and then on the handle of the other main database.

* `ResolvesMarks`: every mark is resolved whose root record is in either environment;
* `markedRecord_trace`: both lookups read the same database;
* `resolvesMarks_iff`: the marks are resolved exactly if no root record is in the other
  environment only;
* `KeepsRoots`, `resolvesMarks_iff_keepsRoots`: the operations that keep it so, and runs of them.
-/

namespace Tracemate.TransactionStore

open CStr JsonC Lmdb Runs

/-- Every mark is resolved to a root record if either environment holds one. -/
def ResolvesMarks (s : Store) : Prop :=
  ∀ side key data, ((s.side side).env.file .jaeger).lookup key = some data →
    (∃ side', HoldsRoot s side' key) → ∃ r, markedRecord s side key data = some (.root r)

/-- No marked key has a root record in the other environment only. -/
def Contents.OwnRoots (c : Contents) : Prop :=
  ∀ side key, c.marked side key → c.kinds side.other key = some .root →
    c.kinds side key = some .root

variable {s : Store}

theorem get_ts_ne_found (h : s.Opened) {side : Side} {key : Bytes}
    (hl : ((s.side side).env.file .ts).lookup key = none) (side' : Side) (v : Stored) :
    (s.side side).env.get (s.side side').dbi key ≠ .found v := by
  intro hg
  rw [(get_ts h side side' key v).1 hg] at hl
  cases hl

/-- Both lookups read the database of the mark's own environment. -/
theorem markedRecord_trace (h : s.Opened) (side : Side) (key : Bytes) :
    markedRecord s side key .trace = ((s.side side).env.file .ts).lookup key := by
  unfold markedRecord
  rw [if_pos rfl]
  cases hl : ((s.side side).env.file .ts).lookup key with
  | some v =>
    rw [(get_ts h side side key v).2 hl]
  | none =>
    have hown := get_ts_ne_found h hl side
    have hother := get_ts_ne_found h hl side.other
    split
    · exact absurd (by assumption) (hown _)
    · split
      · exact absurd (by assumption) (hother _)
      · rfl

/-- A mark is resolved exactly if its own environment holds a root record. -/
theorem resolves_iff (h : s.Opened) {side : Side} {key : Bytes} {data : Stored}
    (hmark : ((s.side side).env.file .jaeger).lookup key = some data) :
    (∃ r, markedRecord s side key data = some (.root r)) ↔ HoldsRoot s side key := by
  rw [(h side).marks key data hmark, markedRecord_trace h]
  exact Iff.rfl

/-- The marks are resolved exactly if no root record is in the other environment only. -/
theorem resolvesMarks_iff (h : s.Opened) : ResolvesMarks s ↔ s.contents.OwnRoots := by
  constructor
  · intro hres side key hmark hother
    obtain ⟨data, hdata⟩ := Option.isSome_iff_exists.1 (AList.lookup_isSome.2 hmark)
    rw [← holdsRoot_iff] at hother ⊢
    exact (resolves_iff h hdata).1 (hres side key data hdata ⟨side.other, hother⟩)
  · rintro hown side key data hdata ⟨side', hroot⟩
    rw [resolves_iff h hdata]
    have hmark : s.contents.marked side key := AList.lookup_isSome.1 (by rw [hdata]; rfl)
    by_cases hside : side' = side
    · rwa [← hside]
    · obtain rfl : side' = side.other := by
        cases side <;> cases side' <;> first | rfl | exact absurd rfl hside
      exact holdsRoot_iff.2 (hown side key hmark (holdsRoot_iff.1 hroot))

/-! ### Operations -/

/-- The operation leaves no marked key with a root record in the other environment only: a root
record is not put beside a mark of the last environment, a mark is not set beside a root record
of it, and no child record takes the place of the root record of a mark. -/
def KeepsRoots (lib : Conversions) (s : Store) : Op → Prop
  | .put id _ _ _ ok => ok = true → ValidKey id → s.contents.marked .last id → HoldsRoot s .last id
  | .addChild traceId child _ _ a =>
    match childTarget lib s traceId child a with
    | some (side, key) => s.contents.marked side key → ¬ HoldsRoot s side.other key
    | none => True
  | .markTraceable traceId ok => ok = true → ValidKey traceId → HoldsRoot s .last traceId →
    HoldsRoot s .current traceId
  | .deleteOldTransactions _ _ _ => True

instance (s : Store) (target : Option (Side × Bytes)) : Decidable (match target with
    | some (side, key) => s.contents.marked side key → ¬ HoldsRoot s side.other key
    | none => True) :=
  match target with
  | some (side, key) =>
    inferInstanceAs (Decidable (s.contents.marked side key → ¬ HoldsRoot s side.other key))
  | none => inferInstanceAs (Decidable True)

instance (lib : Conversions) (s : Store) (op : Op) : Decidable (KeepsRoots lib s op) :=
  match op with
  | .put id _ _ _ ok => inferInstanceAs (Decidable (ok = true → ValidKey id →
      s.contents.marked .last id → HoldsRoot s .last id))
  | .addChild traceId child _ _ a =>
    inferInstanceAs (Decidable (match childTarget lib s traceId child a with
      | some (side, key) => s.contents.marked side key → ¬ HoldsRoot s side.other key
      | none => True))
  | .markTraceable traceId ok => inferInstanceAs (Decidable (ok = true → ValidKey traceId →
      HoldsRoot s .last traceId → HoldsRoot s .current traceId))
  | .deleteOldTransactions _ _ _ => inferInstanceAs (Decidable True)

/-- A root record is put. -/
theorem ownRoots_write_root {c : Contents} (h : c.OwnRoots) (key : Bytes) :
    (c.write .current key .root).OwnRoots ↔
      (c.marked .last key → c.kinds .last key = some .root) := by
  constructor
  · intro hown hmark
    have hlast := hown .last key hmark (c.kinds_write_self .current key .root)
    rwa [c.kinds_write_of_ne .root (by simp)] at hlast
  · intro hlast side k hmark hother
    by_cases hk : k = key
    · subst hk
      cases side with
      | current => exact c.kinds_write_self .current k .root
      | last =>
        rw [c.kinds_write_of_ne .root (by simp)]
        exact hlast hmark
    · rw [c.kinds_write_of_ne .root fun _ => hk] at hother ⊢
      exact h side k hmark hother

/-- A child record is written. -/
theorem ownRoots_write_child {c : Contents} (h : c.OwnRoots) (side : Side) (key traceId : Bytes) :
    (c.write side key (.child traceId)).OwnRoots ↔
      (c.marked side key → c.kinds side.other key ≠ some .root) := by
  have hne : side.other = side → key ≠ key := fun hs => absurd hs side.other_ne
  constructor
  · intro hown hmark hother
    have hroot := hown side key hmark (by rwa [c.kinds_write_of_ne _ hne])
    rw [c.kinds_write_self] at hroot
    cases hroot
  · intro hmarked side' k hmark hother
    by_cases hk : k = key
    · subst hk
      by_cases hside : side' = side
      · subst hside
        rw [c.kinds_write_of_ne _ hne] at hother
        exact absurd hother (hmarked hmark)
      · obtain rfl : side'.other = side := by
          cases side <;> cases side' <;> first | rfl | exact absurd rfl hside
        rw [c.kinds_write_self] at hother
        cases hother
    · rw [c.kinds_write_of_ne _ fun _ => hk] at hother ⊢
      exact h side' k hmark hother

/-- A key is marked. -/
theorem ownRoots_mark {c : Contents} (h : c.OwnRoots) (key : Bytes) :
    (c.mark .current key).OwnRoots ↔
      (c.kinds .last key = some .root → c.kinds .current key = some .root) := by
  constructor
  · intro hown hlast
    exact hown .current key (by simp [Contents.mark]) hlast
  · intro hroot side k hmark hother
    cases side with
    | current =>
      simp only [Contents.mark, Function.update_self] at hmark
      rcases hmark with rfl | hmark
      · exact hroot hother
      · exact h .current k hmark hother
    | last =>
      simp only [Contents.mark, ne_eq, reduceCtorEq, not_false_eq_true,
        Function.update_of_ne] at hmark
      exact h .last k hmark hother

/-- After a rotation the current environment holds no mark and no root record. -/
theorem ownRoots_rotate (c : Contents) : c.rotate.OwnRoots := by
  intro side key hmark hother
  cases side with
  | current => exact hmark.elim
  | last =>
    simp only [Contents.rotate, Side.other] at hother
    split_ifs at hother
    cases hother

/-- One operation keeps the marks resolved exactly if it keeps the roots. -/
theorem resolvesMarks_apply_iff (lib : Conversions) (compress : Bytes → Option Bytes)
    (hopen : s.Opened) (h : ResolvesMarks s) (op : Op) :
    ResolvesMarks (s.apply lib compress op) ↔ KeepsRoots lib s op := by
  obtain ⟨hopen', hcontents⟩ := apply_spec lib compress hopen op
  rw [resolvesMarks_iff hopen', hcontents]
  have hown := (resolvesMarks_iff hopen).1 h
  cases op with
  | put id entry ttl now ok =>
    dsimp only [Store.effect, KeepsRoots]
    rw [holdsRoot_iff]
    split_ifs with hput
    · rw [ownRoots_write_root hown]
      exact ⟨fun hl _ _ => hl, fun hl => hl hput.1 hput.2⟩
    · exact iff_of_true hown fun hok hkey => absurd ⟨hok, hkey⟩ hput
  | addChild traceId child ttl now a =>
    dsimp only [Store.effect, KeepsRoots]
    cases ht : childTarget lib s traceId child a with
    | none => exact iff_of_true hown trivial
    | some p =>
      obtain ⟨side, key⟩ := p
      dsimp only
      rw [ownRoots_write_child hown, holdsRoot_iff]
  | markTraceable traceId ok =>
    dsimp only [Store.effect, KeepsRoots]
    rw [holdsRoot_iff, holdsRoot_iff]
    split_ifs with hput
    · rw [ownRoots_mark hown]
      exact ⟨fun hl _ _ => hl, fun hl => hl hput.1 hput.2⟩
    · exact iff_of_true hown fun hok hkey => absurd ⟨hok, hkey⟩ hput
  | deleteOldTransactions now nowCurrent nowLast =>
    dsimp only [Store.effect]
    split_ifs with hdue
    · exact iff_of_true (ownRoots_rotate _) trivial
    · exact iff_of_true hown trivial

/-! ### Runs -/

/-- **Marks over runs.**  From a directory without files, the marks are resolved in every state
that a run reaches exactly if every operation of the run keeps the roots. -/
theorem resolvesMarks_iff_keepsRoots (lib : Conversions) (compress : Bytes → Option Bytes)
    (nowCurrent nowLast : ℕ) (defaultLookbackSecs : Int32) (useBloomFilters : Bool)
    {tr : List (Event Store Op)} {s : Store}
    (h : Run (storeStep lib compress)
      (Store.fresh nowCurrent nowLast defaultLookbackSecs useBloomFilters) tr s) :
    (∀ e ∈ tr, ResolvesMarks e.after) ↔ ∀ e ∈ tr, KeepsRoots lib e.before e.label := by
  have hopen := opened_fresh nowCurrent nowLast defaultLookbackSecs useBloomFilters
  have hfresh : ResolvesMarks
      (Store.fresh nowCurrent nowLast defaultLookbackSecs useBloomFilters) := by
    rw [resolvesMarks_iff hopen]
    intro side key hmark
    exact absurd hmark ((contents_fresh _ _ _ _ side).2 key)
  exact storeRun_forall_iff lib compress hopen hfresh
    (fun _ hopen hres op => resolvesMarks_apply_iff lib compress hopen hres op) h

/-! ### Two runs -/

/-- A root record is put and its key is marked, before a rotation or after it. -/
def putAndMark (markFirst : Bool) : List Op :=
  [.put (cstr "4bf92f35") ⟨1000, .obj []⟩ 0 1000 true] ++
    (if markFirst then [.markTraceable (cstr "4bf92f35") true] else []) ++
    [.deleteOldTransactions 601001 601001 601002] ++
    (if markFirst then [] else [.markTraceable (cstr "4bf92f35") true])

/-- The run of these operations in a directory without files. -/
def putAndMarkRun (markFirst : Bool) : Option (List (Event Store Op) × Store) :=
  storeRun reference (fun _ => none) (Store.fresh 1000 1000 300 true) (putAndMark markFirst)

/-- The key is marked before the rotation: mark and root record move together. -/
theorem resolvesMarks_of_mark_first :
    ∃ tr s, Run (storeStep reference fun _ => none) (Store.fresh 1000 1000 300 true) tr s ∧
      putAndMarkRun true = some (tr, s) ∧ ∀ e ∈ tr, ResolvesMarks e.after := by
  obtain ⟨⟨tr, s⟩, h⟩ : ∃ p, putAndMarkRun true = some p := ⟨_, rfl⟩
  have hrun := run_of_storeRun _ _ h
  have hkeeps : (putAndMarkRun true).map (fun p => p.1.all fun e =>
      KeepsRoots reference e.before e.label) = some true := by decide
  rw [h] at hkeeps
  refine ⟨tr, s, hrun, h, (resolvesMarks_iff_keepsRoots _ _ _ _ _ _ hrun).2 ?_⟩
  simpa using hkeeps

/-- The key is marked after the rotation: the root record is in the last environment, the mark in
the current one, and no record is found for it. -/
theorem mark_after_rotation_unresolved :
    ∃ tr s, Run (storeStep reference fun _ => none) (Store.fresh 1000 1000 300 true) tr s ∧
      putAndMarkRun false = some (tr, s) ∧
      ((s.side .current).env.file .jaeger).lookup (cstr "4bf92f35") = some .trace ∧
      HoldsRoot s .last (cstr "4bf92f35") ∧
      markedRecord s .current (cstr "4bf92f35") .trace = none ∧ ¬ ResolvesMarks s := by
  obtain ⟨⟨tr, s⟩, h⟩ : ∃ p, putAndMarkRun false = some p := ⟨_, rfl⟩
  have hmark : (putAndMarkRun false).map (fun p =>
      ((p.2.side .current).env.file .jaeger).lookup (cstr "4bf92f35")) = some (some .trace) := by
    decide
  have hroot : (putAndMarkRun false).map (fun p => decide (HoldsRoot p.2 .last (cstr "4bf92f35"))) =
      some true := by decide
  have hrecord : (putAndMarkRun false).map (fun p =>
      markedRecord p.2 .current (cstr "4bf92f35") .trace) = some none := by decide
  rw [h] at hmark hroot hrecord
  simp only [Option.map_some, Option.some.injEq, decide_eq_true_eq] at hmark hroot hrecord
  refine ⟨tr, s, run_of_storeRun _ _ h, h, hmark, hroot, hrecord, fun hres => ?_⟩
  obtain ⟨r, hr⟩ := hres .current _ _ hmark ⟨.last, hroot⟩
  rw [hrecord] at hr
  cases hr

end Tracemate.TransactionStore
