import Tracemate.TransactionStore.Blooms
import Tracemate.TransactionStore.Quiescence
import Tracemate.TransactionStore.Writes

/-!
# How long a record is kept

A record stays in its environment until `tm_transaction_store_delete_old_transactions` has rotated
it out of the last one; the `ttl` that is stored with it is not read.

* `Written`, `Store.written`: the record that an operation writes, with its time and `ttl`;
* `Whereabouts`, `Tracked`, `trackedStep`: runs after the write, with the clock and the place of the
  record;
* `Retained`: in every run the record is kept for its `ttl`;
* `Written.Covered`: the `ttl` ends before the rotations can;
* `Lasting`, `lasting_step`: the invariant;
* `rotates_out`: the rotations that lose a record;
* `retained_iff_covered`: a record is retained exactly if it is covered.
-/

namespace Tracemate.TransactionStore

open CStr JsonC Lmdb Runs

/-! ### The record that is written -/

/-- A record that is written: where it goes, the time, and its `ttl` in seconds after the default
has been put in. -/
structure Written where
  side : Side
  key : Bytes
  time : ℕ
  ttl : Int32

/-- The record that an operation writes. -/
def Store.written (lib : Conversions) (s : Store) : Op → Option Written
  | .put id _ ttl now ok =>
    if ok = true ∧ ValidKey id then some ⟨.current, id, now, s.ttl ttl⟩ else none
  | .addChild traceId child ttl now a =>
    (childTarget lib s traceId child a).map fun target => ⟨target.1, target.2, now, s.ttl ttl⟩
  | .markTraceable _ _ => none
  | .deleteOldTransactions _ _ _ => none

/-- The time in milliseconds from which on the record need not be kept. -/
def Written.deadline (w : Written) : ℤ := w.time + w.ttl.toInt * 1000

/-! ### Runs after the write -/

/-- Where the record is: in an environment, written over by a later one, or rotated out. -/
inductive Whereabouts
  | stored (side : Side)
  | overwritten
  | rotatedOut
  deriving DecidableEq

/-- The store, the last reading of the clock, and where the record is. -/
structure Tracked where
  store : Store
  clock : ℕ
  place : Whereabouts

/-- The call rotates the environments. -/
def Call.Rotates (s : Store) : Call → Prop
  | .op (.deleteOldTransactions now _ _) => s.Due now
  | _ => False

instance (s : Store) : (call : Call) → Decidable (call.Rotates s)
  | .op (.deleteOldTransactions now _ _) => inferInstanceAs (Decidable (s.Due now))
  | .op (.put _ _ _ _ _) => .isFalse id
  | .op (.addChild _ _ _ _ _) => .isFalse id
  | .op (.markTraceable _ _) => .isFalse id
  | .processJaeger _ _ => .isFalse id

/-- The environment and the key that a call writes to. -/
def Call.target (lib : Conversions) (s : Store) : Call → Option (Side × Bytes)
  | .op operation => (s.written lib operation).map fun w => (w.side, w.key)
  | .processJaeger _ _ => none

/-- The reading of the clock in a call. -/
def Call.reading : Call → ℕ
  | .op operation => operation.reading.getD 0
  | .processJaeger now _ => now

/-- A rotation opens the new environment when it has taken the old ones away. -/
def Call.Timely (clock : ℕ) : Call → Prop
  | .op (.deleteOldTransactions now nowCurrent _) => max clock now ≤ nowCurrent
  | _ => True

section Steps

variable (j : JaegerEnv) (compress : Bytes → Option Bytes)

/-- The store after a call, if it returns. -/
def Call.store (s : Store) : Call → Option Store
  | .op operation => some (s.apply j.lib compress operation)
  | .processJaeger now a =>
    match tmTransactionStoreProcessJaeger j s now a with
    | .ok (s', _, _) => some s'
    | .error _ => none

/-- Where a record is after a call. -/
def Whereabouts.after (lib : Conversions) (s : Store) (key : Bytes) (call : Call) :
    Whereabouts → Whereabouts
  | .stored side =>
    if call.target lib s = some (side, key) then .overwritten
    else if call.Rotates s then
      match side with
      | .current => .stored .last
      | .last => .rotatedOut
    else .stored side
  | .overwritten => .overwritten
  | .rotatedOut => .rotatedOut

/-- One call of a run; the clock does not go back. -/
def trackedStep (key : Bytes) (t : Tracked) (call : Call) (t' : Tracked) : Prop :=
  call.Timely t.clock ∧ call.store j compress t.store = some t'.store ∧
    t'.clock = max t.clock call.reading ∧ t'.place = t.place.after j.lib t.store key call

/-- A record after its parent has been written back any number of times. -/
def Touched : Option Stored → Option Stored → Prop :=
  Relation.ReflTransGen fun v v' => ∃ now, SameRecord now v v'

/-- The record is in one of the two environments, unless a later one has been written over it. -/
def Present (key : Bytes) (v : Stored) (t : Tracked) : Prop :=
  t.place = .overwritten ∨ ∃ side, t.place = .stored side ∧
    Touched (some v) (t.store.record side key)

/-- The operation has written the record, and in every run after it the record is there at every
time before the deadline. -/
def Retained (s : Store) (op : Op) (w : Written) : Prop :=
  ∃ v, (s.apply j.lib compress op).record w.side w.key = some v ∧
    ∀ tr t, Run (trackedStep j compress w.key)
        ⟨s.apply j.lib compress op, w.time, .stored w.side⟩ tr t →
      (t.clock : ℤ) < w.deadline → Present w.key v t

end Steps

/-- The first time at which a record can be rotated out that is in the environment at this time. -/
def Store.firstLoss (s : Store) (side : Side) (time : ℕ) : ℕ :=
  max time (s.current.openMs + tenMinutesMs + 1) +
    match side with
    | .current => tenMinutesMs + 1
    | .last => 0

/-- The `ttl` ends before the record can be rotated out. -/
def Written.Covered (s : Store) (w : Written) : Prop := w.deadline ≤ s.firstLoss w.side w.time

variable {j : JaegerEnv} {compress : Bytes → Option Bytes} {s s' : Store} {side : Side}
  {key : Bytes} {call : Call}

/-! ### One call -/

theorem record_put_of_ne (hopen : s.Opened) (id : Bytes) (entry : Entry) (ttl : Int32) (now : ℕ)
    (ok : Bool)
    (hne : (Call.op (.put id entry ttl now ok)).target j.lib s ≠ some (side, key)) :
    (s.apply j.lib compress (.put id entry ttl now ok)).record side key = s.record side key := by
  dsimp only [Store.apply]
  rw [put_eq j.lib compress hopen]
  by_cases hwrite : ok = true ∧ ValidKey id
  · rw [if_pos hwrite, record_addBloom, record_write, if_neg]
    rintro ⟨rfl, rfl⟩
    apply hne
    dsimp only [Call.target, Store.written]
    rw [if_pos hwrite]
    rfl
  · rw [if_neg hwrite]

/-- A call that neither writes over a record nor rotates leaves it where it is. -/
theorem record_of_no_target (hopen : s.Opened) (hstore : call.store j compress s = some s')
    (hne : call.target j.lib s ≠ some (side, key)) (hrotates : ¬ call.Rotates s) :
    (∃ now, SameRecord now (s.record side key) (s'.record side key)) ∧
      s'.current.openMs = s.current.openMs := by
  cases call with
  | processJaeger now a =>
    dsimp only [Call.store] at hstore
    split at hstore
    · next report n hok =>
      obtain rfl := Option.some.inj hstore
      obtain ⟨hdeleted, -⟩ := processJaeger_spec hopen hok
      refine ⟨⟨now, .inl ?_⟩, hdeleted.openMs .current⟩
      unfold Store.record
      rw [hdeleted.ts]
    · cases hstore
  | op op =>
    obtain rfl := Option.some.inj hstore
    cases op with
    | put id entry ttl now ok =>
      exact ⟨⟨now, .inl (record_put_of_ne hopen id entry ttl now ok hne)⟩,
        openMs_put hopen id entry ttl now ok⟩
    | addChild traceId child ttl now a =>
      refine ⟨⟨now, record_addChild_of_ne compress hopen _ _ fun ht => hne ?_⟩,
        openMs_addChild hopen traceId child ttl now a⟩
      simp [Call.target, Store.written, ht]
    | markTraceable traceId ok =>
      exact ⟨⟨0, .inl (record_markTraceable compress hopen traceId ok side key)⟩,
        openMs_markTraceable traceId ok⟩
    | deleteOldTransactions now nowCurrent nowLast =>
      rw [apply_of_not_due j.lib compress hrotates]
      exact ⟨⟨now, .inl rfl⟩, rfl⟩

/-- Only `tm_transaction_store_delete_old_transactions` rotates. -/
theorem Call.Rotates.exists_eq (h : call.Rotates s) : ∃ now nowCurrent nowLast,
    call = .op (.deleteOldTransactions now nowCurrent nowLast) ∧ s.Due now := by
  cases call with
  | processJaeger _ _ => cases h
  | op op =>
    cases op with
    | deleteOldTransactions now nowCurrent nowLast => exact ⟨now, nowCurrent, nowLast, rfl, h⟩
    | _ => cases h

theorem opened_store (hopen : s.Opened) (hstore : call.store j compress s = some s') :
    s'.Opened := by
  cases call with
  | op op =>
    obtain rfl := Option.some.inj hstore
    exact (apply_spec j.lib compress hopen op).1
  | processJaeger now a =>
    dsimp only [Call.store] at hstore
    split at hstore
    · next report n hok =>
      obtain rfl := Option.some.inj hstore
      exact (processJaeger_spec hopen hok).1.opened hopen
    · cases hstore

/-! ### The invariant -/

/-- The record is where it is said to be, and is not lost before the deadline. -/
def Lasting (deadline : ℤ) (key : Bytes) (v : Stored) (t : Tracked) : Prop :=
  t.store.Opened ∧
    match t.place with
    | .stored side => Touched (some v) (t.store.record side key) ∧
        deadline ≤ t.store.firstLoss side t.clock
    | .overwritten => True
    | .rotatedOut => deadline ≤ t.clock

variable {deadline : ℤ} {v : Stored} {t t' : Tracked}

theorem Lasting.present (h : Lasting deadline key v t) (hclock : (t.clock : ℤ) < deadline) :
    Present key v t := by
  obtain ⟨-, h⟩ := h
  unfold Present
  cases hplace : t.place with
  | stored side =>
    rw [hplace] at h
    exact .inr ⟨side, rfl, h.1⟩
  | overwritten => exact .inl rfl
  | rotatedOut =>
    rw [hplace] at h
    dsimp only at h
    omega

/-- As the clock goes on, the first loss does not come closer. -/
theorem firstLoss_le (hopenMs : s'.current.openMs = s.current.openMs) (side : Side) {c c' : ℕ}
    (hclock : c ≤ c') : s.firstLoss side c ≤ s'.firstLoss side c' := by
  unfold Store.firstLoss
  rw [hopenMs]
  omega

/-- A rotation takes a record of the current environment to the last one. -/
theorem firstLoss_rotate {clock now : ℕ} (hdue : s.Due now)
    (hnow : max clock now ≤ s'.current.openMs) :
    s.firstLoss .current clock ≤ s'.firstLoss .last (max clock now) ∧
      s.firstLoss .last clock ≤ max clock now := by
  unfold Store.Due at hdue
  unfold Store.firstLoss
  dsimp only
  omega

/-- One call. -/
theorem lasting_step (h : Lasting deadline key v t)
    (hstep : trackedStep j compress key t call t') : Lasting deadline key v t' := by
  obtain ⟨hopen, h⟩ := h
  obtain ⟨htimely, hstore, hclock, hplace'⟩ := hstep
  refine ⟨opened_store hopen hstore, ?_⟩
  rw [hplace', hclock]
  cases hplace : t.place with
  | overwritten => exact trivial
  | rotatedOut =>
    rw [hplace] at h
    dsimp only [Whereabouts.after] at h ⊢
    omega
  | stored side =>
    rw [hplace] at h
    obtain ⟨htouched, hloss⟩ := h
    dsimp only [Whereabouts.after]
    by_cases htarget : call.target j.lib t.store = some (side, key)
    · rw [if_pos htarget]
      exact trivial
    · rw [if_neg htarget]
      by_cases hrotates : call.Rotates t.store
      · rw [if_pos hrotates]
        obtain ⟨now, nowCurrent, nowLast, rfl, -⟩ := hrotates.exists_eq
        obtain ⟨hlast, -, -, hopenMs, -⟩ :=
          record_rotate j.lib compress hopen hrotates nowCurrent nowLast
        have hs' := Option.some.inj hstore
        rw [hs'] at hlast hopenMs
        obtain ⟨hcurrentLoss, hlastLoss⟩ :=
          firstLoss_rotate hrotates (htimely.trans_eq hopenMs.symm)
        cases side with
        | current =>
          refine ⟨?_, hloss.trans (Int.ofNat_le.2 hcurrentLoss)⟩
          rw [hlast]
          exact htouched
        | last => exact hloss.trans (Int.ofNat_le.2 hlastLoss)
      · rw [if_neg hrotates]
        obtain ⟨hsame, hopenMs⟩ := record_of_no_target hopen hstore htarget hrotates
        exact ⟨htouched.tail hsame,
          hloss.trans (Int.ofNat_le.2 (firstLoss_le hopenMs side (le_max_left _ _)))⟩

/-! ### The rotations that lose a record -/

/-- A rotation in which the clock stands still. -/
def rotateAt (time : ℕ) : Call := .op (.deleteOldTransactions time time time)

theorem rotateAt_step (j : JaegerEnv) (compress : Bytes → Option Bytes) (key : Bytes)
    {clock time : ℕ} (hclock : clock ≤ time) (hdue : s.Due time) (side : Side) :
    trackedStep j compress key ⟨s, clock, .stored side⟩ (rotateAt time)
      ⟨s.apply j.lib compress (.deleteOldTransactions time time time), time,
        match side with
        | .current => .stored .last
        | .last => .rotatedOut⟩ := by
  have htarget : (rotateAt time).target j.lib s ≠ some (side, key) := nofun
  have hrotates : (rotateAt time).Rotates s := hdue
  have htime : max clock time = time := max_eq_right hclock
  refine ⟨htime.le, rfl, htime.symm, ?_⟩
  dsimp only [Whereabouts.after]
  rw [if_neg htarget, if_pos hrotates]

theorem due_of_le {time : ℕ} (h : s.current.openMs + tenMinutesMs + 1 ≤ time) : s.Due time := by
  unfold Store.Due
  omega

/-- A record can be rotated out at the first time of loss. -/
theorem rotates_out (j : JaegerEnv) (compress : Bytes → Option Bytes) (hopen : s.Opened)
    (side : Side) (key : Bytes) (clock : ℕ) :
    ∃ tr t, Run (trackedStep j compress key) ⟨s, clock, .stored side⟩ tr t ∧
      t.place = .rotatedOut ∧ t.clock = s.firstLoss side clock := by
  have hdue : s.Due (max clock (s.current.openMs + tenMinutesMs + 1)) :=
    due_of_le (le_max_right _ _)
  have hfirst := rotateAt_step j compress key (le_max_left clock _)
    hdue side
  cases side with
  | last => exact ⟨_, _, .single hfirst, rfl, rfl⟩
  | current =>
    have hopenMs := (record_rotate j.lib compress hopen hdue
      (max clock (s.current.openMs + tenMinutesMs + 1))
      (max clock (s.current.openMs + tenMinutesMs + 1))).2.2.2.1
    have hsecond := rotateAt_step j compress key
      (Nat.le_add_right (max clock (s.current.openMs + tenMinutesMs + 1)) (tenMinutesMs + 1))
      (due_of_le (by rw [hopenMs, add_assoc])) .last
    exact ⟨_, _, (Run.single hfirst).snoc hsecond, rfl, rfl⟩

/-! ### Retention -/

/-- The record is in its place after the operation. -/
theorem record_written (compress : Bytes → Option Bytes) (hopen : s.Opened) {op : Op} {w : Written}
    (hw : s.written j.lib op = some w) :
    (∃ v, (s.apply j.lib compress op).record w.side w.key = some v) ∧
      (s.apply j.lib compress op).current.openMs = s.current.openMs := by
  cases op with
  | put id entry ttl now ok =>
    refine ⟨?_, openMs_put hopen id entry ttl now ok⟩
    dsimp only [Store.written] at hw
    split_ifs at hw with hwrite
    obtain rfl := Option.some.inj hw
    refine ⟨.root (rootRecord j.lib compress s entry ttl now), ?_⟩
    dsimp only [Store.apply]
    rw [put_eq j.lib compress hopen, if_pos hwrite, record_addBloom, record_write,
      if_pos ⟨rfl, rfl⟩]
  | addChild traceId child ttl now a =>
    refine ⟨?_, openMs_addChild hopen traceId child ttl now a⟩
    obtain ⟨target, ht, rfl⟩ := Option.map_eq_some_iff.1 hw
    exact ⟨_, record_addChild_self compress hopen ttl now ht⟩
  | markTraceable traceId ok => cases hw
  | deleteOldTransactions now nowCurrent nowLast => cases hw

theorem firstLoss_apply (hopen : s.Opened) {op : Op} {w : Written}
    (hw : s.written j.lib op = some w) :
    (s.apply j.lib compress op).firstLoss w.side w.time = s.firstLoss w.side w.time := by
  unfold Store.firstLoss
  rw [(record_written compress hopen hw).2]

/-- The rotations come as early as they can. -/
theorem covered_of_retained (hopen : s.Opened) {op : Op} {w : Written}
    (hw : s.written j.lib op = some w) (h : Retained j compress s op w) : w.Covered s := by
  by_contra hnot
  obtain ⟨v, -, hpresent⟩ := h
  obtain ⟨tr, t, hrun, hplace, hclock⟩ := rotates_out j compress
    (apply_spec j.lib compress hopen op).1 w.side w.key w.time
  have hearly : (t.clock : ℤ) < w.deadline := by
    rw [hclock, firstLoss_apply hopen hw]
    exact not_le.1 hnot
  rcases hpresent tr t hrun hearly with hover | ⟨side, hstored, -⟩
  · rw [hplace] at hover
    cases hover
  · rw [hplace] at hstored
    cases hstored

theorem retained_of_covered (hopen : s.Opened) {op : Op} {w : Written}
    (hw : s.written j.lib op = some w) (h : w.Covered s) : Retained j compress s op w := by
  obtain ⟨v, hv⟩ := (record_written compress hopen hw).1
  have hstart : Lasting w.deadline w.key v
      ⟨s.apply j.lib compress op, w.time, .stored w.side⟩ := by
    refine ⟨(apply_spec j.lib compress hopen op).1, ?_, ?_⟩
    · dsimp only
      rw [hv]
      exact .refl
    · dsimp only
      rw [firstLoss_apply hopen hw]
      exact h
  refine ⟨v, hv, fun tr t hrun hclock => ?_⟩
  exact (hrun.invariant (Lasting w.deadline w.key v) hstart
    fun _ _ _ hu hstep => lasting_step hu hstep).2.present hclock

/-- **Retention.**  A record that a put or a child has written is kept for its `ttl` in every run
after it exactly if the `ttl` ends before the environments can have been rotated: once for a record
in the last environment, twice for one in the current environment. -/
theorem retained_iff_covered (j : JaegerEnv) (compress : Bytes → Option Bytes) {s : Store}
    (hopen : s.Opened) {op : Op} {w : Written} (hw : s.written j.lib op = some w) :
    Retained j compress s op w ↔ w.Covered s :=
  ⟨covered_of_retained hopen hw, retained_of_covered hopen hw⟩

/-! ### Ten minutes and an hour -/

instance (s : Store) (w : Written) : Decidable (w.Covered s) :=
  inferInstanceAs (Decidable (w.deadline ≤ s.firstLoss w.side w.time))

/-- A root is put into a fresh store. -/
def putRoot (ttl : Int32) : Op := .put (cstr "1f") ⟨1000, .obj []⟩ ttl 1000 true

/-- The default of ten minutes. -/
theorem default_ttl_retained :
    Retained plainText (fun _ => none) (Store.fresh 1000 1000 300 true) (putRoot 0)
      ⟨.current, cstr "1f", 1000, 600⟩ := by
  refine (retained_iff_covered plainText (fun _ => none) (opened_fresh 1000 1000 300 true) ?_).2 ?_
  · rfl
  · decide

/-- A `ttl` of one hour: the record is gone after two rotations, twenty minutes later. -/
theorem hour_not_retained :
    ¬ ∀ (j : JaegerEnv) (compress : Bytes → Option Bytes) (s : Store) (op : Op) (w : Written),
      s.Opened → s.written j.lib op = some w → Retained j compress s op w := by
  intro hall
  have hretained := hall plainText (fun _ => none) (Store.fresh 1000 1000 300 true) (putRoot 3600)
    ⟨.current, cstr "1f", 1000, 3600⟩ (opened_fresh 1000 1000 300 true) rfl
  have hcovered := covered_of_retained (opened_fresh 1000 1000 300 true) rfl hretained
  have hnot : ¬ Written.Covered (Store.fresh 1000 1000 300 true)
      ⟨.current, cstr "1f", 1000, 3600⟩ := by decide
  exact hnot hcovered

end Tracemate.TransactionStore
