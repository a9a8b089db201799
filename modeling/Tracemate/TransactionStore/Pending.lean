import Tracemate.TransactionStore.Quiescence
import Tracemate.TransactionStore.Writes

/-!
# Which marks a rotation discards

`transaction_clean` calls `tm_transaction_store_process_jaeger` and
`tm_transaction_store_delete_old_transactions` in turn; a rotation discards the marks of the last
environment.

* `work`: what the visit of a mark adds to `jaegered_count`;
* `Offered`: a call whose loop comes to a mark with a quiet root record;
* `visitMarks_split`, `visitMarks_offered`, `processJaeger_offered`: such a mark is handed over, or
  found unreadable, or deleted;
* `Cleaning`, `cleaningStep`: the runs, with the passes since the environments were opened;
* `RotatesInTime`: the lookback time of a pass goes back to the opening of the current environment,
  the traces have been quiet since, and the count has not ended its loop;
* `Passed`: every pass in time has accounted for its marks;
* `rotations_in_time_account`: then a rotation discards only marks that are accounted for.
-/

namespace Tracemate.TransactionStore

open CStr JsonC Lmdb COutcome Outcome Runs

/-! ### What a visit counts -/

section Work

variable (j : JaegerEnv) (s : Store) (side : Side) (time : ℕ)

/-- What the visit of a mark adds to `jaegered_count`. -/
def work (entry : Bytes × Stored) : ℕ :=
  match markedRecord s side entry.1 entry.2 with
  | none => 0
  | some record =>
    let ss := j.asRoot record
    if ss.lastModifiedMs ≤ time then
      match (j.text ss.compressed ss.data).bind j.parse with
      | none => 0
      | some json =>
        match jaegerizeDocument j json ((s.side side).env.cursor (s.side side).dbi) entry.1 with
        | .ok handed => (handed.map fun h => h.sending.count).getD 0 + 1
        | .error _ => 0
    else 0

/-- The visit of the mark comes to its deletion: the record is quiet and can be decompressed. -/
def Deletes (entry : Bytes × Stored) : Prop :=
  ∃ record, markedRecord s side entry.1 entry.2 = some record ∧
    (j.asRoot record).lastModifiedMs ≤ time ∧
    (j.text (j.asRoot record).compressed (j.asRoot record).data).isSome = true

/-- The marks of an environment, in the order of the loop. -/
def Store.marks : List (Bytes × Stored) := (s.side side).env.cursor (s.side side).jaegerDbi

/-- What the visits of these marks add to `jaegered_count`. -/
def works (entries : List (Bytes × Stored)) : ℕ := (entries.map (work j s side time)).sum

/-- What is counted before the loop over the marks of the environment, if all marks of the other
one are visited before it. -/
def worksBefore : ℕ :=
  match side with
  | .current => 0
  | .last => works j s .current time (s.marks .current)

/-- The loop comes to the mark: the marks before it count nothing, or what is counted before it is
less than `JAEGER_MAX_COUNT`. -/
def Reached (key : Bytes) : Prop :=
  ∃ before data after, s.marks side = before ++ (key, data) :: after ∧
    (works j s side time before = 0 ∨
      worksBefore j s side time + works j s side time before < jaegerMaxCount)

end Work

/-- The mark has a root record in its environment that is quiet for the lookback time, and the loop
comes to it. -/
def Offered (j : JaegerEnv) (s : Store) (now : ℕ) (a : JaegerAnswers) (side : Side)
    (key : Bytes) : Prop :=
  a.Succeed ∧ (∃ r, s.record side key = some (.root r) ∧
    r.lastModifiedMs ≤ timeMs s.defaultLookbackSecs now) ∧
    Reached j s side (timeMs s.defaultLookbackSecs now) key

/-- The traces that a call has handed over or found unreadable. -/
def JaegerReport.accounted (report : JaegerReport) : List Bytes :=
  report.handed.map Handed.key ++ report.unreadable

variable {j : JaegerEnv} {side : Side} {s s' : Store} {time now : ℕ} {a : JaegerAnswers}
  {entry : Bytes × Stored} {entries : List (Bytes × Stored)} {st st' : Store × JaegerReport}
  {control : Control} {returns : Bool} {key : Bytes}

theorem works_cons (entry : Bytes × Stored) (entries : List (Bytes × Stored)) :
    works j s side time (entry :: entries) =
      work j s side time entry + works j s side time entries := by
  unfold works
  rw [List.map_cons, List.sum_cons]

theorem isSome_deleteMark (s : Store) (side : Side) (h : a.writeTxn key = true) :
    ∃ s', deleteMark s side key a = some s' := by
  unfold deleteMark
  rw [if_pos h]
  split_ifs
  · split
    · exact ⟨_, rfl⟩
    · exact ⟨_, rfl⟩
  · exact ⟨_, rfl⟩

theorem deleteMark_eq_none (s : Store) (side : Side) (key : Bytes) (a : JaegerAnswers) :
    deleteMark s side key a = none ↔ a.writeTxn key = false := by
  cases h : a.writeTxn key with
  | true =>
    obtain ⟨s', hs'⟩ := isSome_deleteMark s side h
    simp [hs']
  | false => simp [deleteMark, h]

/-- A visit adds its work to the count, and goes on unless it comes to the deletion. -/
theorem Visit.spec (h : Visit j side s time a entry st st' control) :
    st'.2.jaegeredCount = st.2.jaegeredCount + work j s side time entry ∧
      (¬ Deletes j s side time entry → control = .next ∧ work j s side time entry = 0) ∧
      (Deletes j s side time entry → control =
        if a.writeTxn entry.1 = false then .leave
        else if 0 < work j s side time entry ∧ jaegerMaxCount ≤ st'.2.jaegeredCount then .stop
        else .next) := by
  cases h with
  | skipped hlate =>
    have hwork : work j s side time entry = 0 := by
      unfold work
      cases hrecord : markedRecord s side entry.1 entry.2 with
      | none => rfl
      | some record =>
        dsimp only
        rw [if_neg (hlate record hrecord)]
    refine ⟨by rw [hwork]; rfl, fun _ => ⟨rfl, hwork⟩, ?_⟩
    rintro ⟨record, hrecord, hquiet, -⟩
    exact absurd hquiet (hlate record hrecord)
  | @unreadable record hrecord hquiet htext =>
    have hwork : work j s side time entry = 0 := by
      unfold work
      rw [hrecord]
      dsimp only
      rw [if_pos hquiet, htext]
      rfl
    refine ⟨by rw [hwork]; rfl, fun _ => ⟨rfl, hwork⟩, ?_⟩
    rintro ⟨record', hrecord', -, hsome⟩
    obtain rfl := Option.some.inj (hrecord.symm.trans hrecord')
    rw [htext] at hsome
    cases hsome
  | @unparsed record text hrecord hquiet htext hparse =>
    have hwork : work j s side time entry = 0 := by
      unfold work
      rw [hrecord]
      dsimp only
      rw [if_pos hquiet, htext, Option.bind_some, hparse]
    refine ⟨by rw [hwork]; rfl, fun hno => absurd ⟨record, hrecord, hquiet, by rw [htext]; rfl⟩ hno,
      fun _ => ?_⟩
    rw [hwork]
    simp [deleteMark_eq_none]
  | @document record text json handed hrecord hquiet htext hparse hhanded =>
    have hwork : work j s side time entry =
        (handed.map fun h => h.sending.count).getD 0 + 1 := by
      unfold work
      rw [hrecord]
      dsimp only
      rw [if_pos hquiet, htext, Option.bind_some, hparse]
      dsimp only
      rw [hhanded]
    refine ⟨by rw [hwork]; rfl, fun hno => absurd ⟨record, hrecord, hquiet, by rw [htext]; rfl⟩ hno,
      fun _ => ?_⟩
    rw [hwork]
    simp [deleteMark_eq_none]

/-- A visit in which LMDB succeeds leaves the loop only if the count is high. -/
theorem Visit.count (h : Visit j side s time a entry st st' control) (ha : a.Succeed) :
    st'.2.jaegeredCount = st.2.jaegeredCount + work j s side time entry ∧
      (control = .next ∨ (control = .stop ∧ 0 < work j s side time entry ∧
        jaegerMaxCount ≤ st'.2.jaegeredCount)) := by
  obtain ⟨hcount, hskips, hdeletes⟩ := h.spec
  refine ⟨hcount, ?_⟩
  by_cases hcomes : Deletes j s side time entry
  · rw [hdeletes hcomes, if_neg (by simp [ha.2.1])]
    split_ifs with hmax
    · exact .inr ⟨rfl, hmax⟩
    · exact .inl rfl
  · exact .inl (hskips hcomes).1

/-! ### The loop comes to a mark -/

/-- What is found unreadable or handed over stays in the report. -/
def JaegerReport.Grows (report report' : JaegerReport) : Prop :=
  report.accounted ⊆ report'.accounted

theorem Visit.grows (h : Visit j side s time a entry st st' control) :
    st.2.Grows st'.2 := by
  unfold JaegerReport.Grows JaegerReport.accounted
  intro key hkey
  cases h with
  | skipped _ => exact hkey
  | unreadable _ _ _ =>
    rw [← List.append_assoc]
    exact List.mem_append_left _ hkey
  | unparsed _ _ _ _ =>
    rw [← List.append_assoc]
    exact List.mem_append_left _ hkey
  | document _ _ _ _ _ =>
    rw [List.map_append]
    rcases List.mem_append.1 hkey with hkey | hkey
    · exact List.mem_append_left _ (List.mem_append_left _ hkey)
    · exact List.mem_append_right _ hkey

theorem visitMarks_grows (h : visitMarks j side s time a entries st = .ok (st', returns)) :
    st.2.Grows st'.2 := by
  induction entries generalizing st with
  | nil =>
    obtain ⟨rfl, rfl⟩ := Prod.mk.inj (Except.ok.inj h)
    exact fun _ hk => hk
  | cons entry entries ih =>
    obtain ⟨⟨mid, control⟩, hvisit, h⟩ := bind_eq_ok.1 h
    have hgrows := (visit_of_visitMark hvisit).grows
    cases control with
    | next => exact fun _ hk => ih h (hgrows hk)
    | stop =>
      obtain ⟨rfl, rfl⟩ := Prod.mk.inj (Except.ok.inj h)
      exact hgrows
    | leave =>
      obtain ⟨rfl, rfl⟩ := Prod.mk.inj (Except.ok.inj h)
      exact hgrows

/-- The loop comes to an entry if the entries before it count nothing or little. -/
theorem visitMarks_split {before after : List (Bytes × Stored)} (ha : a.Succeed)
    (hopen : st.1.Opened)
    (hreach : works j s side time before = 0 ∨
      st.2.jaegeredCount + works j s side time before < jaegerMaxCount)
    (h : visitMarks j side s time a (before ++ entry :: after) st = .ok (st', returns)) :
    ∃ st₁ st₂ control, st₁.1.Opened ∧ Visit j side s time a entry st₁ st₂ control ∧
      st₂.1.Opened ∧ MarksDeleted st₂.1 st'.1 ∧ st₂.2.Grows st'.2 := by
  induction before generalizing st with
  | nil =>
    obtain ⟨⟨mid, control⟩, hvisit, h⟩ := bind_eq_ok.1 h
    have hvisit := visit_of_visitMark hvisit
    have hmid := (hvisit.marksDeleted hopen).1.opened hopen
    refine ⟨st, mid, control, hopen, hvisit, hmid, ?_⟩
    cases control with
    | next => exact ⟨(visitMarks_deleted hmid h).1, visitMarks_grows h⟩
    | stop =>
      obtain ⟨rfl, rfl⟩ := Prod.mk.inj (Except.ok.inj h)
      exact ⟨.refl _, fun _ hk => hk⟩
    | leave =>
      obtain ⟨rfl, rfl⟩ := Prod.mk.inj (Except.ok.inj h)
      exact ⟨.refl _, fun _ hk => hk⟩
  | cons first before ih =>
    obtain ⟨⟨mid, control⟩, hvisit, h⟩ := bind_eq_ok.1 h
    have hvisit := visit_of_visitMark hvisit
    have hmid := (hvisit.marksDeleted hopen).1.opened hopen
    obtain ⟨hcount, hcontrol⟩ := hvisit.count ha
    rw [works_cons] at hreach
    rcases hcontrol with rfl | ⟨-, hpos, hmax⟩
    · refine ih hmid ?_ h
      omega
    · -- the count is not as high as that
      omega

/-- A mark that the loop comes to is accounted for, or deleted. -/
theorem visitMarks_offered {before after : List (Bytes × Stored)} {data : Stored} {r : StoredRoot}
    (ha : a.Succeed) (hs : s.Opened) (hopen : st.1.Opened)
    (hmark : ((s.side side).env.file .jaeger).lookup key = some data)
    (hroot : s.record side key = some (.root r)) (hquiet : r.lastModifiedMs ≤ time)
    (hreach : works j s side time before = 0 ∨
      st.2.jaegeredCount + works j s side time before < jaegerMaxCount)
    (h : visitMarks j side s time a (before ++ (key, data) :: after) st = .ok (st', returns)) :
    key ∈ st'.2.accounted ∨ ¬ st'.1.contents.marked side key := by
  obtain ⟨st₁, st₂, control, hopen₁, hvisit, hopen₂, hdeleted, hgrows⟩ :=
    visitMarks_split ha hopen hreach h
  have hrecord : markedRecord s side key data = some (.root r) := by
    rw [(hs side).marks key data hmark, markedRecord_trace hs]
    exact hroot
  cases hvisit with
  | skipped hlate => exact absurd hquiet (hlate _ hrecord)
  | unreadable _ _ _ =>
    exact .inl (hgrows (List.mem_append_right _ (List.mem_append_right _ List.mem_cons_self)))
  | unparsed _ _ _ _ =>
    exact .inl (hgrows (List.mem_append_right _ (List.mem_append_right _ List.mem_cons_self)))
  | document _ _ _ _ _ =>
    right
    intro hmarked
    obtain ⟨s', hs'⟩ := isSome_deleteMark st₁.1 side (ha.2.1 key)
    have hgone := (deleteMark_spec hopen₁ hs').2.2 (ha.2.2 key)
    have hstill := hdeleted.marked hmarked
    dsimp only at hstill
    rw [hs'] at hstill
    exact hgone hstill

/-! ### The two loops -/

/-- A loop in which LMDB succeeds does not leave the function, and counts no more than its marks. -/
theorem visitMarks_count (ha : a.Succeed)
    (h : visitMarks j side s time a entries st = .ok (st', returns)) :
    returns = false ∧ st'.2.jaegeredCount ≤ st.2.jaegeredCount + works j s side time entries := by
  induction entries generalizing st with
  | nil =>
    obtain ⟨rfl, rfl⟩ := Prod.mk.inj (Except.ok.inj h)
    exact ⟨rfl, Nat.le_add_right _ _⟩
  | cons entry entries ih =>
    obtain ⟨⟨mid, control⟩, hvisit, h⟩ := bind_eq_ok.1 h
    obtain ⟨hcount, hcontrol⟩ := (visit_of_visitMark hvisit).count ha
    rw [works_cons]
    rcases hcontrol with rfl | ⟨rfl, -, -⟩
    · obtain ⟨hreturns, hle⟩ := ih h
      exact ⟨hreturns, by omega⟩
    · obtain ⟨rfl, rfl⟩ := Prod.mk.inj (Except.ok.inj h)
      exact ⟨rfl, by omega⟩

/-- What is counted in one environment does not depend on the other one. -/
theorem work_congr (hside : s'.side side = s.side side)
    (hdbi : (s'.side side.other).dbi = (s.side side.other).dbi) :
    work j s' side time = work j s side time := by
  funext entry
  unfold work markedRecord
  rw [hside, hdbi]

/-- **One call.**  A mark that is offered to a call is handed over, found unreadable or deleted. -/
theorem processJaeger_offered {report : JaegerReport} {n : ℕ} (hopen : s.Opened)
    (h : tmTransactionStoreProcessJaeger j s now a = .ok (s', report, n))
    (hoffered : Offered j s now a side key) :
    key ∈ report.accounted ∨ ¬ s'.contents.marked side key := by
  obtain ⟨ha, ⟨r, hroot, hquiet⟩, before, data, after, hmarks, hreach⟩ := hoffered
  have hname : ∀ side, (s.side side).env.dbName (s.side side).jaegerDbi = some .jaeger := by
    intro side
    rw [(hopen side).jaegerDbi]
    exact (hopen side).dbName_jaeger
  have hmark : ((s.side side).env.file .jaeger).lookup key = some data := by
    refine (mem_cursor_iff (hname side)).1 ?_
    show (key, data) ∈ s.marks side
    rw [hmarks]
    exact List.mem_append_right _ List.mem_cons_self
  obtain ⟨st, returns, hcurrent, hlast⟩ := processJaeger_cases h
  have hopen₁ := visitSide_deleted (by exact hopen) hcurrent
  unfold visitSide at hcurrent
  rw [if_pos (ha.1 .current)] at hcurrent
  obtain ⟨rfl, hcount⟩ := visitMarks_count ha hcurrent
  obtain ⟨hfalse, -⟩ | ⟨-, returns', hlast⟩ := hlast
  · cases hfalse
  · obtain ⟨hdeleted, hother⟩ := hopen₁
    have hst := hdeleted.opened hopen
    have hdeleted' := visitSide_deleted (by exact hst) hlast
    unfold visitSide at hlast
    rw [if_pos (ha.1 .last)] at hlast
    cases side with
    | current =>
      have hgrows := visitMarks_grows hlast
      change s.marks .current = _ at hmarks
      unfold Store.marks at hmarks
      rw [hmarks] at hcurrent
      rcases visitMarks_offered ha hopen hopen hmark hroot hquiet (by simpa [worksBefore] using hreach)
        hcurrent with hkey | hkey
      · exact .inl (hgrows hkey)
      · exact .inr fun hmarked => hkey (hdeleted'.1.marked hmarked)
    | last =>
      have hsame : st.1.side .last = s.side .last := hother
      have hwork : work j st.1 .last (timeMs s.defaultLookbackSecs now) =
          work j s .last (timeMs s.defaultLookbackSecs now) :=
        work_congr hsame (hdeleted.dbi .current)
      unfold Store.marks at hmarks
      rw [hsame, hmarks] at hlast
      refine visitMarks_offered ha hst hst ?_ ?_ hquiet ?_ hlast
      · rw [hsame]
        exact hmark
      · rw [hdeleted.record_eq]
        exact hroot
      · have hbefore : worksBefore j s .last (timeMs s.defaultLookbackSecs now) =
          works j s .current (timeMs s.defaultLookbackSecs now) (s.marks .current) := rfl
        unfold Store.marks at hbefore
        unfold works at hreach hbefore hcount ⊢
        rw [hwork]
        dsimp only at hcount
        omega

/-! ### Runs -/

/-- A call of `tm_transaction_store_process_jaeger` since the environments were opened: the time up
to which a trace must have been quiet, the marks of the last environment that its loop came to with
LMDB succeeding, and the roots that had been put and the children that had been added, with their
times. -/
structure Pass where
  quietMs : ℕ
  comesTo : Bytes → Prop
  roots : List (Bytes × ℕ)
  children : List (Bytes × ℕ)

/-- The store, whether `transaction_clean` rotates next, the keys of the traces that have been
handed over or found unreadable, the last reading of the clock, the roots that have been put and the
children that have been added, with their times, and the passes since the environments were
opened. -/
structure Cleaning where
  store : Store
  processed : Bool
  accounted : List Bytes
  clock : ℕ
  roots : List (Bytes × ℕ)
  children : List (Bytes × ℕ)
  passes : List Pass

section Steps

variable (j : JaegerEnv) (compress : Bytes → Option Bytes)

/-- Whether `transaction_clean` makes the call next; the other operations come at any time. -/
def Cleaning.InTurn (c : Cleaning) : Call → Prop
  | .op (.deleteOldTransactions _ _ _) => c.processed = true
  | .processJaeger _ _ => c.processed = false
  | _ => True

instance (c : Cleaning) (call : Call) : Decidable (c.InTurn call) :=
  match call with
  | .op (.deleteOldTransactions _ _ _) => inferInstanceAs (Decidable (c.processed = true))
  | .op (.put _ _ _ _ _) | .op (.addChild _ _ _ _ _) | .op (.markTraceable _ _) =>
    inferInstanceAs (Decidable True)
  | .processJaeger _ _ => inferInstanceAs (Decidable (c.processed = false))

/-- The state after an operation; a rotation opens the environments. -/
def Cleaning.afterOp (c : Cleaning) (op : Op) : Cleaning :=
  let store := c.store.apply j.lib compress op
  match op with
  | .put id _ _ now ok =>
    { c with store, clock := now, roots := if ok then (id, now) :: c.roots else c.roots }
  | .addChild traceId _ _ now _ =>
    { c with store, clock := now, children := (traceId, now) :: c.children }
  | .markTraceable _ _ => { c with store }
  | .deleteOldTransactions now nowCurrent _ =>
    if c.store.Due now then { c with store, processed := false, clock := nowCurrent, passes := [] }
    else { c with store, processed := false, clock := now }

/-- The pass that a call of `tm_transaction_store_process_jaeger` makes. -/
def Cleaning.pass (c : Cleaning) (now : ℕ) (a : JaegerAnswers) : Pass where
  quietMs := timeMs c.store.defaultLookbackSecs now
  comesTo key := a.Succeed ∧ Reached j c.store .last (timeMs c.store.defaultLookbackSecs now) key
  roots := c.roots
  children := c.children

/-- The state after a call, if it is its turn and it returns. -/
def Cleaning.next (c : Cleaning) (call : Call) : Option Cleaning :=
  if c.InTurn call then
    match call with
    | .op op => some (c.afterOp j compress op)
    | .processJaeger now a =>
      match tmTransactionStoreProcessJaeger j c.store now a with
      | .ok (store, report, _) => some { c with
          store
          processed := true
          accounted := c.accounted ++ report.accounted
          clock := now
          passes := c.pass j now a :: c.passes }
      | .error _ => none
  else none

/-- One call of a run. -/
def cleaningStep (c : Cleaning) (call : Call) (c' : Cleaning) : Prop :=
  c.next j compress call = some c'

end Steps

/-- The store in a directory without files. -/
def Cleaning.fresh (nowCurrent nowLast : ℕ) (defaultLookbackSecs : Int32)
    (useBloomFilters : Bool) : Cleaning :=
  ⟨Store.fresh nowCurrent nowLast defaultLookbackSecs useBloomFilters, false, [], nowLast, [], [],
    []⟩

/-- The call discards no mark whose root record is in its environment, unless the trace is
accounted for. -/
def DiscardsAccounted (c : Cleaning) : Call → Prop
  | .op (.deleteOldTransactions now _ _) => c.store.Due now →
    ∀ key, c.store.contents.marked .last key → HoldsRoot c.store .last key → key ∈ c.accounted
  | _ => True

/-! ### In time -/

/-- The clock does not go back. -/
def Cleaning.Clocked (c : Cleaning) : Call → Prop
  | .op (.put _ _ _ now _) => c.clock ≤ now
  | .op (.addChild _ _ _ now _) => c.clock ≤ now
  | .op (.markTraceable _ _) => True
  | .op (.deleteOldTransactions now nowCurrent _) => c.clock ≤ now ∧ now ≤ nowCurrent
  | .processJaeger now _ => c.clock ≤ now

/-- The pass has come to a mark of the last environment whose trace was quiet: the lookback time
went back to the opening of the current environment, at which all roots of the last one had been
put, or at least to the time at which this root was put, and no child was added later. -/
def Pass.InTime (p : Pass) (openMs : ℕ) (key : Bytes) : Prop :=
  p.comesTo key ∧
    (openMs ≤ p.quietMs ∨ ∀ time, (key, time) ∈ p.roots → time ≤ p.quietMs) ∧
    ∀ time, (key, time) ∈ p.children → time ≤ p.quietMs

/-- A rotation comes after a pass in time for each mark of the last environment whose root record
is there. -/
def RotatesInTime (c : Cleaning) : Call → Prop
  | .op (.deleteOldTransactions now _ _) => c.store.Due now →
    ∀ key, c.store.contents.marked .last key → HoldsRoot c.store .last key →
      ∃ p ∈ c.passes, p.InTime c.store.current.openMs key
  | _ => True

/-- Before a rotation that is due, the lookback time goes back to the opening of the current
environment, if it and the time since the pass are ten minutes at most. -/
theorem openMs_le_timeMs {s : Store} {now passed : ℕ} (hdue : s.Due now)
    (hlookback : 0 ≤ s.defaultLookbackSecs.toInt)
    (hminutes : s.defaultLookbackSecs.toInt * 1000 + (now - passed) ≤ tenMinutesMs)
    (hpassed : passed < 2 ^ 64) :
    s.current.openMs ≤ timeMs s.defaultLookbackSecs passed := by
  obtain ⟨hlater, hage⟩ := hdue
  unfold timeMs
  rw [Int.emod_eq_of_lt (by omega) (by omega)]
  omega

/-- Every pass in time has accounted for its mark. -/
structure Passed (c : Cleaning) : Prop where
  opened : c.store.Opened
  past : ∀ key time, (key, time) ∈ c.roots → time ≤ c.clock
  current : ∀ key r, c.store.record .current key = some (.root r) →
    (key, r.lastModifiedMs) ∈ c.roots ∨ (key, r.lastModifiedMs) ∈ c.children
  last : ∀ key r, c.store.record .last key = some (.root r) →
    ((key, r.lastModifiedMs) ∈ c.roots ∧ r.lastModifiedMs ≤ c.store.current.openMs) ∨
      (key, r.lastModifiedMs) ∈ c.children
  passes : ∀ p ∈ c.passes, ∀ key, p.InTime c.store.current.openMs key →
    c.store.contents.marked .last key → HoldsRoot c.store .last key → key ∈ c.accounted

variable {c c' : Cleaning} {compress : Bytes → Option Bytes}

theorem Passed.put (h : Passed c) {id : Bytes} {entry : Entry} {ttl : Int32} {now : ℕ} {ok : Bool}
    (hnow : c.clock ≤ now) : Passed (c.afterOp j compress (.put id entry ttl now ok)) := by
  have hopenMs := @openMs_put c.store j.lib compress h.opened id entry ttl now ok
  have hmem : ∀ {p : Bytes × ℕ}, p ∈ c.roots →
      p ∈ (if ok then (id, now) :: c.roots else c.roots) := by
    intro p hp
    split_ifs
    · exact List.mem_cons_of_mem _ hp
    · exact hp
  refine ⟨(apply_spec j.lib compress h.opened _).1, fun key time htime => ?_, fun key r hr => ?_,
    fun key r hr => ?_, fun p hp key hin hmark hroot => ?_⟩
  · dsimp only [Cleaning.afterOp] at htime ⊢
    split_ifs at htime
    · rcases List.mem_cons.1 htime with heq | htime
      · obtain ⟨-, rfl⟩ := Prod.mk.inj heq
        exact le_rfl
      · exact (h.past key time htime).trans hnow
    · exact (h.past key time htime).trans hnow
  · rcases root_of_put h.opened hr with hr | ⟨rfl, -, rfl, rfl⟩
    · exact (h.current key r hr).imp_left hmem
    · exact .inl List.mem_cons_self
  · dsimp only [Cleaning.afterOp]
    rw [hopenMs]
    rcases root_of_put h.opened hr with hr | ⟨-, hside, -⟩
    · exact (h.last key r hr).imp_left fun hput => ⟨hmem hput.1, hput.2⟩
    · cases hside
  · obtain ⟨r, hr⟩ := hroot
    dsimp only [Cleaning.afterOp] at hin
    rw [hopenMs] at hin
    refine h.passes p hp key hin (marked_apply compress h.opened _ hmark) ?_
    rcases root_of_put h.opened hr with hr | ⟨-, hside, -⟩
    · exact ⟨r, hr⟩
    · cases hside

theorem Passed.addChild (h : Passed c) {traceId : Bytes} {child : Json} {ttl : Int32} {now : ℕ}
    {a : Answers} (hnow : c.clock ≤ now) :
    Passed (c.afterOp j compress (.addChild traceId child ttl now a)) := by
  have hopenMs := @openMs_addChild c.store j.lib compress h.opened traceId child ttl now a
  refine ⟨(apply_spec j.lib compress h.opened _).1,
    fun key time htime => (h.past key time htime).trans hnow, fun key r hr => ?_,
    fun key r hr => ?_, fun p hp key hin hmark hroot => ?_⟩
  · obtain ⟨r₀, hr₀, rfl | ⟨rfl, rfl⟩⟩ := root_of_addChild h.opened hr
    · exact (h.current key r hr₀).imp_right (List.mem_cons_of_mem _)
    · exact .inr List.mem_cons_self
  · dsimp only [Cleaning.afterOp]
    rw [hopenMs]
    obtain ⟨r₀, hr₀, rfl | ⟨rfl, rfl⟩⟩ := root_of_addChild h.opened hr
    · exact (h.last key r hr₀).imp_right (List.mem_cons_of_mem _)
    · exact .inr List.mem_cons_self
  · obtain ⟨r, hr⟩ := hroot
    obtain ⟨r₀, hr₀, -⟩ := root_of_addChild h.opened hr
    dsimp only [Cleaning.afterOp] at hin
    rw [hopenMs] at hin
    exact h.passes p hp key hin (marked_apply compress h.opened _ hmark) ⟨r₀, hr₀⟩

theorem Passed.markTraceable (h : Passed c) (traceId : Bytes) (ok : Bool) :
    Passed (c.afterOp j compress (.markTraceable traceId ok)) := by
  have hopenMs := @openMs_markTraceable c.store j.lib compress traceId ok
  have hrecord := @record_markTraceable c.store j.lib compress h.opened traceId ok
  refine ⟨(apply_spec j.lib compress h.opened _).1, h.past, fun key r hr => ?_, fun key r hr => ?_,
    fun p hp key hin hmark hroot => ?_⟩
  · exact h.current key r ((hrecord .current key).symm.trans hr)
  · dsimp only [Cleaning.afterOp]
    rw [hopenMs]
    exact h.last key r ((hrecord .last key).symm.trans hr)
  · obtain ⟨r, hr⟩ := hroot
    dsimp only [Cleaning.afterOp] at hin
    rw [hopenMs] at hin
    refine h.passes p hp key hin ?_ ⟨r, (hrecord .last key).symm.trans hr⟩
    rcases marked_apply compress h.opened _ hmark with ⟨hside, -⟩ | hmark
    · cases hside
    · exact hmark

/-- A rotation takes the roots that have been put to the last environment, and no pass has come to
their marks there. -/
theorem Passed.deleteOldTransactions (h : Passed c) {now nowCurrent nowLast : ℕ}
    (hnow : c.clock ≤ now ∧ now ≤ nowCurrent) :
    Passed (c.afterOp j compress (.deleteOldTransactions now nowCurrent nowLast)) := by
  have hopen := (apply_spec j.lib compress h.opened
    (.deleteOldTransactions now nowCurrent nowLast)).1
  dsimp only [Cleaning.afterOp]
  by_cases hdue : c.store.Due now
  · obtain ⟨hlast, hcurrent, -, hopenMs, -⟩ :=
      record_rotate j.lib compress h.opened hdue nowCurrent nowLast
    rw [if_pos hdue]
    refine ⟨hopen, fun key time htime => ?_, fun key r hr => ?_, fun key r hr => ?_,
      fun p hp => absurd hp List.not_mem_nil⟩
    · have := h.past key time htime
      dsimp only
      omega
    · rw [hcurrent] at hr
      split_ifs at hr
      cases hr
    · rw [hlast] at hr
      dsimp only
      rw [hopenMs]
      refine (h.current key r hr).imp_left fun hput => ⟨hput, ?_⟩
      have := h.past key _ hput
      omega
  · rw [if_neg hdue]
    rw [apply_of_not_due j.lib compress hdue]
    exact ⟨h.opened, fun key time htime => (h.past key time htime).trans hnow.1, h.current, h.last,
      h.passes⟩

/-- A pass accounts for the marks that it comes to in time. -/
theorem Passed.processJaeger (h : Passed c) {now n : ℕ} {a : JaegerAnswers} {s : Store}
    {report : JaegerReport} (hnow : c.clock ≤ now)
    (hok : tmTransactionStoreProcessJaeger j c.store now a = .ok (s, report, n)) :
    Passed { c with
      store := s
      processed := true
      accounted := c.accounted ++ report.accounted
      clock := now
      passes := c.pass j now a :: c.passes } := by
  obtain ⟨hdeleted, -⟩ := processJaeger_spec h.opened hok
  have hopenMs : s.current.openMs = c.store.current.openMs := hdeleted.openMs .current
  refine ⟨hdeleted.opened h.opened, fun key time htime => (h.past key time htime).trans hnow,
    fun key r hr => ?_, fun key r hr => ?_, fun p hp key hin hmark hroot => ?_⟩
  · exact h.current key r ((hdeleted.record_eq .current key).symm.trans hr)
  · dsimp only
    rw [hopenMs]
    exact h.last key r ((hdeleted.record_eq .last key).symm.trans hr)
  · obtain ⟨r, hr⟩ := hroot
    have hr : c.store.record .last key = some (.root r) :=
      (hdeleted.record_eq .last key).symm.trans hr
    dsimp only at hin
    rw [hopenMs] at hin
    rcases List.mem_cons.1 hp with rfl | hp
    · obtain ⟨⟨ha, hreached⟩, hroots, hchildren⟩ := hin
      -- the root has been put, or a child has been added, when the record says so
      have hquiet : r.lastModifiedMs ≤ timeMs c.store.defaultLookbackSecs now := by
        rcases h.last key r hr with ⟨hput, hbefore⟩ | hadded
        · rcases hroots with hopened | hroots
          · exact hbefore.trans hopened
          · exact hroots _ hput
        · exact hchildren _ hadded
      rcases processJaeger_offered h.opened hok ⟨ha, ⟨r, hr, hquiet⟩, hreached⟩ with hkey | hgone
      · exact List.mem_append_right _ hkey
      · exact absurd hmark hgone
    · exact List.mem_append_left _
        (h.passes p hp key hin (hdeleted.marked hmark) ⟨r, hr⟩)

/-- Every call whose readings of the clock do not go back keeps the invariant. -/
theorem Passed.step (h : Passed c) {call : Call} (hclock : c.Clocked call)
    (hstep : cleaningStep j compress c call c') : Passed c' := by
  unfold cleaningStep Cleaning.next at hstep
  split_ifs at hstep with hturn
  cases call with
  | op op =>
    obtain rfl := Option.some.inj hstep
    cases op with
    | put id entry ttl now ok => exact h.put hclock
    | addChild traceId child ttl now a => exact h.addChild hclock
    | markTraceable traceId ok => exact h.markTraceable traceId ok
    | deleteOldTransactions now nowCurrent nowLast => exact h.deleteOldTransactions hclock
  | processJaeger now a =>
    dsimp only at hstep
    split at hstep
    · next store report n hok =>
      obtain rfl := Option.some.inj hstep
      exact h.processJaeger hclock hok
    · cases hstep

theorem Passed.fresh (nowCurrent nowLast : ℕ) (defaultLookbackSecs : Int32)
    (useBloomFilters : Bool) :
    Passed (Cleaning.fresh nowCurrent nowLast defaultLookbackSecs useBloomFilters) := by
  have hnone : ∀ side key r, (Cleaning.fresh nowCurrent nowLast defaultLookbackSecs
      useBloomFilters).store.record side key ≠ some (.root r) := by
    intro side key r hr
    have hkind := congrFun (contents_fresh nowCurrent nowLast defaultLookbackSecs useBloomFilters
      side).1 key
    have hroot : (if key = openMsKey then some Kind.other else none) = some Kind.root :=
      hkind.symm.trans (congrArg (Option.map Stored.kind) hr)
    split_ifs at hroot
    cases hroot
  refine ⟨opened_fresh nowCurrent nowLast defaultLookbackSecs useBloomFilters,
    fun _ _ htime => absurd htime List.not_mem_nil, fun key r hr => absurd hr (hnone .current key r),
    fun key r hr => absurd hr (hnone .last key r), fun p hp => absurd hp List.not_mem_nil⟩

/-- **Pending traces.**  From a directory without files, if the clock does not go back and every
rotation comes after a pass in time for each mark that it discards with its root record, then it
discards only marks of traces that have been accounted for. -/
theorem rotations_in_time_account (j : JaegerEnv) (compress : Bytes → Option Bytes)
    (nowCurrent nowLast : ℕ) (defaultLookbackSecs : Int32) (useBloomFilters : Bool)
    {tr : List (Event Cleaning Call)} {c : Cleaning}
    (hrun : Run (cleaningStep j compress)
      (Cleaning.fresh nowCurrent nowLast defaultLookbackSecs useBloomFilters) tr c)
    (hintime : ∀ e ∈ tr, e.before.Clocked e.label ∧ RotatesInTime e.before e.label) :
    ∀ e ∈ tr, DiscardsAccounted e.before e.label := by
  have hinv := hrun.guarded Passed Cleaning.Clocked
    (.fresh nowCurrent nowLast defaultLookbackSecs useBloomFilters)
    (fun _ _ _ h hclock hstep => h.step hclock hstep) fun e he => (hintime e he).1
  intro e he
  have hbefore := (hinv.1 e he).1
  have hrotates := (hintime e he).2
  cases hlabel : e.label with
  | op op =>
    rw [hlabel] at hrotates
    cases op with
    | deleteOldTransactions now nowCurrent nowLast =>
      intro hdue key hmark hroot
      obtain ⟨p, hp, hin⟩ := hrotates hdue key hmark hroot
      exact hbefore.passes p hp key hin hmark hroot
    | _ => exact trivial
  | processJaeger now a => exact trivial

/-! ### A mark in two rotations -/

/-- A root is put and marked, a span is added, and `transaction_clean` rotates twice. -/
def twoRotations : List Call := [
  .op (.put (cstr "1f") ⟨10000000, .obj []⟩ 0 10000000 true),
  .op (.markTraceable (cstr "1f") true),
  .op (.addChild (cstr "1f") (.obj [(cstr "processor", .obj [(cstr "event", .str (cstr "span"))])])
    0 10001000 ⟨true, true, true, true, true, false, false, []⟩),
  .processJaeger 10700000 allReads,
  .op (.deleteOldTransactions 10700000 10700000 10700000),
  .processJaeger 11400000 allReads,
  .op (.deleteOldTransactions 11400000 11400000 11400000)]

/-- The states of the run, for a lookback time. -/
def twoRotationsRun (defaultLookbackSecs : Int32) (compress : Bytes → Option Bytes) :
    Option (List (Event Cleaning Call) × Cleaning) :=
  exec (fun c call => c.next oneDocument compress call)
    (Cleaning.fresh 10000000 10000000 defaultLookbackSecs false) twoRotations

/-- With a lookback time of an hour the second rotation discards the mark before the trace has been
accounted for. -/
theorem twoRotationsRun_hour : ∃ tr before after, twoRotationsRun 3600 (fun _ => none) =
      some (tr ++ [⟨before, .op (.deleteOldTransactions 11400000 11400000 11400000), after⟩], after) ∧
    before.store.Due 11400000 ∧ before.store.contents.marked .last (cstr "1f") ∧
    HoldsRoot before.store .last (cstr "1f") ∧ before.accounted = [] :=
  ⟨[_, _, _, _, _, _], _, _, rfl, by decide, by decide, ⟨_, rfl⟩, rfl⟩

/-- The marks that a call discards. -/
def Cleaning.discards (c : Cleaning) : Call → List Bytes
  | .op (.deleteOldTransactions now _ _) =>
    if c.store.Due now then (c.store.last.env.file .jaeger).keys else []
  | _ => []

theorem rotatesInTime_of_discards {call : Call}
    (h : ∀ key ∈ c.discards call, ∃ p ∈ c.passes, p.InTime c.store.current.openMs key) :
    RotatesInTime c call := by
  cases call with
  | op op =>
    cases op with
    | deleteOldTransactions now nowCurrent nowLast =>
      intro hdue key hmark _
      refine h key ?_
      dsimp only [Cleaning.discards]
      rw [if_pos hdue]
      exact AList.mem_keys.1 hmark
    | _ => exact trivial
  | processJaeger now a => exact trivial

instance (c : Cleaning) (call : Call) : Decidable (c.Clocked call) :=
  match call with
  | .op (.put _ _ _ now _) | .op (.addChild _ _ _ now _) | .processJaeger now _ =>
    inferInstanceAs (Decidable (c.clock ≤ now))
  | .op (.markTraceable _ _) => inferInstanceAs (Decidable True)
  | .op (.deleteOldTransactions now nowCurrent _) =>
    inferInstanceAs (Decidable (c.clock ≤ now ∧ now ≤ nowCurrent))

/-- With a lookback time of five minutes, and a root record that cannot be decompressed, the second
rotation comes after a pass that has come to the mark. -/
theorem twoRotationsRun_minutes : ∃ tr before after p, twoRotationsRun 300 (fun _ => some []) =
      some (tr ++ [⟨before, .op (.deleteOldTransactions 11400000 11400000 11400000), after⟩], after) ∧
    before.clock ≤ 11400000 ∧ before.store.Due 11400000 ∧
    (before.store.last.env.file .jaeger).keys = [cstr "1f"] ∧
    HoldsRoot before.store .last (cstr "1f") ∧ before.store.defaultLookbackSecs = 300 ∧
    before.passes = [p] ∧ p.quietMs = timeMs 300 11400000 ∧ p.comesTo (cstr "1f") ∧
    p.children = [(cstr "1f", 10001000)] :=
  ⟨[_, _, _, _, _, _], _, _, _, rfl, by decide, by decide, rfl, ⟨_, rfl⟩, rfl, rfl, rfl,
    ⟨by simp [JaegerAnswers.Succeed, allReads], [], _, [], rfl, .inl rfl⟩, rfl⟩

/-- The clock does not go back before it, and the first rotation discards nothing. -/
theorem twoRotationsRun_before : (twoRotationsRun 300 fun _ => some []).map (fun p =>
    p.1.dropLast.all fun e => e.before.Clocked e.label ∧ e.before.discards e.label = []) =
      some true := by
  decide

/-- The trace has been found unreadable when its mark is discarded. -/
theorem unreadable_mark_discarded : ∃ tr before after,
    twoRotationsRun 300 (fun _ => some []) = some (tr ++
      [⟨before, .op (.deleteOldTransactions 11400000 11400000 11400000), after⟩], after) ∧
    before.store.contents.marked .last (cstr "1f") ∧ cstr "1f" ∈ before.accounted := by
  obtain ⟨tr, before, after, p, hrun, hclock, hdue, hkeys, hroot, hlookback, hpasses, hquiet,
    hcomes, hchildren⟩ := twoRotationsRun_minutes
  have htr := twoRotationsRun_before
  rw [hrun, Option.map_some, List.dropLast_concat] at htr
  have hmark : before.store.contents.marked .last (cstr "1f") :=
    AList.mem_keys.2 (hkeys ▸ List.mem_singleton_self _)
  have hin : p.InTime before.store.current.openMs (cstr "1f") := by
    refine ⟨hcomes, .inl ?_, fun time htime => ?_⟩
    · rw [hquiet, ← hlookback]
      exact openMs_le_timeMs hdue (by rw [hlookback]; decide) (by rw [hlookback]; decide) (by decide)
    · rw [hchildren] at htime
      obtain rfl := (Prod.mk.inj (List.mem_singleton.1 htime)).2
      rw [hquiet]
      decide
  refine ⟨tr, before, after, hrun, hmark, ?_⟩
  refine rotations_in_time_account oneDocument (fun _ => some []) 10000000 10000000 300 false
    (.of_exec (fun _ _ _ h => h) hrun) (fun e he => ?_) _
    (List.mem_append_right _ (List.mem_singleton_self _)) hdue (cstr "1f") hmark hroot
  · rcases List.mem_append.1 he with he | he
    · obtain ⟨hclocked, hnone⟩ :=
        of_decide_eq_true (List.all_eq_true.1 (Option.some.inj htr) e he)
      exact ⟨hclocked, rotatesInTime_of_discards (by rw [hnone]; nofun)⟩
    · obtain rfl := List.mem_singleton.1 he
      refine ⟨⟨hclock, le_rfl⟩, rotatesInTime_of_discards fun key hkey => ?_⟩
      dsimp only [Cleaning.discards] at hkey
      rw [if_pos hdue, hkeys] at hkey
      obtain rfl := List.mem_singleton.1 hkey
      exact ⟨p, hpasses ▸ List.mem_singleton_self _, hin⟩

/-- With a lookback time of an hour the trace is still pending when its mark is discarded. -/
theorem pending_mark_discarded : ¬ ∀ (j : JaegerEnv) (compress : Bytes → Option Bytes)
    (nowCurrent nowLast : ℕ) (defaultLookbackSecs : Int32) (useBloomFilters : Bool)
    (tr : List (Event Cleaning Call)) (c : Cleaning),
    Run (cleaningStep j compress)
      (Cleaning.fresh nowCurrent nowLast defaultLookbackSecs useBloomFilters) tr c →
    (∀ e ∈ tr, e.label.Succeeds) →
    ∀ e ∈ tr, DiscardsAccounted e.before e.label := by
  intro hall
  obtain ⟨tr, before, after, hrun, hdue, hmark, hroot, haccounted⟩ :=
    twoRotationsRun_hour
  have hsucceeds : ∀ call ∈ twoRotations, call.Succeeds := by
    simp [twoRotations, Call.Succeeds, JaegerAnswers.Succeed, allReads]
  have hdiscards := hall oneDocument (fun _ => none) 10000000 10000000 3600 false _ _
    (.of_exec (fun _ _ _ h => h) hrun)
    (fun e he => hsucceeds _ (labels_of_exec hrun ▸ List.mem_map_of_mem he))
    _ (List.mem_append_right _ (List.mem_singleton_self _)) hdue (cstr "1f") hmark hroot
  rw [haccounted] at hdiscards
  simp at hdiscards

end Tracemate.TransactionStore
