import Tracemate.TransactionStore.Pending
import Tracemate.TransactionStore.Retention

/-!
# The cleaning job

`transaction_clean` of `main.c` calls `tm_transaction_store_process_jaeger` and
`tm_transaction_store_delete_old_transactions` in turn, until fewer than 500 transactions are
deleted; the threads that read Kafka use the store at the same time.

* `Other`, `Round`: what the other threads call, and what one pass of the loop finds outside;
* `cleanRound`, `transactionClean`, `cleanJobs`: one pass, the loop, and one job after another;
* `Patient`: no ten minutes pass between the passes of a job;
* `run_cleanRound`: a pass is a run of `cleaningStep`;
* `clean_jobs_end`: each job ends in its second pass at the latest, and all jobs are a run;
* `cleanRound_fullRound`, `cleanRound_nextRound`: a job that takes the second pass.
-/

namespace Tracemate.TransactionStore

open CStr JsonC Lmdb COutcome Outcome Runs

/-! ### The job -/

/-- A call of another thread. -/
inductive Other
  | put (id : Bytes) (entry : Entry) (ttl : Int32) (now : ℕ) (ok : Bool)
  | addChild (traceId : Bytes) (child : Json) (ttl : Int32) (now : ℕ) (a : Answers)
  | markTraceable (traceId : Bytes) (ok : Bool)

def Other.op : Other → Op
  | .put id entry ttl now ok => .put id entry ttl now ok
  | .addChild traceId child ttl now a => .addChild traceId child ttl now a
  | .markTraceable traceId ok => .markTraceable traceId ok

/-- What one pass of the loop finds outside: the calls of other threads before it and between its
two calls, the readings of the clock, and the answers of LMDB. -/
structure Round where
  before : List Other
  nowProcess : ℕ
  answers : JaegerAnswers
  between : List Other
  now : ℕ
  nowCurrent : ℕ
  nowLast : ℕ

section Job

variable (j : JaegerEnv) (compress : Bytes → Option Bytes)

/-- The store after calls of other threads. -/
def Store.applyOthers (s : Store) (others : List Other) : Store :=
  others.foldl (fun s other => s.apply j.lib compress other.op) s

/-- One pass of the loop, with the number of transactions that it deletes. -/
def cleanRound (s : Store) (r : Round) : Outcome (Store × ℕ) := do
  let (s, _, _) ← tmTransactionStoreProcessJaeger j (s.applyOthers j compress r.before) r.nowProcess
    r.answers
  return tmTransactionStoreDeleteOldTransactions (s.applyOthers j compress r.between) r.now
    r.nowCurrent r.nowLast

/-- The loop of `transaction_clean`: the store after it, and the rounds that are left; `none` if
there are not enough of them. -/
def transactionClean (s : Store) : List Round → Outcome (Option (Store × List Round))
  | [] => .ok none
  | r :: rounds => do
    let (s, loopCount) ← cleanRound j compress s r
    if loopCount < 500 then return some (s, rounds) else transactionClean s rounds

/-- One job after another, each with its rounds: the store after them, and the rounds that each of
them leaves. -/
def cleanJobs (s : Store) : List (List Round) → Outcome (Option (Store × List (List Round)))
  | [] => .ok (some (s, []))
  | rounds :: jobs => do
    match ← transactionClean j compress s rounds with
    | none => return none
    | some (s, rest) => do
      let result ← cleanJobs s jobs
      return result.map fun r => (r.1, rest :: r.2)

end Job

/-- There are two rounds at least, and no ten minutes pass between the time at which the first one
opens the environments and the second one. -/
def Patient : List Round → Prop
  | r :: r' :: _ => r'.now ≤ r.nowCurrent + tenMinutesMs
  | _ => False

variable {j : JaegerEnv} {compress : Bytes → Option Bytes} {s s' : Store} {c c' : Cleaning}

/-! ### Calls of other threads -/

theorem opened_applyOthers (hopen : s.Opened) (others : List Other) :
    (s.applyOthers j compress others).Opened := by
  unfold Store.applyOthers
  induction others generalizing s with
  | nil => exact hopen
  | cons other others ih => exact ih (apply_spec j.lib compress hopen other.op).1

/-- They do not open the environments. -/
theorem openMs_applyOthers (hopen : s.Opened) (others : List Other) :
    (s.applyOthers j compress others).current.openMs = s.current.openMs := by
  unfold Store.applyOthers
  induction others generalizing s with
  | nil => rfl
  | cons other others ih =>
    have hother : (s.apply j.lib compress other.op).current.openMs = s.current.openMs := by
      cases other with
      | put id entry ttl now ok => exact openMs_put hopen id entry ttl now ok
      | addChild traceId child ttl now a => exact openMs_addChild hopen traceId child ttl now a
      | markTraceable traceId ok => exact openMs_markTraceable traceId ok
    rw [List.foldl_cons, ih (apply_spec j.lib compress hopen other.op).1, hother]

/-- They come at any time. -/
theorem run_applyOthers (c : Cleaning) (others : List Other) :
    ∃ tr c', Run (cleaningStep j compress) c tr c' ∧
      c'.store = c.store.applyOthers j compress others ∧ c'.processed = c.processed := by
  unfold Store.applyOthers
  induction others generalizing c with
  | nil => exact ⟨[], c, .nil, rfl, rfl⟩
  | cons other others ih =>
    have hstep : cleaningStep j compress c (.op other.op) (c.afterOp j compress other.op) := by
      cases other <;> exact if_pos trivial
    have hafter : (c.afterOp j compress other.op).store = c.store.apply j.lib compress other.op ∧
        (c.afterOp j compress other.op).processed = c.processed := by
      cases other <;> exact ⟨rfl, rfl⟩
    obtain ⟨tr, c', hrun, hstore, hprocessed⟩ := ih (c.afterOp j compress other.op)
    rw [hafter.1] at hstore
    exact ⟨_, c', .cons hstep hrun, hstore, hprocessed.trans hafter.2⟩

/-! ### One pass -/

/-- One pass is a run in which both calls come in their turn. -/
theorem run_cleanRound (hturn : c.processed = false) {r : Round} {n : ℕ}
    (h : cleanRound j compress c.store r = .ok (s', n)) :
    ∃ tr c', Run (cleaningStep j compress) c tr c' ∧ c'.store = s' ∧ c'.processed = false := by
  obtain ⟨⟨s₁, report, count⟩, hprocess, h⟩ := bind_eq_ok.1 h
  obtain ⟨tr₁, c₁, hrun₁, hstore₁, hprocessed₁⟩ := @run_applyOthers j compress c r.before
  -- `tm_transaction_store_process_jaeger`
  obtain ⟨mid, hstep₁, hmid, hmidProcessed⟩ : ∃ mid, cleaningStep j compress c₁
      (.processJaeger r.nowProcess r.answers) mid ∧ mid.store = s₁ ∧ mid.processed = true := by
    have hinTurn : c₁.InTurn (.processJaeger r.nowProcess r.answers) := hprocessed₁.trans hturn
    unfold cleaningStep Cleaning.next
    rw [if_pos hinTurn]
    dsimp only
    rw [hstore₁, hprocess]
    exact ⟨_, rfl, rfl, rfl⟩
  obtain ⟨tr₂, c₂, hrun₂, hstore₂, hprocessed₂⟩ := @run_applyOthers j compress mid r.between
  -- `tm_transaction_store_delete_old_transactions`
  have hstep₂ : cleaningStep j compress c₂ (.op (.deleteOldTransactions r.now r.nowCurrent
      r.nowLast)) (c₂.afterOp j compress (.deleteOldTransactions r.now r.nowCurrent r.nowLast)) :=
    if_pos (hprocessed₂.trans hmidProcessed)
  have hafter : (c₂.afterOp j compress (.deleteOldTransactions r.now r.nowCurrent r.nowLast)).store =
      (tmTransactionStoreDeleteOldTransactions c₂.store r.now r.nowCurrent r.nowLast).1 ∧
      (c₂.afterOp j compress (.deleteOldTransactions r.now r.nowCurrent r.nowLast)).processed =
        false := by
    dsimp only [Cleaning.afterOp]
    split_ifs <;> exact ⟨rfl, rfl⟩
  refine ⟨_, _, ((hrun₁.snoc hstep₁).append hrun₂).snoc hstep₂, ?_, hafter.2⟩
  rw [hafter.1, hstore₂, hmid]
  exact congrArg Prod.fst (Except.ok.inj h)

/-- A pass that deletes something was due, and has opened the environments. -/
theorem openMs_cleanRound (hopen : s.Opened) {r : Round} {n : ℕ}
    (h : cleanRound j compress s r = .ok (s', n)) :
    s'.Opened ∧ (n = 0 ∨ s.Due r.now ∧ s'.current.openMs = r.nowCurrent) := by
  obtain ⟨⟨s₁, report, count⟩, hprocess, h⟩ := bind_eq_ok.1 h
  have hopen₁ := @opened_applyOthers j compress s hopen r.before
  obtain ⟨hdeleted, -⟩ := processJaeger_spec hopen₁ hprocess
  have hopen₂ := @opened_applyOthers j compress s₁ (hdeleted.opened hopen₁) r.between
  have hms : (s₁.applyOthers j compress r.between).current.openMs = s.current.openMs :=
    (openMs_applyOthers (hdeleted.opened hopen₁) r.between).trans
      ((hdeleted.openMs .current).trans (openMs_applyOthers hopen r.before))
  have hrotate : tmTransactionStoreDeleteOldTransactions (s₁.applyOthers j compress r.between) r.now
      r.nowCurrent r.nowLast = (s', n) := Except.ok.inj h
  have hs' : s' = (s₁.applyOthers j compress r.between).apply j.lib compress
      (.deleteOldTransactions r.now r.nowCurrent r.nowLast) := (congrArg Prod.fst hrotate).symm
  refine ⟨hs' ▸ (apply_spec j.lib compress hopen₂ _).1, ?_⟩
  unfold tmTransactionStoreDeleteOldTransactions at hrotate
  split_ifs at hrotate with hdue
  · refine .inr ⟨by rwa [hms] at hdue, ?_⟩
    exact (congrArg (fun result => result.1.current.openMs) hrotate).symm
  · exact .inl (congrArg Prod.snd hrotate).symm

/-! ### Jobs -/

/-- A job ends in its second pass at the latest, for a rotation is not due again so soon. -/
theorem run_transactionClean (hopen : c.store.Opened) (hturn : c.processed = false)
    {rounds : List Round} (hpatient : Patient rounds) {result : Option (Store × List Round)}
    (h : transactionClean j compress c.store rounds = .ok result) :
    ∃ tr c' rest, result = some (c'.store, rest) ∧
      (rest.length < rounds.length ∧ rounds.length ≤ rest.length + 2) ∧
      Run (cleaningStep j compress) c tr c' ∧ c'.store.Opened ∧ c'.processed = false := by
  obtain _ | ⟨r, _ | ⟨r', rounds⟩⟩ := rounds
  · exact hpatient.elim
  · exact hpatient.elim
  obtain ⟨⟨s₁, n₁⟩, hround₁, h⟩ := bind_eq_ok.1 h
  obtain ⟨hopen₁, hcount₁⟩ := openMs_cleanRound hopen hround₁
  obtain ⟨tr₁, c₁, hrun₁, rfl, hturn₁⟩ := run_cleanRound hturn hround₁
  dsimp only at h
  split_ifs at h with hfew
  · refine ⟨tr₁, c₁, _, (Except.ok.inj h).symm, ?_, hrun₁, hopen₁, hturn₁⟩
    simp only [List.length_cons]
    omega
  · obtain ⟨⟨s₂, n₂⟩, hround₂, h⟩ := bind_eq_ok.1 h
    obtain ⟨hopen₂, hcount₂⟩ := openMs_cleanRound hopen₁ hround₂
    obtain ⟨tr₂, c₂, hrun₂, rfl, hturn₂⟩ := run_cleanRound hturn₁ hround₂
    -- the environments have just been opened
    have hnone : n₂ = 0 := by
      rcases hcount₂ with hzero | ⟨hdue, -⟩
      · exact hzero
      · rcases hcount₁ with hzero | ⟨-, hms⟩
        · omega
        · unfold Store.Due at hdue
          unfold Patient at hpatient
          omega
    dsimp only at h
    rw [if_pos (by omega)] at h
    refine ⟨tr₁ ++ tr₂, c₂, _, (Except.ok.inj h).symm, ?_, hrun₁.append hrun₂, hopen₂, hturn₂⟩
    simp only [List.length_cons]
    omega

/-- **The cleaning job.**  However the other threads use the store in between, if no ten minutes
pass between the passes of a job then each of any number of jobs ends in its second pass at the
latest, unless `tm_transaction_store_process_jaeger` faults; together they are a run in which both
calls come in their turn. -/
theorem clean_jobs_end {jobs : List (List Round)} (hpatient : ∀ rounds ∈ jobs, Patient rounds)
    (hopen : c.store.Opened) (hturn : c.processed = false)
    {result : Option (Store × List (List Round))}
    (h : cleanJobs j compress c.store jobs = .ok result) :
    ∃ tr c' rests, result = some (c'.store, rests) ∧
      List.Forall₂ (fun rounds rest => rest.length < rounds.length ∧
        rounds.length ≤ rest.length + 2) jobs rests ∧
      Run (cleaningStep j compress) c tr c' ∧ c'.processed = false := by
  induction jobs generalizing c result with
  | nil => exact ⟨[], c, [], (Except.ok.inj h).symm, .nil, .nil, hturn⟩
  | cons rounds jobs ih =>
    obtain ⟨hfirst, hrest⟩ := List.forall_mem_cons.1 hpatient
    obtain ⟨job, hjob, h⟩ := bind_eq_ok.1 h
    obtain ⟨tr₁, c₁, rest, rfl, hlength, hrun₁, hopen₁, hturn₁⟩ :=
      run_transactionClean hopen hturn hfirst hjob
    obtain ⟨others, hothers, h⟩ := bind_eq_ok.1 h
    obtain ⟨tr₂, c₂, rests, rfl, hlengths, hrun₂, hturn₂⟩ := ih hrest hopen₁ hturn₁ hothers
    exact ⟨tr₁ ++ tr₂, c₂, rest :: rests, (Except.ok.inj h).symm, .cons hlength hlengths,
      hrun₁.append hrun₂, hturn₂⟩

/-! ### A job of two passes -/

/-- A call of another thread that puts a root. -/
def newRoot (id : Bytes) : Other := .put id ⟨10000000, .obj []⟩ 0 10000000 true

/-- New roots are counted, and nothing else changes that the job looks at. -/
theorem applyOthers_newRoot {ids : List Bytes} (hopen : s.Opened) (hvalid : ∀ id ∈ ids, ValidKey id)
    (hnodup : ids.Nodup) (hnew : ∀ id ∈ ids, id ∉ s.current.env.file .ts) :
    let s' := s.applyOthers j compress (ids.map newRoot)
    (s'.current.env.file .ts).keys.length = (s.current.env.file .ts).keys.length + ids.length ∧
      ∀ side, (s'.side side).env.file .jaeger = (s.side side).env.file .jaeger := by
  unfold Store.applyOthers
  induction ids generalizing s with
  | nil => exact ⟨rfl, fun _ => rfl⟩
  | cons id ids ih =>
    obtain ⟨hid, hvalid⟩ := List.forall_mem_cons.1 hvalid
    obtain ⟨hfresh, hnew⟩ := List.forall_mem_cons.1 hnew
    obtain ⟨hnotMem, hnodup⟩ := List.nodup_cons.1 hnodup
    have hput : s.apply j.lib compress (newRoot id).op = (s.write .current .ts id
        (.root (rootRecord j.lib compress s ⟨10000000, .obj []⟩ 0 10000000))).addBloom id := by
      show (tmTransactionStorePut j.lib compress s id ⟨10000000, .obj []⟩ 0 10000000 true).1 = _
      rw [put_eq j.lib compress hopen, if_pos ⟨rfl, hid⟩]
    have hts : (s.apply j.lib compress (newRoot id).op).current.env.file .ts =
        (s.current.env.file .ts).insert id
          (.root (rootRecord j.lib compress s ⟨10000000, .obj []⟩ 0 10000000)) := by
      rw [hput]
      show ((s.write .current .ts id _).side .current).env.file .ts = _
      rw [Store.write, side_commit_self]
      simp [StoreEnv.write]
      rfl
    have hjaeger : ∀ side, ((s.apply j.lib compress (newRoot id).op).side side).env.file .jaeger =
        (s.side side).env.file .jaeger := by
      intro side
      rw [hput]
      cases side with
      | current =>
        show ((s.write .current .ts id _).side .current).env.file .jaeger = _
        rw [Store.write, side_commit_self]
        simp [StoreEnv.write]
      | last => rfl
    have hrest := ih (apply_spec j.lib compress hopen (newRoot id).op).1 hvalid hnodup (by
      intro id' hid' hmem
      rw [hts, AList.mem_insert] at hmem
      rcases hmem with rfl | hmem
      · exact hnotMem hid'
      · exact hnew id' hid' hmem)
    dsimp only at hrest
    rw [List.map_cons, List.foldl_cons]
    refine ⟨?_, fun side => (hrest.2 side).trans (hjaeger side)⟩
    rw [hrest.1, hts, AList.keys, AList.entries_insert_of_notMem hfresh, List.keys_cons,
      List.length_cons, List.length_cons]
    show _ = (List.keys _).length + _
    omega

/-- Without marks there is nothing to hand over. -/
theorem processJaeger_of_no_marks (hopen : s.Opened)
    (h : ∀ side, (s.side side).env.file .jaeger = ∅) (now : ℕ) :
    tmTransactionStoreProcessJaeger j s now allReads = .ok (s, ⟨0, [], []⟩, 0) := by
  have hcursor : ∀ side, (s.side side).env.cursor (s.side side).jaegerDbi = [] := by
    intro side
    refine List.eq_nil_iff_forall_not_mem.2 fun entry hentry => ?_
    have hname : (s.side side).env.dbName (s.side side).jaegerDbi = some .jaeger := by
      rw [(hopen side).jaegerDbi]
      exact (hopen side).dbName_jaeger
    have hlookup := (mem_cursor_iff hname).1 (show (entry.1, entry.2) ∈ _ from hentry)
    rw [h side] at hlookup
    cases hlookup
  have hvisit : ∀ side st, visitSide j side s (timeMs s.defaultLookbackSecs now) allReads st =
      .ok (st, false) := by
    intro side st
    show visitMarks j side s _ allReads ((s.side side).env.cursor (s.side side).jaegerDbi) st = _
    rw [hcursor]
    rfl
  unfold tmTransactionStoreProcessJaeger
  dsimp only
  rw [hvisit]
  show (visitSide j .last s (timeMs s.defaultLookbackSecs now) allReads (s, ⟨0, [], []⟩) >>= _) = _
  rw [hvisit]
  rfl

/-- Without marks a pass rotates if it is time. -/
theorem cleanRound_of_no_marks {r : Round} (hopen : (s.applyOthers j compress r.before).Opened)
    (hmarks : ∀ side, ((s.applyOthers j compress r.before).side side).env.file .jaeger = ∅)
    (hanswers : r.answers = allReads) (hbetween : r.between = []) :
    cleanRound j compress s r = .ok (tmTransactionStoreDeleteOldTransactions
      (s.applyOthers j compress r.before) r.now r.nowCurrent r.nowLast) := by
  unfold cleanRound
  rw [hanswers, processJaeger_of_no_marks hopen hmarks, hbetween]
  rfl

/-- New roots are put before a job that rotates. -/
def fullRound (ids : List Bytes) : Round where
  before := ids.map newRoot
  nowProcess := 10700000
  answers := allReads
  between := []
  now := 10700000
  nowCurrent := 10700000
  nowLast := 10700000

/-- The next pass, three seconds later. -/
def nextRound : Round :=
  { fullRound [] with nowProcess := 10703000, now := 10703000 }

/-- The first pass counts the new roots and opens the environments. -/
theorem cleanRound_fullRound {ids : List Bytes} (hopen : s.Opened)
    (hms : s.current.openMs = 10000000) (hmarks : ∀ side, (s.side side).env.file .jaeger = ∅)
    (hvalid : ∀ id ∈ ids, ValidKey id) (hnodup : ids.Nodup)
    (hnew : ∀ id ∈ ids, id ∉ s.current.env.file .ts) :
    ∃ s' n, cleanRound j compress s (fullRound ids) = .ok (s', n) ∧ ids.length ≤ n ∧ s'.Opened ∧
      s'.current.openMs = 10700000 ∧ ∀ side, (s'.side side).env.file .jaeger = ∅ := by
  obtain ⟨hcount, hsame⟩ := @applyOthers_newRoot j compress s ids hopen hvalid hnodup hnew
  have hopen₁ := @opened_applyOthers j compress s hopen (ids.map newRoot)
  have hms₁ := (@openMs_applyOthers j compress s hopen (ids.map newRoot)).trans hms
  have hmarks₁ := fun side => (hsame side).trans (hmarks side)
  have hround : cleanRound j compress s (fullRound ids) = _ :=
    cleanRound_of_no_marks hopen₁ hmarks₁ rfl rfl
  have hrotate : tmTransactionStoreDeleteOldTransactions
      (s.applyOthers j compress (ids.map newRoot)) 10700000 10700000 10700000 = _ :=
    if_pos (by rw [hms₁]; decide)
  have hopen₂ := (apply_spec j.lib compress hopen₁
    (.deleteOldTransactions 10700000 10700000 10700000)).1
  dsimp only [Store.apply] at hopen₂
  rw [hrotate] at hopen₂
  refine ⟨_, _, hround.trans (congrArg Except.ok hrotate), ?_, hopen₂, rfl, fun side => ?_⟩
  · omega
  · cases side with
    | current => rfl
    | last => exact (congrFun ((hopen₁ .current).reopen _ _).2 .jaeger).trans (hmarks₁ .current)

/-- The next one finds them just opened. -/
theorem cleanRound_nextRound (hopen : s.Opened) (hms : s.current.openMs = 10700000)
    (hmarks : ∀ side, (s.side side).env.file .jaeger = ∅) :
    cleanRound j compress s nextRound = .ok (s, 0) :=
  (cleanRound_of_no_marks (r := nextRound) hopen hmarks rfl rfl).trans
    (congrArg Except.ok (if_neg fun hdue => absurd hdue.2 (by
      show ¬ 10703000 - s.current.openMs > tenMinutesMs
      rw [hms]
      decide)))

/-- The ids `1`, `11`, and so on. -/
def ones (n : ℕ) : List Bytes := (List.range n).map fun k => List.replicate (k + 1) '1'.toUInt8

theorem nodup_ones (n : ℕ) : (ones n).Nodup :=
  List.nodup_range.map fun k l h => by simpa using congrArg List.length h

/-- Five hundred roots are put before the first pass, and the second one is taken. -/
theorem clean_jobs_end_full : ∃ result tr c' rests,
    cleanJobs oneDocument (fun _ => none) (Cleaning.fresh 10000000 10000000 3600 false).store
        [[fullRound (ones 500), nextRound]] = .ok result ∧
    result = some (c'.store, rests) ∧ rests = [[]] ∧
    List.Forall₂ (fun rounds rest => rest.length < rounds.length ∧ rounds.length ≤ rest.length + 2)
      [[fullRound (ones 500), nextRound]] rests ∧
    Run (cleaningStep oneDocument fun _ => none) (Cleaning.fresh 10000000 10000000 3600 false) tr c' ∧
      c'.processed = false := by
  have hfresh := opened_fresh 10000000 10000000 3600 false
  have hvalid : ∀ id ∈ ones 500, ValidKey id := by
    intro id hid
    obtain ⟨k, hk, rfl⟩ := List.mem_map.1 hid
    have hk := List.mem_range.1 hk
    refine ⟨by simp, ?_⟩
    rw [List.length_replicate, maxKeySize]
    omega
  have hnew : ∀ id ∈ ones 500,
      id ∉ (Store.fresh 10000000 10000000 3600 false).current.env.file .ts := by
    intro id hid hmem
    obtain ⟨k, -, rfl⟩ := List.mem_map.1 hid
    have hsome := AList.lookup_isSome.2 hmem
    have hlookup := lookup_emptyFile 10000000 ∅ (List.replicate (k + 1) '1'.toUInt8)
    rw [if_neg fun heq => absurd (congrArg List.head? heq) (by
      rw [List.replicate_succ, List.head?_cons]; decide)] at hlookup
    exact absurd (hsome.symm.trans (congrArg Option.isSome hlookup)) (by decide)
  obtain ⟨s, n, hround, hmany, hopen, hms, hmarks⟩ := @cleanRound_fullRound oneDocument
    (fun _ => none) _ _ hfresh rfl (fun side => by cases side <;> rfl) hvalid (nodup_ones 500) hnew
  have hround' := @cleanRound_nextRound oneDocument (fun _ => none) s hopen hms hmarks
  rw [ones, List.length_map, List.length_range] at hmany
  have hjobs : cleanJobs oneDocument (fun _ => none) (Cleaning.fresh 10000000 10000000 3600
      false).store [[fullRound (ones 500), nextRound]] = .ok (some (s, [[]])) := by
    have hjob : transactionClean oneDocument (fun _ => none)
        (Store.fresh 10000000 10000000 3600 false) [fullRound (ones 500), nextRound] =
          .ok (some (s, [])) := by
      unfold transactionClean
      rw [hround]
      show (if n < 500 then _ else transactionClean oneDocument (fun _ => none) s [nextRound]) = _
      rw [if_neg (by omega)]
      unfold transactionClean
      rw [hround']
      rfl
    show (transactionClean oneDocument (fun _ => none) (Store.fresh 10000000 10000000 3600 false)
      [fullRound (ones 500), nextRound] >>= _) = _
    rw [hjob]
    rfl
  have hpatient : ∀ rounds ∈ [[fullRound (ones 500), nextRound]], Patient rounds :=
    List.forall_mem_singleton.2 (by unfold Patient; decide)
  obtain ⟨tr, c', rests, heq, hlengths, hrun, hturn⟩ :=
    clean_jobs_end (c := Cleaning.fresh 10000000 10000000 3600 false) hpatient hfresh rfl hjobs
  have hrests : rests = [[]] := (congrArg Prod.snd (Option.some.inj heq)).symm
  exact ⟨_, tr, c', rests, hjobs, heq, hrests, hlengths, hrun, hturn⟩

end Tracemate.TransactionStore
