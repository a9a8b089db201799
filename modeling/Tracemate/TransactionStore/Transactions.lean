import Tracemate.Lib.Transactions
import Tracemate.TransactionStore.Completeness

/-!
# The transactions of the store's functions

The functions of `tm_transaction_store.c` once more, with the return codes of single LMDB calls, and
what they do with the lock and with transactions.

* `ReadCodes`, `WriteCodes`: whether the calls of a transaction that reads, or writes, succeed;
* `putCalls`, `markTraceableCalls`, `addChildCalls`, `getCalls`, `processJaegerCalls`: the functions;
* `addChildCalls_result`, `processJaegerCalls_result` and the like: they return what the functions
  of the other modules return;
* `LeftOpen`: `goto add_child` is taken with a transaction that is then lost;
* `ComesTo`: the loops of `tm_transaction_store_process_jaeger` come to the deletion of a mark;
* `balanced_addChildCalls`, `balanced_processJaegerCalls`: when these two functions end every
  transaction once;
* `StoreCall.EndsWell`, `balanced_iff_endsWell`: the calls that end every transaction once.
-/

namespace Tracemate.TransactionStore

open CStr JsonC Lmdb Runs COutcome Outcome Transactions

/-! ### Return codes -/

/-- Whether the calls for a transaction that reads one record succeed: `mdb_txn_begin`,
`mdb_cursor_open`, and `mdb_cursor_get`, where `MDB_NOTFOUND` is no failure. -/
structure ReadCodes where
  begins : Bool
  opens : Bool
  gets : Bool

/-- Whether the calls for a transaction that writes one record succeed: `mdb_txn_begin`,
`mdb_cursor_open`, `mdb_cursor_put` and `mdb_txn_commit`. -/
structure WriteCodes where
  begins : Bool
  opens : Bool
  puts : Bool
  commits : Bool

def ReadCodes.succeed (a : ReadCodes) : Bool := a.begins && a.opens && a.gets

/-- The record is written; it is there after the commit. -/
def WriteCodes.written (a : WriteCodes) : Bool := a.begins && a.opens && a.puts

/-- The codes of a call of `tm_transaction_store_add_child`, what the filters say of keys that were
not added, and the bytes that follow `root_key`. -/
structure AddChildCodes where
  last : ReadCodes
  current : ReadCodes
  parent : WriteCodes
  child : WriteCodes
  inLastBloom : Bool
  inCurrentBloom : Bool
  stack : Bytes

/-- The codes of a call of `tm_transaction_store_get`. -/
structure GetCodes where
  last : ReadCodes
  current : ReadCodes
  inLastBloom : Bool
  inCurrentBloom : Bool

/-- The codes of a call of `tm_transaction_store_process_jaeger`: of the transactions that read, with
their three cursors, and of those that delete marks.  The cursor of
`_tm_transaction_store_get_children` is asserted to open. -/
structure JaegerCodes where
  begins : Side → Bool
  opens : Side → Bool
  opensParent : Side → Bool
  opensLastParent : Side → Bool
  writeTxn : Bytes → Bool
  deletes : Bytes → Bool

def AddChildCodes.answers (a : AddChildCodes) : Answers where
  readLast := a.last.succeed
  readCurrent := a.current.succeed
  putParent := a.parent.written
  commitParent := a.parent.commits
  putChild := a.child.written && a.child.commits
  inLastBloom := a.inLastBloom
  inCurrentBloom := a.inCurrentBloom
  stack := a.stack

def JaegerCodes.answers (a : JaegerCodes) : JaegerAnswers where
  read side := a.begins side && a.opens side && a.opensParent side && a.opensLastParent side
  writeTxn := a.writeTxn
  deletes := a.deletes

/-! ### One write -/

/-- A call that writes one record under this key. -/
def singleWrite (key : Bytes) (a : WriteCodes) : Bool × Calls :=
  let c := Calls.locked
  let (txn, c) := c.begins a.begins none
  if a.begins = false then (false, c.unlock)
  else if a.opens = false then (false, (c.ends txn).unlock)
  else if a.puts = false ∨ ¬ ValidKey key then (false, (c.ends txn).unlock)
  -- a commit that fails ends the transaction as well
  else (a.commits, (c.ends txn).unlock)

/-- `tm_transaction_store_put`. -/
def putCalls (id : Bytes) (a : WriteCodes) : Bool × Calls := singleWrite id a

/-- `tm_transaction_store_mark_traceable`. -/
def markTraceableCalls (traceId : Bytes) (a : WriteCodes) : Bool × Calls := singleWrite traceId a

/-! ### Adding a child -/

/-- Where the lookup of the parent record ends: with `return false`, or at the label `add_child`,
with `txn` and the parent as they are there. -/
inductive AfterLookup
  | returned (c : Calls)
  | addChild (txn : Option ℕ) (parent : Option (Side × Stored)) (c : Calls)

/-- The record that a cursor in a transaction finds; no cursor opens in a null transaction. -/
def Store.readIn (s : Store) (side : Side) (key : Bytes) (a : ReadCodes) (txn : Option ℕ) :
    Found Stored :=
  if txn.isSome = true ∧ a.opens = true ∧ a.gets = true then
    (s.side side).env.get (s.side side).dbi key
  else .error

/-- From the label `check_current` on. -/
def checkCurrent (s : Store) (traceId : Bytes) (a : AddChildCodes) (txn : Option ℕ) (c : Calls) :
    AfterLookup :=
  if s.useBloomFilters = true ∧
      bloomContains s.current.bloom traceId a.inCurrentBloom = false then
    -- the transaction is aborted behind this `goto` only
    .addChild txn none c
  else
    let c := c.ends txn
    let (txn, c) := c.begins a.current.begins none
    match s.readIn .current traceId a.current txn with
    | .error => .returned (c.ends txn).unlock
    | .notFound => .addChild none none (c.ends txn)
    | .found v => .addChild none (some (.current, v)) (c.ends txn)

/-- The lookup of the parent record. -/
def lookupCalls (s : Store) (traceId : Bytes) (a : AddChildCodes) : AfterLookup :=
  let c := Calls.locked
  if s.useBloomFilters = true ∧ bloomContains s.last.bloom traceId a.inLastBloom = false then
    checkCurrent s traceId a none c
  else
    let (txn, c) := c.begins a.last.begins none
    if a.last.begins = false then .returned c.unlock
    else match s.readIn .last traceId a.last txn with
      | .error => .returned (c.ends txn).unlock
      | .notFound => checkCurrent s traceId a txn c
      | .found v => .addChild none (some (.last, v)) (c.ends txn)

/-- A write whose `mdb_txn_begin` is not checked.  If it fails, `txn` points to what it pointed to
before, and a transaction that only reads refuses the write. -/
def writeCalls (key : Bytes) (a : WriteCodes) (txn : Option ℕ) (c : Calls) : Bool × Calls :=
  let (txn, c) := c.begins a.begins txn
  if txn.isSome = false ∨ a.opens = false then (false, c.ends txn)
  else if a.begins = false ∨ a.puts = false ∨ ¬ ValidKey key then (false, c.ends txn)
  else (true, c.ends txn)

/-- `tm_transaction_store_add_child`, for a child that is not null. -/
def addChildCalls (lib : Conversions) (s : Store) (traceId : Bytes) (child : Json)
    (a : AddChildCodes) : Bool × Calls :=
  match lookupCalls s traceId a with
  | .returned c => (false, c)
  | .addChild txn parent c =>
    let key := childKey lib traceId child a.stack
    match parent with
    | some _ =>
      let (ok, c) := writeCalls traceId a.parent txn c
      if ok = false then (false, c.unlock)
      else
        -- `txn` is null again
        let (ok, c) := writeCalls key a.child none c
        (ok && a.child.commits, c.unlock)
    | none =>
      let (ok, c) := writeCalls key a.child txn c
      (ok && a.child.commits, c.unlock)

/-! ### Looking a trace up -/

/-- The entry that is read from a record. -/
def gotEntry (j : JaegerEnv) (v : Stored) : Option GotEntry :=
  (j.text (j.asRoot v).compressed (j.asRoot v).data).map fun text =>
    ⟨(j.asRoot v).firstSeenMs, (j.asRoot v).lastModifiedMs, j.parse text⟩

/-- `tm_transaction_store_get`, from the label `check_current` on. -/
def getCurrent (j : JaegerEnv) (s : Store) (id : Bytes) (a : GetCodes) (c : Calls) :
    Outcome (Option GotEntry × Calls) :=
  if s.useBloomFilters = true ∧ bloomContains s.current.bloom id a.inCurrentBloom = false then
    .ok (none, c.unlock)
  else
    let (txn, c) := c.begins a.current.begins none
    -- both are asserted
    if a.current.begins = false ∨ a.current.opens = false then .error .crash
    else match s.readIn .current id a.current txn with
      | .found v => .ok (gotEntry j v, (c.ends txn).unlock)
      | _ => .ok (none, (c.ends txn).unlock)

/-- `tm_transaction_store_get`. -/
def getCalls (j : JaegerEnv) (s : Store) (id : Bytes) (a : GetCodes) :
    Outcome (Option GotEntry × Calls) :=
  let c := Calls.locked
  if s.useBloomFilters = true ∧ bloomContains s.last.bloom id a.inLastBloom = false then
    getCurrent j s id a c
  else
    let (txn, c) := c.begins a.last.begins none
    if a.last.begins = false ∨ a.last.opens = false then .error .crash
    else match s.readIn .last id a.last txn with
      | .found v => .ok (gotEntry j v, (c.ends txn).unlock)
      | _ => getCurrent j s id a (c.ends txn)

/-! ### Sending traces -/

section Process

variable (j : JaegerEnv) (side : Side) (s : Store) (time : ℕ) (a : JaegerCodes)

instance (entry : Bytes × Stored) : Decidable (Deletes j s side time entry) :=
  match h : markedRecord s side entry.1 entry.2 with
  | none => .isFalse fun hc => by
      obtain ⟨record, hrecord, -⟩ := hc
      rw [h] at hrecord
      cases hrecord
  | some record => decidable_of_iff ((j.asRoot record).lastModifiedMs ≤ time ∧
      (j.text (j.asRoot record).compressed (j.asRoot record).data).isSome = true) <| by
      unfold Deletes
      rw [h]
      simp

/-- The short transaction that deletes a mark. -/
def deleteCalls (key : Bytes) (c : Calls) : Calls :=
  let (writeTxn, c) := c.begins (a.writeTxn key) none
  if a.writeTxn key = false then c
  -- it is aborted, and then committed
  else if a.deletes key = false then (c.ends writeTxn).ends writeTxn
  else c.ends writeTxn

/-- The loop over the marks, and whether the function returns in it. -/
def visitMarksCalls : List (Bytes × Stored) → Store × JaegerReport → Calls →
    Outcome (((Store × JaegerReport) × Bool) × Calls)
  | [], st, c => .ok ((st, false), c)
  | entry :: entries, st, c => do
    let (st, control) ← visitMark j side s time a.answers entry st
    let c := if Deletes j s side time entry then deleteCalls a entry.1 c else c
    match control with
    | .next => visitMarksCalls entries st c
    | .stop => .ok ((st, false), c)
    | .leave => .ok ((st, true), c)

/-- The body of the loop over the two environments; the lock is released where the function
returns. -/
def visitSideCalls (st : Store × JaegerReport) (c : Calls) :
    Outcome (((Store × JaegerReport) × Bool) × Calls) := do
  let (txn, c) := c.begins (a.begins side) none
  if a.begins side = false then .ok ((st, true), c.unlock)
  else if (a.opens side && a.opensParent side && a.opensLastParent side) = false then
    .ok ((st, true), (c.ends txn).unlock)
  else do
    let ((st, returns), c) ←
      visitMarksCalls j side s time a ((s.side side).env.cursor (s.side side).jaegerDbi) st c
    -- the `return 0` in the loop leaves `txn` as it is
    if returns then .ok ((st, true), c.unlock) else .ok ((st, false), c.ends txn)

end Process

/-- `tm_transaction_store_process_jaeger`. -/
def processJaegerCalls (j : JaegerEnv) (s : Store) (now : ℕ) (a : JaegerCodes) :
    Outcome ((Store × JaegerReport × ℕ) × Calls) := do
  let time := timeMs s.defaultLookbackSecs now
  let ((st, returns), c) ← visitSideCalls j .current s time a (s, ⟨0, [], []⟩) Calls.locked
  if returns then .ok ((st.1, st.2, 0), c)
  else do
    let ((st, returns), c) ← visitSideCalls j .last st.1 time a st c
    if returns then .ok ((st.1, st.2, 0), c)
    else .ok ((st.1, st.2, st.2.jaegeredCount), c.unlock)

variable {j : JaegerEnv} {compress : Bytes → Option Bytes} {lib : Conversions} {s s' : Store}
  {side : Side} {id key traceId : Bytes} {child : Json} {c c' : Calls} {txn : Option ℕ}

/-! ### What the functions return -/

theorem singleWrite_result (key : Bytes) (a : WriteCodes) :
    (singleWrite key a).1 = true ↔ (a.written && a.commits) = true ∧ ValidKey key := by
  unfold singleWrite WriteCodes.written
  dsimp only
  by_cases hkey : ValidKey key
  · cases a.begins <;> cases a.opens <;> cases a.puts <;> simp [hkey]
  · cases a.begins <;> cases a.opens <;> simp [hkey]

theorem putCalls_result (hopen : s.Opened) (entry : Entry) (ttl : Int32) (now : ℕ)
    (a : WriteCodes) : (putCalls id a).1 =
      (tmTransactionStorePut lib compress s id entry ttl now (a.written && a.commits)).2 := by
  have hresult := singleWrite_result id a
  rw [put_eq lib compress hopen, Bool.eq_iff_iff]
  unfold putCalls
  rw [hresult]
  split_ifs with hput
  · simpa using hput
  · simpa using hput

/-- What the lookup finds. -/
def AfterLookup.found : AfterLookup → Found (Side × Stored)
  | .returned _ => .error
  | .addChild _ none _ => .notFound
  | .addChild _ (some p) _ => .found p

theorem readIn_begins (s : Store) (side : Side) (key : Bytes) (a : ReadCodes) (c : Calls) :
    s.readIn side key a (c.begins a.begins none).1 =
      if a.succeed = true then (s.side side).env.get (s.side side).dbi key else .error := by
  unfold Store.readIn Calls.begins ReadCodes.succeed
  cases a.begins <;> simp

theorem lookupIn_of_bloom {inBloom ok : Bool} (h : ¬ (s.useBloomFilters = true ∧
    bloomContains (s.side side).bloom id inBloom = false)) : s.lookupIn side id inBloom ok =
      if ok = true then
        match (s.side side).env.get (s.side side).dbi id with
        | .found v => .found (side, v)
        | .notFound => .notFound
        | .error => .error
      else .error :=
  if_neg h

theorem found_checkCurrent (s : Store) (traceId : Bytes) (a : AddChildCodes) (txn : Option ℕ)
    (c : Calls) : (checkCurrent s traceId a txn c).found =
      s.lookupIn .current traceId a.inCurrentBloom a.current.succeed := by
  unfold checkCurrent
  dsimp only
  by_cases hbloom : s.useBloomFilters = true ∧
      bloomContains s.current.bloom traceId a.inCurrentBloom = false
  · have hcurrent : s.lookupIn .current traceId a.inCurrentBloom a.current.succeed = .notFound :=
      if_pos hbloom
    rw [if_pos hbloom, hcurrent]
    rfl
  · rw [if_neg hbloom, lookupIn_of_bloom hbloom, readIn_begins]
    split_ifs with hsucceed
    · cases (s.side .current).env.get (s.side .current).dbi traceId <;> rfl
    · rfl

/-- The lookup of the parent finds what `parentLookup` finds. -/
theorem found_lookupCalls (s : Store) (traceId : Bytes) (a : AddChildCodes) :
    (lookupCalls s traceId a).found = parentLookup s traceId a.answers := by
  unfold lookupCalls parentLookup
  dsimp only
  by_cases hbloom : s.useBloomFilters = true ∧
      bloomContains s.last.bloom traceId a.inLastBloom = false
  · have hlast : s.lookupIn .last traceId a.answers.inLastBloom a.answers.readLast = .notFound :=
      if_pos hbloom
    rw [if_pos hbloom, hlast]
    exact found_checkCurrent s traceId a none _
  · rw [if_neg hbloom, lookupIn_of_bloom hbloom, readIn_begins]
    have hread : a.answers.readLast = a.last.succeed := rfl
    rw [hread]
    by_cases hbegins : a.last.begins = false
    · have hfails : ¬ a.last.succeed = true := by simp [ReadCodes.succeed, hbegins]
      rw [if_pos hbegins, if_neg hfails]
      rfl
    · rw [if_neg hbegins]
      split_ifs with hsucceed
      · cases (s.side .last).env.get (s.side .last).dbi traceId with
        | error => rfl
        | notFound => exact found_checkCurrent s traceId a _ _
        | found v => rfl
      · rfl

theorem writeCalls_result (key : Bytes) (a : WriteCodes) (txn : Option ℕ) (c : Calls) :
    (writeCalls key a txn c).1 = true ↔ a.written = true ∧ ValidKey key := by
  unfold writeCalls WriteCodes.written Calls.begins
  by_cases hkey : ValidKey key
  · cases a.begins <;> cases a.opens <;> cases a.puts <;> cases txn <;> simp [hkey]
  · cases a.begins <;> cases a.opens <;> cases txn <;> simp [hkey]

/-- `tm_transaction_store_add_child` returns what it returns with the answers that the codes
give. -/
theorem addChildCalls_result (hopen : s.Opened) (traceId : Bytes) (child : Json) (ttl : Int32)
    (now : ℕ) (a : AddChildCodes) : (addChildCalls lib s traceId child a).1 =
      (tmTransactionStoreAddChild lib compress s traceId child ttl now a.answers).2 := by
  have hfound := found_lookupCalls s traceId a
  have hwrite : ∀ side txn c s', s'.Opened →
      ((writeCalls (childKey lib traceId child a.stack) a.child txn c).1 && a.child.commits) =
        (writeChild lib compress s' side traceId child ttl now a.answers).2 := by
    intro side txn c s' hopen'
    have hresult := writeCalls_result (childKey lib traceId child a.stack) a.child txn c
    rw [writeChild_eq lib compress hopen', Bool.eq_iff_iff, Bool.and_eq_true, hresult]
    unfold AddChildCodes.answers
    split_ifs with hput
    · simpa [and_right_comm] using hput
    · simpa [and_right_comm] using hput
  unfold addChildCalls tmTransactionStoreAddChild
  rw [← hfound]
  cases hlookup : lookupCalls s traceId a with
  | returned c => rfl
  | addChild txn parent c =>
    cases parent with
    | none => exact hwrite .current txn c s hopen
    | some p =>
      obtain ⟨side, v⟩ := p
      have hparent := writeCalls_result traceId a.parent txn c
      have hopen' : ValidKey traceId → (s.touchParent side traceId v now a.answers).Opened :=
        fun hkey => opened_touchParent hopen hkey now a.answers
      dsimp only [AfterLookup.found]
      rw [put_ts (hopen side)]
      by_cases hkey : ValidKey traceId
      · rw [if_pos hkey]
        by_cases hwritten : a.parent.written = true
        · rw [if_neg (by simp [hparent.2 ⟨hwritten, hkey⟩])]
          have hputs : a.answers.putParent = true := hwritten
          rw [if_pos hputs]
          exact hwrite side none _ _ (hopen' hkey)
        · have hfails : (writeCalls traceId a.parent txn c).1 = false :=
            Bool.eq_false_iff.2 fun h => hwritten (hparent.1 h).1
          have hputs : ¬ a.answers.putParent = true := hwritten
          rw [if_pos hfails, if_neg hputs]
      · have hfails : (writeCalls traceId a.parent txn c).1 = false :=
          Bool.eq_false_iff.2 fun h => hkey (hparent.1 h).2
        rw [if_neg hkey, if_pos hfails]
        split_ifs <;> rfl

theorem readIn_asserted (s : Store) (side : Side) (key : Bytes) {a : ReadCodes} (c : Calls)
    (hbegins : ¬ (a.begins = false ∨ a.opens = false)) (hgets : a.gets = true) :
    s.readIn side key a (c.begins a.begins none).1 = (s.side side).env.get (s.side side).dbi key := by
  rw [readIn_begins, if_pos]
  unfold ReadCodes.succeed
  rw [not_or, Bool.not_eq_false, Bool.not_eq_false] at hbegins
  rw [hbegins.1, hbegins.2, hgets]
  rfl

theorem getCurrent_result {a : GetCodes} {r : Option GotEntry} (hgets : a.current.gets = true)
    (h : getCurrent j s id a c = .ok (r, c')) :
    r = (s.findIn .current id a.inCurrentBloom).bind (gotEntry j) := by
  unfold getCurrent at h
  dsimp only at h
  unfold Store.findIn
  split_ifs at h with hbloom hasserted
  · obtain ⟨rfl, -⟩ := Prod.mk.inj (Except.ok.inj h)
    have hskip : s.useBloomFilters = true ∧
        bloomContains (s.side .current).bloom id a.inCurrentBloom = false := hbloom
    rw [if_pos hskip]
    rfl
  · have hskip : ¬ (s.useBloomFilters = true ∧
        bloomContains (s.side .current).bloom id a.inCurrentBloom = false) := hbloom
    rw [if_neg hskip]
    rw [readIn_asserted s .current id c hasserted hgets] at h
    cases hget : (s.side .current).env.get (s.side .current).dbi id with
    | error =>
      rw [hget] at h
      exact (Prod.mk.inj (Except.ok.inj h)).1.symm
    | notFound =>
      rw [hget] at h
      exact (Prod.mk.inj (Except.ok.inj h)).1.symm
    | found v =>
      rw [hget] at h
      exact (Prod.mk.inj (Except.ok.inj h)).1.symm

/-- `tm_transaction_store_get` returns what it finds, if no lookup fails. -/
theorem getCalls_result {a : GetCodes} {r : Option GotEntry} (hlast : a.last.gets = true)
    (hcurrent : a.current.gets = true) (h : getCalls j s id a = .ok (r, c)) :
    r = tmTransactionStoreGet j s id a.inLastBloom a.inCurrentBloom := by
  have hget : tmTransactionStoreGet j s id a.inLastBloom a.inCurrentBloom =
      ((s.findIn .last id a.inLastBloom).or
        (s.findIn .current id a.inCurrentBloom)).bind (gotEntry j) := by
    unfold tmTransactionStoreGet gotEntry
    cases s.findIn .last id a.inLastBloom with
    | none =>
      cases s.findIn .current id a.inCurrentBloom with
      | none => rfl
      | some v =>
        dsimp only [Option.none_or, Option.bind_some]
        cases j.text (j.asRoot v).compressed (j.asRoot v).data <;> rfl
    | some v =>
      dsimp only [Option.some_or, Option.bind_some]
      cases j.text (j.asRoot v).compressed (j.asRoot v).data <;> rfl
  rw [hget]
  unfold getCalls at h
  dsimp only at h
  split_ifs at h with hbloom hasserted
  · have hnone : s.findIn .last id a.inLastBloom = none := if_pos hbloom
    rw [hnone, Option.none_or]
    exact getCurrent_result hcurrent h
  · have hfind : s.findIn .last id a.inLastBloom =
        match (s.side .last).env.get (s.side .last).dbi id with
        | .found v => some v
        | _ => none := if_neg hbloom
    rw [hfind]
    rw [readIn_asserted s .last id _ hasserted hlast] at h
    cases hread : (s.side .last).env.get (s.side .last).dbi id with
    | error =>
      rw [hread] at h
      exact getCurrent_result hcurrent h
    | notFound =>
      rw [hread] at h
      exact getCurrent_result hcurrent h
    | found v =>
      rw [hread] at h
      exact (Prod.mk.inj (Except.ok.inj h)).1.symm

section ProcessResult

variable {time now : ℕ} {a : JaegerCodes} {st : Store × JaegerReport}

theorem visitMarksCalls_result (entries : List (Bytes × Stored)) (st : Store × JaegerReport)
    (c : Calls) : (visitMarksCalls j side s time a entries st c).map Prod.fst =
      visitMarks j side s time a.answers entries st := by
  induction entries generalizing st c with
  | nil => rfl
  | cons entry entries ih =>
    unfold visitMarksCalls visitMarks
    cases visitMark j side s time a.answers entry st with
    | error fault => rfl
    | ok r =>
      obtain ⟨st', control⟩ := r
      cases control with
      | next => exact ih st' _
      | stop => rfl
      | leave => rfl

theorem visitSideCalls_result (st : Store × JaegerReport) (c : Calls) :
    (visitSideCalls j side s time a st c).map Prod.fst =
      visitSide j side s time a.answers st := by
  have hread : a.answers.read side = (a.begins side &&
      (a.opens side && a.opensParent side && a.opensLastParent side)) := by
    simp [JaegerCodes.answers, Bool.and_assoc]
  unfold visitSideCalls visitSide
  dsimp only
  rw [hread]
  by_cases hbegins : a.begins side = false
  · rw [if_pos hbegins, hbegins, if_neg (by simp)]
    rfl
  · rw [if_neg hbegins]
    rw [Bool.not_eq_false] at hbegins
    rw [hbegins, Bool.true_and]
    by_cases hopens : (a.opens side && a.opensParent side && a.opensLastParent side) = false
    · rw [if_pos hopens, hopens, if_neg (by simp)]
      rfl
    · rw [if_neg hopens]
      rw [Bool.not_eq_false] at hopens
      rw [if_pos hopens, ← visitMarksCalls_result _ st (c.begins true none).2]
      cases visitMarksCalls j side s time a ((s.side side).env.cursor (s.side side).jaegerDbi) st
        (c.begins true none).2 with
      | error fault => rfl
      | ok r =>
        obtain ⟨⟨st', returns⟩, c'⟩ := r
        cases returns <;> rfl

/-- `tm_transaction_store_process_jaeger` does what it does with the answers that the codes give. -/
theorem processJaegerCalls_result (j : JaegerEnv) (s : Store) (now : ℕ) (a : JaegerCodes) :
    (processJaegerCalls j s now a).map Prod.fst =
      tmTransactionStoreProcessJaeger j s now a.answers := by
  have hcurrent := @visitSideCalls_result j s .current (timeMs s.defaultLookbackSecs now) a
    (s, ⟨0, [], []⟩) Calls.locked
  unfold processJaegerCalls tmTransactionStoreProcessJaeger
  dsimp only
  rw [← hcurrent]
  cases visitSideCalls j .current s (timeMs s.defaultLookbackSecs now) a (s, ⟨0, [], []⟩)
    Calls.locked with
  | error fault => rfl
  | ok r =>
    obtain ⟨⟨st, returns⟩, c⟩ := r
    cases returns with
    | true => rfl
    | false =>
      have hlast := @visitSideCalls_result j st.1 .last (timeMs s.defaultLookbackSecs now) a st c
      show Except.map Prod.fst (visitSideCalls j .last st.1 _ a st c >>= _) =
        (visitSide j .last st.1 _ a.answers st >>= _)
      rw [← hlast]
      cases visitSideCalls j .last st.1 (timeMs s.defaultLookbackSecs now) a st c with
      | error fault => rfl
      | ok r =>
        obtain ⟨⟨st', returns⟩, c'⟩ := r
        cases returns <;> rfl

end ProcessResult

/-! ### One transaction at a time -/

theorem owes_singleWrite (key : Bytes) (a : WriteCodes) : (singleWrite key a).2.Owes false ∅ := by
  have hbegin := Calls.owes_locked.begins_null a.begins
  unfold singleWrite
  dsimp only
  split_ifs with hbegins
  · rw [hbegins] at hbegin ⊢
    exact hbegin.unlock
  · exact hbegin.ends_txn.unlock
  · exact hbegin.ends_txn.unlock
  · exact hbegin.ends_txn.unlock

theorem owes_getCurrent {a : GetCodes} {r : Option GotEntry} (hc : c.Owes true ∅)
    (h : getCurrent j s id a c = .ok (r, c')) : c'.Owes false ∅ := by
  have hbegin := hc.begins_null a.current.begins
  unfold getCurrent at h
  dsimp only at h
  split_ifs at h with hbloom hasserted
  · obtain ⟨-, rfl⟩ := Prod.mk.inj (Except.ok.inj h)
    exact hc.unlock
  · split at h
    · obtain ⟨-, rfl⟩ := Prod.mk.inj (Except.ok.inj h)
      exact hbegin.ends_txn.unlock
    · obtain ⟨-, rfl⟩ := Prod.mk.inj (Except.ok.inj h)
      exact hbegin.ends_txn.unlock

theorem owes_getCalls {a : GetCodes} {r : Option GotEntry}
    (h : getCalls j s id a = .ok (r, c)) : c.Owes false ∅ := by
  have hbegin := Calls.owes_locked.begins_null a.last.begins
  unfold getCalls at h
  dsimp only at h
  split_ifs at h with hbloom hasserted
  · exact owes_getCurrent Calls.owes_locked h
  · split at h
    · obtain ⟨-, rfl⟩ := Prod.mk.inj (Except.ok.inj h)
      exact hbegin.ends_txn.unlock
    · exact owes_getCurrent hbegin.ends_txn h

/-! ### Adding a child -/

/-- `goto add_child` is taken with an open transaction of the last environment: its filter says that
it has the trace, the lookup finds nothing, and the current filter says that there is none. -/
def LeftOpen (s : Store) (traceId : Bytes) (a : AddChildCodes) : Prop :=
  s.useBloomFilters = true ∧ bloomContains s.last.bloom traceId a.inLastBloom = true ∧
    a.last.succeed = true ∧ (s.side .last).env.get (s.side .last).dbi traceId = .notFound ∧
    bloomContains s.current.bloom traceId a.inCurrentBloom = false

/-- Where the lookup ends, the transaction in `txn` is the only open one, and there is none if the
parent has been found. -/
def AfterLookup.Owes : AfterLookup → Prop
  | .returned c => c.Owes false ∅
  | .addChild txn parent c => c.Owes true txn.toFinset ∧ (parent.isSome = true → txn = none)

/-- The label `add_child` is reached with an open transaction. -/
def AfterLookup.leftOpen : AfterLookup → Bool
  | .returned _ => false
  | .addChild txn _ _ => txn.isSome

theorem owes_checkCurrent (hc : c.Owes true txn.toFinset) (s : Store) (traceId : Bytes)
    (a : AddChildCodes) : (checkCurrent s traceId a txn c).Owes := by
  have hbegin := hc.ends_txn.begins_null a.current.begins
  unfold checkCurrent
  dsimp only
  split_ifs
  · exact ⟨hc, nofun⟩
  · split
    · exact hbegin.ends_txn.unlock
    · exact ⟨hbegin.ends_txn, fun _ => rfl⟩
    · exact ⟨hbegin.ends_txn, fun _ => rfl⟩

theorem owes_lookupCalls (s : Store) (traceId : Bytes) (a : AddChildCodes) :
    (lookupCalls s traceId a).Owes := by
  have hbegin := Calls.owes_locked.begins_null a.last.begins
  unfold lookupCalls
  dsimp only
  split_ifs with hbloom hbegins
  · have hnull : Calls.locked.Owes true (none : Option ℕ).toFinset := Calls.owes_locked
    exact owes_checkCurrent hnull s traceId a
  · rw [hbegins] at hbegin ⊢
    exact hbegin.unlock
  · split
    · exact hbegin.ends_txn.unlock
    · exact owes_checkCurrent hbegin s traceId a
    · exact ⟨hbegin.ends_txn, fun _ => rfl⟩

theorem leftOpen_checkCurrent (s : Store) (traceId : Bytes) (a : AddChildCodes) (txn : Option ℕ)
    (c : Calls) : (checkCurrent s traceId a txn c).leftOpen = true ↔
      txn.isSome = true ∧ s.useBloomFilters = true ∧
        bloomContains s.current.bloom traceId a.inCurrentBloom = false := by
  unfold checkCurrent
  dsimp only
  split_ifs with hbloom
  · simp [AfterLookup.leftOpen, hbloom]
  · split <;> simp [AfterLookup.leftOpen, hbloom]

theorem leftOpen_lookupCalls (s : Store) (traceId : Bytes) (a : AddChildCodes) :
    (lookupCalls s traceId a).leftOpen = true ↔ LeftOpen s traceId a := by
  unfold lookupCalls LeftOpen
  dsimp only
  split_ifs with hbloom hbegins
  · rw [leftOpen_checkCurrent]
    simp [hbloom.2]
  · simp [AfterLookup.leftOpen, ReadCodes.succeed, hbegins]
  · rw [readIn_begins]
    have htxn : (Calls.locked.begins a.last.begins none).1.isSome = true := by
      rw [Bool.not_eq_false] at hbegins
      rw [hbegins]
      rfl
    by_cases hsucceed : a.last.succeed = true
    · rw [if_pos hsucceed]
      cases hget : (s.side .last).env.get (s.side .last).dbi traceId with
      | error => simp [AfterLookup.leftOpen]
      | found v => simp [AfterLookup.leftOpen]
      | notFound =>
        dsimp only
        rw [leftOpen_checkCurrent, htxn]
        constructor
        · rintro ⟨-, huse, hcurrent⟩
          exact ⟨huse, by simpa [huse] using hbloom, hsucceed, rfl, hcurrent⟩
        · rintro ⟨huse, -, -, -, hcurrent⟩
          exact ⟨rfl, huse, hcurrent⟩
    · rw [if_neg hsucceed]
      simp [AfterLookup.leftOpen, hsucceed]

/-- A write whose transaction is begun leaves open what `txn` pointed to before. -/
theorem owes_writeCalls (hc : c.Owes true txn.toFinset) (key : Bytes) (a : WriteCodes) :
    (writeCalls key a txn c).2.Owes true (if a.begins = true then txn.toFinset else ∅) := by
  unfold writeCalls
  cases a.begins with
  | false =>
    have hbegin : c.begins false txn = (txn, c) := rfl
    rw [hbegin, if_neg (by decide)]
    dsimp only
    split_ifs
    · exact hc.ends_txn
    · exact hc.ends_txn
    · exact hc.ends_txn
  | true =>
    have hbegin : c.begins true txn = (some c.begun, (c.begins true txn).2) := rfl
    rw [hbegin, if_pos rfl]
    dsimp only
    split_ifs
    · exact hc.begins_ends txn
    · exact hc.begins_ends txn
    · exact hc.begins_ends txn

theorem owes_writeCalls_null (hc : c.Owes true ∅) (key : Bytes) (a : WriteCodes) :
    (writeCalls key a none c).2.Owes true ∅ := by
  have hnull : c.Owes true (none : Option ℕ).toFinset := hc
  have hwrite := owes_writeCalls hnull key a
  split_ifs at hwrite
  · exact hwrite
  · exact hwrite

/-- A child is added without a transaction left open, unless the label `add_child` is reached with
one and the transaction of the child is begun. -/
theorem balanced_addChildCalls (lib : Conversions) (s : Store) (traceId : Bytes) (child : Json)
    (a : AddChildCodes) : Balanced (addChildCalls lib s traceId child a).2.steps ↔
      ¬ (LeftOpen s traceId a ∧ a.child.begins = true) := by
  have howes := owes_lookupCalls s traceId a
  rw [← leftOpen_lookupCalls]
  unfold addChildCalls
  cases hlookup : lookupCalls s traceId a with
  | returned c =>
    rw [hlookup] at howes
    have hbalanced := (Calls.Owes.balanced_iff howes).2 rfl
    simpa [AfterLookup.leftOpen] using hbalanced
  | addChild txn parent c =>
    rw [hlookup] at howes
    obtain ⟨hc, hnull⟩ := howes
    cases parent with
    | none =>
      have hwrite := owes_writeCalls hc (childKey lib traceId child a.stack) a.child
      have hiff := hwrite.unlock.balanced_iff
      dsimp only [AfterLookup.leftOpen]
      rw [hiff]
      cases a.child.begins <;> cases txn <;> simp
    | some p =>
      obtain rfl := hnull rfl
      have hparent := owes_writeCalls_null hc traceId a.parent
      have hchild := owes_writeCalls_null hparent (childKey lib traceId child a.stack) a.child
      have hnot : ¬ ((AfterLookup.addChild none (some p) c).leftOpen = true ∧
          a.child.begins = true) := fun h => by cases h.1
      refine iff_of_true ?_ hnot
      dsimp only
      split_ifs
      · exact hparent.unlock.balanced_iff.2 rfl
      · exact hchild.unlock.balanced_iff.2 rfl

/-! ### The marks that are deleted -/

section Process

variable {time now : ℕ} {a : JaegerCodes} {st st' : Store × JaegerReport} {returns : Bool}
  {entries : List (Bytes × Stored)} {r : ℕ}

/-- Of these marks, all that the loop comes to are deleted, if `count` has been counted before. -/
def DeletesAll (j : JaegerEnv) (side : Side) (s : Store) (time : ℕ) (a : JaegerCodes)
    (entries : List (Bytes × Stored)) (count : ℕ) : Prop :=
  ∀ before entry after, entries = before ++ entry :: after →
    (works j s side time before = 0 ∨ count + works j s side time before < jaegerMaxCount) →
      Deletes j s side time entry → a.writeTxn entry.1 = true ∧ a.deletes entry.1 = true

theorem deletesAll_cons {entry : Bytes × Stored} {count : ℕ} :
    DeletesAll j side s time a (entry :: entries) count ↔
      (Deletes j s side time entry → a.writeTxn entry.1 = true ∧ a.deletes entry.1 = true) ∧
      (0 < work j s side time entry → count + work j s side time entry < jaegerMaxCount →
        DeletesAll j side s time a entries (count + work j s side time entry)) ∧
      (work j s side time entry = 0 → DeletesAll j side s time a entries count) := by
  have hworks : ∀ before, works j s side time (entry :: before) =
      work j s side time entry + works j s side time before := works_cons entry
  constructor
  · intro h
    refine ⟨fun hdeletes => h [] entry entries rfl (.inl rfl) hdeletes,
      fun hpos hlt before entry' after heq hreach => ?_, fun hzero before entry' after heq hreach => ?_⟩
    · refine h (entry :: before) entry' after (by rw [heq]; rfl) (.inr ?_)
      rw [hworks]
      omega
    · refine h (entry :: before) entry' after (by rw [heq]; rfl) ?_
      rw [hworks, hzero, zero_add]
      exact hreach
  · rintro ⟨hfirst, hpos, hzero⟩ before entry' after heq hreach
    cases before with
    | nil =>
      obtain ⟨rfl, -⟩ := List.cons.inj heq
      exact hfirst
    | cons first before =>
      obtain ⟨rfl, hrest⟩ := List.cons.inj heq
      rw [hworks] at hreach
      rcases Nat.eq_zero_or_pos (work j s side time entry) with hw | hw
      · rw [hw, zero_add] at hreach
        exact hzero hw before entry' after hrest hreach
      · exact hpos hw (by omega) before entry' after hrest (.inr (by omega))

/-- The transaction of one deletion, between the others. -/
theorem owes_deleteCalls (hc : c.Owes true {r}) (key : Bytes) (a : JaegerCodes) :
    (a.writeTxn key = false ∨ a.deletes key = true → (deleteCalls a key c).Owes true {r}) ∧
      (a.writeTxn key = true → a.deletes key = false → (deleteCalls a key c).Doubled) := by
  have hbegin : c.begins true none = (some c.begun, (c.begins true none).2) := rfl
  have hend := hc.begins_ends none
  unfold deleteCalls
  cases a.writeTxn key with
  | false => exact ⟨fun _ => hc, nofun⟩
  | true =>
    rw [hbegin]
    cases a.deletes key with
    | false =>
      refine ⟨by simp, fun _ _ => hend.doubled (Nat.lt_succ_self c.begun) ?_⟩
      exact fun hmem => lt_irrefl _ (hc.opened_lt _ hmem)
    | true => exact ⟨fun _ => hend, nofun⟩

/-- The steps of the loop come after those before it. -/
theorem prefix_visitMarksCalls
    (h : visitMarksCalls j side s time a entries st c = .ok ((st', returns), c')) :
    c.steps <+: c'.steps := by
  have hdelete : ∀ (key : Bytes) (c : Calls), c.steps <+: (deleteCalls a key c).steps := by
    intro key c
    unfold deleteCalls Calls.begins Calls.ends
    cases a.writeTxn key with
    | false => exact List.prefix_refl _
    | true => cases a.deletes key <;> simp [List.append_assoc]
  induction entries generalizing st c with
  | nil =>
    obtain ⟨-, rfl⟩ := Prod.mk.inj (Except.ok.inj h)
    exact List.prefix_refl _
  | cons entry entries ih =>
    obtain ⟨⟨mid, control⟩, -, h⟩ := bind_eq_ok.1 h
    have hfirst : c.steps <+: (if Deletes j s side time entry then deleteCalls a entry.1 c
        else c).steps := by
      split_ifs
      · exact hdelete entry.1 c
      · exact List.prefix_refl _
    cases control with
    | next => exact hfirst.trans (ih h)
    | stop =>
      obtain ⟨-, rfl⟩ := Prod.mk.inj (Except.ok.inj h)
      exact hfirst
    | leave =>
      obtain ⟨-, rfl⟩ := Prod.mk.inj (Except.ok.inj h)
      exact hfirst

/-- The loop over the marks: it deletes all marks that it comes to, or it returns with the read
transaction open, or a transaction has been ended twice. -/
theorem owes_visitMarksCalls (hc : c.Owes true {r})
    (h : visitMarksCalls j side s time a entries st c = .ok ((st', returns), c')) :
    (DeletesAll j side s time a entries st.2.jaegeredCount ∧ returns = false ∧ c'.Owes true {r}) ∨
      (¬ DeletesAll j side s time a entries st.2.jaegeredCount ∧
        ((returns = true ∧ c'.Owes true {r}) ∨ c'.Doubled)) := by
  induction entries generalizing st c with
  | nil =>
    obtain ⟨hst, rfl⟩ := Prod.mk.inj (Except.ok.inj h)
    obtain ⟨-, rfl⟩ := Prod.mk.inj hst
    refine .inl ⟨fun before entry after heq => ?_, rfl, hc⟩
    simp at heq
  | cons entry entries ih =>
    obtain ⟨⟨mid, control⟩, hvisit, h⟩ := bind_eq_ok.1 h
    obtain ⟨hcount, hskips, hdeletes⟩ := (visit_of_visitMark hvisit).spec
    rw [deletesAll_cons, ← hcount]
    dsimp only at h
    by_cases hcomes : Deletes j s side time entry
    · rw [if_pos hcomes] at h
      have hcontrol := hdeletes hcomes
      obtain ⟨howes, hdoubled⟩ := owes_deleteCalls hc entry.1 a
      have htxn : a.answers.writeTxn entry.1 = a.writeTxn entry.1 := rfl
      rw [htxn] at hcontrol
      by_cases hwrite : a.writeTxn entry.1 = false
      · -- the transaction is not begun, and the function returns
        rw [if_pos hwrite] at hcontrol
        subst hcontrol
        obtain ⟨hst, rfl⟩ := Prod.mk.inj (Except.ok.inj h)
        obtain ⟨-, rfl⟩ := Prod.mk.inj hst
        refine .inr ⟨fun hall => ?_, .inl ⟨rfl, howes (.inl hwrite)⟩⟩
        rw [(hall.1 hcomes).1] at hwrite
        cases hwrite
      · rw [if_neg hwrite] at hcontrol
        rw [Bool.not_eq_false] at hwrite
        by_cases hfails : a.deletes entry.1 = false
        · -- the transaction is ended twice, whatever follows
          have hdouble := hdoubled hwrite hfails
          refine .inr ⟨fun hall => ?_, .inr (hdouble.mono ?_)⟩
          · rw [(hall.1 hcomes).2] at hfails
            cases hfails
          · split_ifs at hcontrol with hmax
            · subst hcontrol
              obtain ⟨-, rfl⟩ := Prod.mk.inj (Except.ok.inj h)
              exact List.prefix_refl _
            · subst hcontrol
              exact prefix_visitMarksCalls h
        · rw [Bool.not_eq_false] at hfails
          have hmid := howes (.inr hfails)
          split_ifs at hcontrol with hmax
          · subst hcontrol
            obtain ⟨hst, rfl⟩ := Prod.mk.inj (Except.ok.inj h)
            obtain ⟨-, rfl⟩ := Prod.mk.inj hst
            refine .inl ⟨⟨fun _ => ⟨hwrite, hfails⟩, fun _ hlt => ?_, fun hzero => ?_⟩, rfl, hmid⟩
            · omega
            · omega
          · subst hcontrol
            have hiff : (DeletesAll j side s time a entries mid.2.jaegeredCount ↔
                (Deletes j s side time entry →
                  a.writeTxn entry.1 = true ∧ a.deletes entry.1 = true) ∧
                (0 < work j s side time entry → mid.2.jaegeredCount < jaegerMaxCount →
                  DeletesAll j side s time a entries mid.2.jaegeredCount) ∧
                (work j s side time entry = 0 →
                  DeletesAll j side s time a entries st.2.jaegeredCount)) := by
              rcases Nat.eq_zero_or_pos (work j s side time entry) with hzero | hpos
              · have hsame : mid.2.jaegeredCount = st.2.jaegeredCount := by omega
                simp [hwrite, hfails, hzero, hsame]
              · have hlt : mid.2.jaegeredCount < jaegerMaxCount := by omega
                simp [hwrite, hfails, hpos, hpos.ne', hlt]
            rw [← hiff]
            exact ih hmid h
    · rw [if_neg hcomes] at h
      obtain ⟨rfl, hwork⟩ := hskips hcomes
      rw [hwork, add_zero] at hcount
      have hrest := ih hc h
      rw [hcount] at hrest ⊢
      simpa [hcomes, hwork] using hrest

/-- The body of the loop over the environments. -/
theorem owes_visitSideCalls (hc : c.Owes true ∅)
    (h : visitSideCalls j side s time a st c = .ok ((st', returns), c')) :
    (a.answers.read side = false ∧ returns = true ∧ c'.Owes false ∅) ∨
      (a.answers.read side = true ∧
        DeletesAll j side s time a (s.marks side) st.2.jaegeredCount ∧ returns = false ∧
          c'.Owes true ∅) ∨
      (a.answers.read side = true ∧
        ¬ DeletesAll j side s time a (s.marks side) st.2.jaegeredCount ∧
          ((returns = true ∧ c'.Owes false {c.begun}) ∨ c'.Doubled)) := by
  have hread : a.answers.read side = (a.begins side &&
      (a.opens side && a.opensParent side && a.opensLastParent side)) := by
    simp [JaegerCodes.answers, Bool.and_assoc]
  have hbegin := hc.begins_null (a.begins side)
  unfold visitSideCalls at h
  dsimp only at h
  rw [hread]
  by_cases hbegins : a.begins side = false
  · rw [if_pos hbegins] at h
    obtain ⟨hst, rfl⟩ := Prod.mk.inj (Except.ok.inj h)
    obtain ⟨-, rfl⟩ := Prod.mk.inj hst
    rw [hbegins] at hbegin ⊢
    exact .inl ⟨rfl, rfl, hbegin.unlock⟩
  · rw [if_neg hbegins] at h
    rw [Bool.not_eq_false] at hbegins
    rw [hbegins] at hbegin h ⊢
    by_cases hopens : (a.opens side && a.opensParent side && a.opensLastParent side) = false
    · rw [if_pos hopens] at h
      obtain ⟨hst, rfl⟩ := Prod.mk.inj (Except.ok.inj h)
      obtain ⟨-, rfl⟩ := Prod.mk.inj hst
      exact .inl ⟨by rw [hopens]; rfl, rfl, hbegin.ends_txn.unlock⟩
    · rw [if_neg hopens] at h
      rw [Bool.not_eq_false] at hopens
      rw [hopens]
      obtain ⟨⟨⟨mid, returns'⟩, c₁⟩, hmarks, h⟩ := bind_eq_ok.1 h
      have hone : (c.begins true none).2.Owes true {c.begun} := hbegin
      dsimp only at h
      refine .inr ?_
      rcases owes_visitMarksCalls hone hmarks with ⟨hall, rfl, hc₁⟩ | ⟨hnot, hends⟩
      · rw [if_neg (by decide)] at h
        obtain ⟨hst, rfl⟩ := Prod.mk.inj (Except.ok.inj h)
        obtain ⟨-, rfl⟩ := Prod.mk.inj hst
        have hopened : c₁.Owes true (some c.begun).toFinset := hc₁
        exact .inl ⟨rfl, hall, rfl, hopened.ends_txn⟩
      · refine .inr ⟨rfl, hnot, ?_⟩
        rcases hends with ⟨rfl, hc₁⟩ | hdouble
        · rw [if_pos rfl] at h
          obtain ⟨hst, rfl⟩ := Prod.mk.inj (Except.ok.inj h)
          obtain ⟨-, rfl⟩ := Prod.mk.inj hst
          exact .inl ⟨rfl, hc₁.unlock⟩
        · refine .inr (hdouble.mono ?_)
          split_ifs at h
          · obtain ⟨-, rfl⟩ := Prod.mk.inj (Except.ok.inj h)
            exact List.prefix_append _ _
          · obtain ⟨-, rfl⟩ := Prod.mk.inj (Except.ok.inj h)
            exact List.prefix_append _ _

/-- What a loop that does not return has counted: all of its marks, or enough to stop. -/
theorem count_visitMarks {b : JaegerAnswers}
    (h : visitMarks j side s time b entries st = .ok (st', false)) :
    st'.2.jaegeredCount = st.2.jaegeredCount + works j s side time entries ∨
      (jaegerMaxCount ≤ st'.2.jaegeredCount ∧
        st'.2.jaegeredCount ≤ st.2.jaegeredCount + works j s side time entries) := by
  induction entries generalizing st with
  | nil =>
    obtain ⟨rfl, -⟩ := Prod.mk.inj (Except.ok.inj h)
    exact .inl rfl
  | cons entry entries ih =>
    obtain ⟨⟨mid, control⟩, hvisit, h⟩ := bind_eq_ok.1 h
    obtain ⟨hcount, hskips, hdeletes⟩ := (visit_of_visitMark hvisit).spec
    rw [works_cons]
    cases control with
    | next =>
      have hrest := ih h
      omega
    | stop =>
      obtain ⟨rfl, -⟩ := Prod.mk.inj (Except.ok.inj h)
      have hcomes : Deletes j s side time entry := by
        by_contra hno
        cases (hskips hno).1
      have hstop := hdeletes hcomes
      split_ifs at hstop with hwrite hmax
      omega
    | leave => cases (Prod.mk.inj (Except.ok.inj h)).2

/-- The loops come to the deletion of a mark. -/
def ComesTo (j : JaegerEnv) (s : Store) (now : ℕ) (a : JaegerCodes) (side : Side)
    (entry : Bytes × Stored) : Prop :=
  a.answers.read .current = true ∧ a.answers.read side = true ∧
    Deletes j s side (timeMs s.defaultLookbackSecs now) entry ∧
    ∃ before after, s.marks side = before ++ entry :: after ∧
      (works j s side (timeMs s.defaultLookbackSecs now) before = 0 ∨
        worksBefore j s side (timeMs s.defaultLookbackSecs now) +
          works j s side (timeMs s.defaultLookbackSecs now) before < jaegerMaxCount)

theorem deletesAll_worksBefore (hcurrent : a.answers.read .current = true)
    (hside : a.answers.read side = true) :
    DeletesAll j side s (timeMs s.defaultLookbackSecs now) a (s.marks side)
        (worksBefore j s side (timeMs s.defaultLookbackSecs now)) ↔
      ∀ entry, ComesTo j s now a side entry →
        a.writeTxn entry.1 = true ∧ a.deletes entry.1 = true := by
  constructor
  · rintro hall entry ⟨-, -, hdeletes, before, after, hmarks, hreach⟩
    exact hall before entry after hmarks hreach hdeletes
  · intro hall before entry after hmarks hreach hdeletes
    exact hall entry ⟨hcurrent, hside, hdeletes, before, after, hmarks, hreach⟩

/-- Above the maximum it does not matter what has been counted. -/
theorem deletesAll_count {count count' : ℕ}
    (h : count = count' ∨ (jaegerMaxCount ≤ count ∧ jaegerMaxCount ≤ count')) :
    DeletesAll j side s time a entries count ↔ DeletesAll j side s time a entries count' := by
  unfold DeletesAll
  refine forall_congr' fun before => forall_congr' fun entry => forall_congr' fun after =>
    imp_congr_right fun _ => imp_congr_left ?_
  omega

/-- The marks of an environment are deleted in the same way as long as the other one keeps its
handles. -/
theorem deletesAll_side {s' : Store} (hside : s'.side side = s.side side)
    (hdbi : (s'.side side.other).dbi = (s.side side.other).dbi) {count : ℕ} :
    DeletesAll j side s' time a (s'.marks side) count ↔
      DeletesAll j side s time a (s.marks side) count := by
  have hmarks : s'.marks side = s.marks side := by
    unfold Store.marks
    rw [hside]
  have hworks : works j s' side time = works j s side time := by
    unfold works
    rw [work_congr hside hdbi]
  have hdeletes : Deletes j s' side time = Deletes j s side time := by
    funext entry
    unfold Deletes markedRecord
    rw [hside, hdbi]
  unfold DeletesAll
  rw [hmarks, hworks, hdeletes]

/-- The steps of one environment come after those before it. -/
theorem prefix_visitSideCalls
    (h : visitSideCalls j side s time a st c = .ok ((st', returns), c')) :
    c.steps <+: c'.steps := by
  have hbegin : c.steps <+: (c.begins (a.begins side) none).2.steps := by
    unfold Calls.begins
    cases a.begins side with
    | false => exact List.prefix_refl _
    | true => exact List.prefix_append _ _
  unfold visitSideCalls at h
  dsimp only at h
  split_ifs at h
  · obtain ⟨-, rfl⟩ := Prod.mk.inj (Except.ok.inj h)
    exact hbegin.trans (List.prefix_append _ _)
  · obtain ⟨-, rfl⟩ := Prod.mk.inj (Except.ok.inj h)
    exact hbegin.trans ((List.prefix_append _ _).trans (List.prefix_append _ _))
  · obtain ⟨⟨⟨mid, returns'⟩, c₁⟩, hmarks, h⟩ := bind_eq_ok.1 h
    have hmarks := hbegin.trans (prefix_visitMarksCalls hmarks)
    dsimp only at h
    split_ifs at h
    · obtain ⟨-, rfl⟩ := Prod.mk.inj (Except.ok.inj h)
      exact hmarks.trans (List.prefix_append _ _)
    · obtain ⟨-, rfl⟩ := Prod.mk.inj (Except.ok.inj h)
      exact hmarks.trans (List.prefix_append _ _)

/-- The deletion of a mark changes the file of its environment at most. -/
theorem deleteMark_frame {b : JaegerAnswers} (s : Store) (side : Side) (key : Bytes) :
    ((deleteMark s side key b).getD s).side side.other = s.side side.other ∧
      (((deleteMark s side key b).getD s).side side).dbi = (s.side side).dbi := by
  unfold deleteMark
  split_ifs
  · cases hdel : (s.side side).env.del (s.side side).jaegerDbi key with
    | none => exact ⟨rfl, rfl⟩
    | some env =>
      refine ⟨side_commit_of_ne s _ side.other_ne, ?_⟩
      dsimp only [Option.getD_some]
      rw [side_commit_self]
  · exact ⟨rfl, rfl⟩
  · exact ⟨rfl, rfl⟩

theorem visitMarks_frame {b : JaegerAnswers}
    (h : visitMarks j side s time b entries st = .ok (st', returns)) :
    st'.1.side side.other = st.1.side side.other ∧
      (st'.1.side side).dbi = (st.1.side side).dbi := by
  induction entries generalizing st with
  | nil =>
    obtain ⟨rfl, -⟩ := Prod.mk.inj (Except.ok.inj h)
    exact ⟨rfl, rfl⟩
  | cons entry entries ih =>
    obtain ⟨⟨mid, control⟩, hvisit, h⟩ := bind_eq_ok.1 h
    have hframe : mid.1.side side.other = st.1.side side.other ∧
        (mid.1.side side).dbi = (st.1.side side).dbi := by
      cases visit_of_visitMark hvisit with
      | skipped _ => exact ⟨rfl, rfl⟩
      | unreadable _ _ _ => exact ⟨rfl, rfl⟩
      | unparsed _ _ _ _ => exact deleteMark_frame st.1 side entry.1
      | document _ _ _ _ _ => exact deleteMark_frame st.1 side entry.1
    cases control with
    | next =>
      obtain ⟨hother, hdbi⟩ := ih h
      exact ⟨hother.trans hframe.1, hdbi.trans hframe.2⟩
    | stop =>
      obtain ⟨rfl, -⟩ := Prod.mk.inj (Except.ok.inj h)
      exact hframe
    | leave =>
      obtain ⟨rfl, -⟩ := Prod.mk.inj (Except.ok.inj h)
      exact hframe

/-- What has been counted before the marks of the last environment. -/
theorem deletesAll_last (hread : a.answers.read .current = true)
    (h : visitSideCalls j .current s time a (s, ⟨0, [], []⟩) c = .ok ((st, false), c')) :
    DeletesAll j .last st.1 time a (st.1.marks .last) st.2.jaegeredCount ↔
      DeletesAll j .last s time a (s.marks .last) (worksBefore j s .last time) := by
  have hvisit : visitSide j .current s time a.answers (s, ⟨0, [], []⟩) = .ok (st, false) := by
    rw [← visitSideCalls_result _ c, h]
    rfl
  unfold visitSide at hvisit
  rw [if_pos hread] at hvisit
  have hcount := count_visitMarks hvisit
  obtain ⟨hother, hdbi⟩ := visitMarks_frame hvisit
  have hside : st.1.side .last = s.side .last := hother
  rw [deletesAll_side hside hdbi]
  refine deletesAll_count ?_
  unfold worksBefore Store.marks
  dsimp only at hcount ⊢
  omega

/-- A call of `tm_transaction_store_process_jaeger` that returns ends all transactions once, if all
marks whose deletion it comes to are deleted. -/
theorem balanced_processJaegerCalls {x : Store × JaegerReport × ℕ}
    (h : processJaegerCalls j s now a = .ok (x, c)) :
    Balanced c.steps ↔ ∀ side entry, ComesTo j s now a side entry →
      a.writeTxn entry.1 = true ∧ a.deletes entry.1 = true := by
  obtain ⟨⟨⟨st, returns⟩, c₁⟩, hcurrent, h⟩ := bind_eq_ok.1 h
  dsimp only at h
  rcases owes_visitSideCalls Calls.owes_locked hcurrent with
    ⟨hread, rfl, hc⟩ | ⟨hread, hall, rfl, hc⟩ | ⟨hread, hnot, hends⟩
  · -- the current environment cannot be read
    obtain ⟨-, rfl⟩ := Prod.mk.inj (Except.ok.inj h)
    refine iff_of_true (hc.balanced_iff.2 rfl) fun side entry hcomes => ?_
    rw [hcomes.1] at hread
    cases hread
  · rw [if_neg (by decide)] at h
    obtain ⟨⟨⟨st', returns'⟩, c₂⟩, hlast, h⟩ := bind_eq_ok.1 h
    dsimp only at h
    have hcurrentAll : ∀ entry, ComesTo j s now a .current entry →
        a.writeTxn entry.1 = true ∧ a.deletes entry.1 = true :=
      (deletesAll_worksBefore hread hread).1 hall
    have hiff := deletesAll_last hread hcurrent
    rcases owes_visitSideCalls hc hlast with
      ⟨hreadLast, rfl, hc₂⟩ | ⟨hreadLast, hallLast, rfl, hc₂⟩ | ⟨hreadLast, hnotLast, hends⟩
    · obtain ⟨-, rfl⟩ := Prod.mk.inj (Except.ok.inj h)
      refine iff_of_true (hc₂.balanced_iff.2 rfl) fun side entry hcomes => ?_
      cases side with
      | current => exact hcurrentAll entry hcomes
      | last =>
        rw [hcomes.2.1] at hreadLast
        cases hreadLast
    · rw [if_neg (by decide)] at h
      obtain ⟨-, rfl⟩ := Prod.mk.inj (Except.ok.inj h)
      refine iff_of_true (hc₂.unlock.balanced_iff.2 rfl) fun side entry hcomes => ?_
      cases side with
      | current => exact hcurrentAll entry hcomes
      | last => exact (deletesAll_worksBefore hread hreadLast).1 (hiff.1 hallLast) entry hcomes
    · refine iff_of_false ?_ fun hcomes =>
        hnotLast (hiff.2 ((deletesAll_worksBefore hread hreadLast).2 (hcomes .last)))
      rcases hends with ⟨rfl, hc₂⟩ | hdouble
      · obtain ⟨-, rfl⟩ := Prod.mk.inj (Except.ok.inj h)
        rw [hc₂.balanced_iff]
        exact Finset.singleton_ne_empty _
      · refine (hdouble.mono ?_).not_balanced
        split_ifs at h
        · obtain ⟨-, rfl⟩ := Prod.mk.inj (Except.ok.inj h)
          exact List.prefix_refl _
        · obtain ⟨-, rfl⟩ := Prod.mk.inj (Except.ok.inj h)
          exact List.prefix_append _ _
  · refine iff_of_false ?_ fun hcomes =>
      hnot ((deletesAll_worksBefore hread hread).2 (hcomes .current))
    rcases hends with ⟨rfl, hc⟩ | hdouble
    · obtain ⟨-, rfl⟩ := Prod.mk.inj (Except.ok.inj h)
      rw [hc.balanced_iff]
      exact Finset.singleton_ne_empty _
    · refine (hdouble.mono ?_).not_balanced
      split_ifs at h
      · obtain ⟨-, rfl⟩ := Prod.mk.inj (Except.ok.inj h)
        exact List.prefix_refl _
      · obtain ⟨⟨⟨st', returns'⟩, c₂⟩, hlast, h⟩ := bind_eq_ok.1 h
        have hlast := prefix_visitSideCalls hlast
        dsimp only at h
        split_ifs at h
        · obtain ⟨-, rfl⟩ := Prod.mk.inj (Except.ok.inj h)
          exact hlast
        · obtain ⟨-, rfl⟩ := Prod.mk.inj (Except.ok.inj h)
          exact hlast.trans (List.prefix_append _ _)

end Process

/-! ### All calls -/

/-- A call, with the return codes of LMDB in it.  A null child is refused before the lock is
taken. -/
inductive StoreCall
  | put (id : Bytes) (a : WriteCodes)
  | addChild (traceId : Bytes) (child : Json) (a : AddChildCodes)
  | get (id : Bytes) (a : GetCodes)
  | markTraceable (traceId : Bytes) (a : WriteCodes)
  | processJaeger (now : ℕ) (a : JaegerCodes)

/-- What the call has done when it returns. -/
def StoreCall.calls (j : JaegerEnv) (s : Store) : StoreCall → Outcome Calls
  | .put id a => .ok (putCalls id a).2
  | .addChild traceId child a => .ok (addChildCalls j.lib s traceId child a).2
  | .get id a => (getCalls j s id a).map Prod.snd
  | .markTraceable traceId a => .ok (markTraceableCalls traceId a).2
  | .processJaeger now a => (processJaegerCalls j s now a).map Prod.snd

/-- A child is not added through a transaction that has been left open, and the marks whose deletion
`tm_transaction_store_process_jaeger` comes to are deleted. -/
def StoreCall.EndsWell (j : JaegerEnv) (s : Store) : StoreCall → Prop
  | .put _ _ | .get _ _ | .markTraceable _ _ => True
  | .addChild traceId _ a => ¬ (LeftOpen s traceId a ∧ a.child.begins = true)
  | .processJaeger now a => ∀ side entry, ComesTo j s now a side entry →
      a.writeTxn entry.1 = true ∧ a.deletes entry.1 = true

theorem map_snd_eq_ok {α : Type} {r : Outcome (α × Calls)} (h : r.map Prod.snd = .ok c) :
    ∃ x, r = .ok (x, c) := by
  cases r with
  | error fault => cases h
  | ok r =>
    obtain rfl : r.2 = c := Except.ok.inj h
    exact ⟨r.1, rfl⟩

/-- **Transactions.**  A call that returns, with any return codes and any contents of the store, has
released the lock once and ended every transaction once, exactly if it ends well. -/
theorem balanced_iff_endsWell (j : JaegerEnv) (s : Store) (call : StoreCall) {c : Calls}
    (h : call.calls j s = .ok c) : Balanced c.steps ↔ call.EndsWell j s := by
  cases call with
  | put id a =>
    obtain rfl : (putCalls id a).2 = c := Except.ok.inj h
    exact iff_of_true ((owes_singleWrite id a).balanced_iff.2 rfl) trivial
  | addChild traceId child a =>
    obtain rfl : (addChildCalls j.lib s traceId child a).2 = c := Except.ok.inj h
    exact balanced_addChildCalls j.lib s traceId child a
  | get id a =>
    obtain ⟨r, hget⟩ := map_snd_eq_ok h
    exact iff_of_true ((owes_getCalls hget).balanced_iff.2 rfl) trivial
  | markTraceable traceId a =>
    obtain rfl : (markTraceableCalls traceId a).2 = c := Except.ok.inj h
    exact iff_of_true ((owes_singleWrite traceId a).balanced_iff.2 rfl) trivial
  | processJaeger now a =>
    obtain ⟨x, hprocess⟩ := map_snd_eq_ok h
    exact balanced_processJaegerCalls hprocess

/-- LMDB succeeds in all calls but these. -/
def jaegerCodes (writeTxn deletes : Bool) : JaegerCodes where
  begins _ := true
  opens _ := true
  opensParent _ := true
  opensLastParent _ := true
  writeTxn _ := writeTxn
  deletes _ := deletes

/-- The trace with an error is sent, and its mark deleted. -/
theorem balanced_oneError : ∃ c, (StoreCall.processJaeger 400000 (jaegerCodes true true)).calls
    (parsing oneError) (traceStore (fun _ => none) oneError) = .ok c ∧ c.begun = 3 ∧
      Balanced c.steps := by
  have hcalls : ∃ steps, (StoreCall.processJaeger 400000 (jaegerCodes true true)).calls
      (parsing oneError) (traceStore (fun _ => none) oneError) = .ok ⟨3, steps⟩ := ⟨_, rfl⟩
  obtain ⟨steps, hcalls⟩ := hcalls
  exact ⟨_, hcalls, rfl, (balanced_iff_endsWell _ _ _ hcalls).2 fun _ _ _ => ⟨rfl, rfl⟩⟩

/-- The filter of the last environment is wrong about the trace, and the current one is right. -/
def wrongLastFilter : AddChildCodes where
  last := ⟨true, true, true⟩
  current := ⟨true, true, true⟩
  parent := ⟨true, true, true, true⟩
  child := ⟨true, true, true, true⟩
  inLastBloom := true
  inCurrentBloom := false
  stack := []

/-- What a call does that adds a child with a wrong filter: the first transaction stays open. -/
def childSteps : List Step := [.locks, .begins 0, .begins 1, .ends 1, .unlocks]

/-- What a call does that cannot begin the deletion of a mark: the transaction that reads stays
open. -/
def leftSteps : List Step := [.locks, .begins 0, .unlocks]

/-- What a call does that cannot delete a mark: the second transaction is ended twice. -/
def failedSteps : List Step :=
  [.locks, .begins 0, .begins 1, .ends 1, .ends 1, .ends 0, .begins 2, .ends 2, .unlocks]

/-- A transaction is lost or ended twice, in the store without files with filters, and in one with a
marked trace. -/
theorem transactions_unbalanced :
    ((StoreCall.addChild (cstr "1f") spanA wrongLastFilter).calls (parsing [])
      (Store.fresh 1000 1000 300 true) = .ok ⟨2, childSteps⟩ ∧ ¬ Balanced childSteps) ∧
    ((StoreCall.processJaeger 400000 (jaegerCodes false true)).calls (parsing [])
      (traceStore (fun _ => none) []) = .ok ⟨1, leftSteps⟩ ∧ ¬ Balanced leftSteps) ∧
    ((StoreCall.processJaeger 400000 (jaegerCodes true false)).calls (parsing [])
      (traceStore (fun _ => none) []) = .ok ⟨3, failedSteps⟩ ∧ ¬ Balanced failedSteps) := by
  refine ⟨⟨rfl, fun h => ?_⟩, ⟨rfl, fun h => ?_⟩, ⟨rfl, fun h => ?_⟩⟩
  · exact absurd (h.ends 0 (by decide)) (by decide)
  · exact absurd (h.ends 0 (by decide)) (by decide)
  · exact absurd (h.ends 1 (by decide)) (by decide)

end Tracemate.TransactionStore
