import Tracemate.TransactionStore.Records

/-!
# The operations of the transaction store

Two environments, `current` and `last`, each with the databases `ts` and `jaeger`.

* `Store`: the static variables of `tm_transaction_store.c`;
* `openEnvironment`, `tmTransactionStoreInit`: the environments after opening;
* `tmTransactionStorePut`, `tmTransactionStoreAddChild`, `tmTransactionStoreMarkTraceable`,
  `tmTransactionStoreDeleteOldTransactions`: the operations, with the readings of the clock and the
  answers of LMDB and of the bloom filters as arguments;
* `Op`, `Store.apply`: one operation;
* `markedRecord`: the record that `tm_transaction_store_process_jaeger` finds for a mark.
-/

namespace Tracemate.TransactionStore

open CStr JsonC Lmdb

/-- The names of the databases. -/
inductive DbName
  | ts
  | jaeger
  deriving DecidableEq

/-- The two environments. -/
inductive Side
  | current
  | last
  deriving DecidableEq

def Side.other : Side → Side
  | current => last
  | last => current

/-- The variables `current_…` or `last_…`.  The bloom filter is the set of the keys added to it. -/
structure StoreEnv where
  env : Env DbName Stored
  dbi : ℕ
  jaegerDbi : ℕ
  openMs : ℕ
  bloom : Finset Bytes

structure Store where
  current : StoreEnv
  last : StoreEnv
  defaultLookbackSecs : Int32
  useBloomFilters : Bool

def Store.side (s : Store) : Side → StoreEnv
  | .current => s.current
  | .last => s.last

/-- The environment of one side after a commit. -/
def Store.commit (s : Store) (side : Side) (env : Env DbName Stored) : Store :=
  match side with
  | .current => { s with current := { s.current with env } }
  | .last => { s with last := { s.last with env } }

/-! ### Opening -/

/-- The key under which an environment stores the time at which it was opened first. -/
def openMsKey : Bytes := cstr "tm_transaction_store_open_ms"

/-- The body of the loop in `_tm_transaction_store_open_environments`; `now` is the reading of
the clock. -/
def openEnvironment (file : DbName → Db Stored) (now : ℕ) (bloom : Finset Bytes) : StoreEnv :=
  let (env, dbi) := (Env.ofFile file).dbiOpen .ts
  let (env, jaegerDbi) := env.dbiOpen .jaeger
  match env.get dbi openMsKey with
  | .found v => ⟨env, dbi, jaegerDbi, v.firstWord, bloom⟩
  | _ => ⟨(env.put dbi openMsKey (.openMs now)).getD env, dbi, jaegerDbi, now, bloom⟩

/-- The filter that is filled with the keys of `ts`. -/
def StoreEnv.fillBloom (e : StoreEnv) : StoreEnv :=
  { e with bloom := (e.env.file .ts).keys.toFinset }

/-- A directory without files. -/
def emptyFile : DbName → Db Stored := fun _ => ∅

/-- `tm_transaction_store_init`, on what is in the directory. -/
def tmTransactionStoreInit (current last : DbName → Db Stored) (nowCurrent nowLast : ℕ)
    (defaultLookbackSecs : Int32) (useBloomFilters : Bool) : Store where
  current := (openEnvironment current nowCurrent ∅).fillBloom
  last := (openEnvironment last nowLast ∅).fillBloom
  defaultLookbackSecs
  useBloomFilters

/-- A `tm_transaction_store_entry_t` that is put. -/
structure Entry where
  firstSeenMs : ℕ
  data : Json

section Operations

-- `mtev_compress_lz4f`
variable (lib : Conversions) (compress : Bytes → Option Bytes)

/-- `magic_word` and `data` of a record: the document's text, compressed if that succeeds. -/
def storeString (json : Json) : Bool × Bytes :=
  match compress (lib.toJsonString json) with
  | some compressed => (true, compressed)
  | none => (false, lib.toJsonString json)

/-- The value of `ttl` after the default has been put in. -/
def Store.ttl (s : Store) (ttl : Int32) : Int32 :=
  if ttl = 0 then s.defaultLookbackSecs + 300 else ttl

/-- `tm_transaction_store_put`; `ok` says that all calls of LMDB succeed. -/
def tmTransactionStorePut (s : Store) (id : Bytes) (entry : Entry) (ttl : Int32) (now : ℕ)
    (ok : Bool) : Store × Bool :=
  let (compressed, data) := storeString lib compress entry.data
  let r : Stored := .root ⟨compressed, entry.firstSeenMs, now, s.ttl ttl, data⟩
  -- puts always go to current_env
  if ok then
    match s.current.env.put s.current.dbi id r with
    | some env =>
      let bloom := if s.useBloomFilters then insert id s.current.bloom else s.current.bloom
      ({ s with current := { s.current with env, bloom } }, true)
    | none => (s, false)
  else (s, false)

/-- What LMDB and the bloom filters answer in a call of `tm_transaction_store_add_child`: whether
the reads of the two environments succeed, the write and the commit of the parent record, the
write of the child record; what the filters say of keys that were not added; and the bytes that
follow `root_key`. -/
structure Answers where
  readLast : Bool
  readCurrent : Bool
  putParent : Bool
  commitParent : Bool
  putChild : Bool
  inLastBloom : Bool
  inCurrentBloom : Bool
  stack : Bytes

/-- `bloom_contains`. -/
def bloomContains (bloom : Finset Bytes) (key : Bytes) (falsePositive : Bool) : Bool :=
  decide (key ∈ bloom) || falsePositive

/-- A lookup of `trace_id` in one environment, behind its filter. -/
def Store.lookupIn (s : Store) (side : Side) (traceId : Bytes) (inBloom ok : Bool) :
    Found (Side × Stored) :=
  if s.useBloomFilters = true ∧ bloomContains (s.side side).bloom traceId inBloom = false then
    .notFound
  else if ok then
    match (s.side side).env.get (s.side side).dbi traceId with
    | .found v => .found (side, v)
    | .notFound => .notFound
    | .error => .error
  else .error

/-- The lookup of the parent record: the last environment first, then the current one. -/
def parentLookup (s : Store) (traceId : Bytes) (a : Answers) : Found (Side × Stored) :=
  match s.lookupIn .last traceId a.inLastBloom a.readLast with
  | .notFound => s.lookupIn .current traceId a.inCurrentBloom a.readCurrent
  | r => r

/-- The write of the child record into one environment. -/
def writeChild (s : Store) (side : Side) (traceId : Bytes) (child : Json) (ttl : Int32) (now : ℕ)
    (a : Answers) : Store × Bool :=
  let (compressed, data) := storeString lib compress child
  let c : Stored := .child ⟨traceId, compressed, now, s.ttl ttl, data⟩
  if a.putChild then
    match (s.side side).env.put (s.side side).dbi (childKey lib traceId child a.stack) c with
    | some env => (s.commit side env, true)
    | none => (s, false)
  else (s, false)

/-- `tm_transaction_store_add_child`, for a child that is not null. -/
def tmTransactionStoreAddChild (s : Store) (traceId : Bytes) (child : Json) (ttl : Int32)
    (now : ℕ) (a : Answers) : Store × Bool :=
  match parentLookup s traceId a with
  | .error => (s, false)
  | .notFound => writeChild lib compress s .current traceId child ttl now a
  | .found (side, parent) =>
    if a.putParent then
      match (s.side side).env.put (s.side side).dbi traceId (parent.touch now) with
      | some env =>
        -- the answer of the commit is not looked at
        let s := if a.commitParent then s.commit side env else s
        writeChild lib compress s side traceId child ttl now a
      | none => (s, false)
    else (s, false)

/-- `tm_transaction_store_mark_traceable`; `ok` says that all calls of LMDB succeed. -/
def tmTransactionStoreMarkTraceable (s : Store) (traceId : Bytes) (ok : Bool) : Store :=
  if ok then
    match s.current.env.put s.current.jaegerDbi traceId .trace with
    | some env => s.commit .current env
    | none => s
  else s

/-- `TEN_MINUTES_MS`. -/
def tenMinutesMs : ℕ := 10 * 60 * 1000

/-- `tm_transaction_store_delete_old_transactions`, with the number of entries it returns;
`nowCurrent` and `nowLast` are the readings of the clock when the environments are opened again. -/
def tmTransactionStoreDeleteOldTransactions (s : Store) (now nowCurrent nowLast : ℕ) :
    Store × ℕ :=
  if now > s.current.openMs ∧ now - s.current.openMs > tenMinutesMs then
    ({ s with
        current := openEnvironment emptyFile nowCurrent ∅
        last := openEnvironment s.current.env.file nowLast s.current.bloom },
      (s.current.env.file .ts).keys.length)
  else (s, 0)

/-- One operation. -/
inductive Op
  | put (id : Bytes) (entry : Entry) (ttl : Int32) (now : ℕ) (ok : Bool)
  | addChild (traceId : Bytes) (child : Json) (ttl : Int32) (now : ℕ) (a : Answers)
  | markTraceable (traceId : Bytes) (ok : Bool)
  | deleteOldTransactions (now nowCurrent nowLast : ℕ)

/-- The store after an operation. -/
def Store.apply (s : Store) : Op → Store
  | .put id entry ttl now ok => (tmTransactionStorePut lib compress s id entry ttl now ok).1
  | .addChild traceId child ttl now a =>
    (tmTransactionStoreAddChild lib compress s traceId child ttl now a).1
  | .markTraceable traceId ok => tmTransactionStoreMarkTraceable s traceId ok
  | .deleteOldTransactions now nowCurrent nowLast =>
    (tmTransactionStoreDeleteOldTransactions s now nowCurrent nowLast).1

end Operations

/-! ### Marks -/

/-- The record that `tm_transaction_store_process_jaeger` finds when its cursor in the marks of one
environment comes to an entry; `none` if it counts a missing parent and goes on. -/
def markedRecord (s : Store) (side : Side) (key : Bytes) (data : Stored) : Option Stored :=
  if data = .trace then
    -- `parent_cursor`
    match (s.side side).env.get (s.side side).dbi key with
    | .found v => some v
    | _ =>
      -- `last_parent_cursor` is opened in the same transaction, on the other handle
      match (s.side side).env.get (s.side side.other).dbi key with
      | .found v => some v
      | _ => none
  else some data

end Tracemate.TransactionStore
