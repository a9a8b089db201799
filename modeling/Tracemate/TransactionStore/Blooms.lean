import Tracemate.TransactionStore.Jaeger
import Tracemate.TransactionStore.Lookups

/-!
# The bloom filters change nothing

The same requests are served by two stores, one with bloom filters and one without.

* `tmTransactionStoreGet`, `tmTransactionStoreRestart`: the remaining operations;
* `Request`, `Store.serve`: requests to the store;
* `Twins`: two stores that hold the same;
* `lookupIn_eq`, `parentLookup_eq`, `get_eq_of_twins`: both stores find the same;
* `twins_serve`, `blooms_change_nothing`: they do the same.
-/

namespace Tracemate.TransactionStore

open CStr JsonC Lmdb

/-! ### Requests -/

/-- A `tm_transaction_store_entry_t` that is got; `data` is null for a document that cannot be
parsed. -/
structure GotEntry where
  firstSeenMs : ℕ
  lastModifiedMs : ℕ
  data : Option Json

/-- The record that `tm_transaction_store_get` finds in one environment, behind its filter; an
error of the lookup counts as a miss. -/
def Store.findIn (s : Store) (side : Side) (id : Bytes) (inBloom : Bool) : Option Stored :=
  if s.useBloomFilters = true ∧ bloomContains (s.side side).bloom id inBloom = false then none
  else
    match (s.side side).env.get (s.side side).dbi id with
    | .found v => some v
    | _ => none

/-- `tm_transaction_store_get`: the last environment first, then the current one. -/
def tmTransactionStoreGet (j : JaegerEnv) (s : Store) (id : Bytes)
    (inLastBloom inCurrentBloom : Bool) : Option GotEntry :=
  let found :=
    match s.findIn .last id inLastBloom with
    | some v => some v
    | none => s.findIn .current id inCurrentBloom
  match found with
  | none => none
  | some v =>
    let r := j.asRoot v
    match j.text r.compressed r.data with
    | none => none
    | some text => some ⟨r.firstSeenMs, r.lastModifiedMs, j.parse text⟩

/-- The environments are closed, and opened again by `tm_transaction_store_init`. -/
def tmTransactionStoreRestart (s : Store) (nowCurrent nowLast : ℕ) : Store :=
  tmTransactionStoreInit s.current.env.file s.last.env.file nowCurrent nowLast
    s.defaultLookbackSecs s.useBloomFilters

/-- A request, with what the filters say of keys that were not added. -/
inductive Request
  | op (op : Op)
  | get (id : Bytes) (inLastBloom inCurrentBloom : Bool)
  | restart (nowCurrent nowLast : ℕ)

/-- The store after a request. -/
def Store.serve (lib : Conversions) (compress : Bytes → Option Bytes) (s : Store) :
    Request → Store
  | .op op => s.apply lib compress op
  | .get _ _ _ => s
  | .restart nowCurrent nowLast => tmTransactionStoreRestart s nowCurrent nowLast

/-- The id that is passed with a request. -/
def Request.id : Request → Option Bytes
  | .op (.put id _ _ _ _) => some id
  | .op (.addChild traceId _ _ _ _) => some traceId
  | .get id _ _ => some id
  | _ => none

/-- The key under which a request writes a child. -/
def Request.childKey (lib : Conversions) : Request → Option Bytes
  | .op (.addChild traceId child _ _ a) =>
    let key := TransactionStore.childKey lib traceId child a.stack
    if ValidKey key then some key else none
  | _ => none

/-- The lookups of the parent record succeed; LMDB refuses to look up the empty key. -/
def Request.Reads : Request → Prop
  | .op (.addChild traceId _ _ _ a) =>
    a.readLast = true ∧ a.readCurrent = true ∧ traceId ≠ []
  | _ => True

/-! ### Twins -/

/-- Two environments that are the same, the filters apart. -/
structure SameEnv (e e' : StoreEnv) : Prop where
  env : e.env = e'.env
  dbi : e.dbi = e'.dbi
  jaegerDbi : e.jaegerDbi = e'.jaegerDbi
  openMs : e.openMs = e'.openMs

/-- The two stores hold the same, the filters apart. -/
structure Twins (on off : Store) : Prop where
  sides : ∀ side, SameEnv (on.side side) (off.side side)
  lookback : on.defaultLookbackSecs = off.defaultLookbackSecs

variable {on off : Store} {ids : Bytes → Prop} {side : Side} {traceId id key : Bytes}
  {lib : Conversions} {compress : Bytes → Option Bytes}

theorem Twins.commit (h : Twins on off) (side : Side) (env : Env DbName Stored) :
    Twins (on.commit side env) (off.commit side env) := by
  refine ⟨fun side' => ?_, by cases side <;> exact h.lookback⟩
  by_cases hside : side' = side
  · subst hside
    rw [side_commit_self, side_commit_self]
    exact ⟨rfl, (h.sides side').dbi, (h.sides side').jaegerDbi, (h.sides side').openMs⟩
  · rw [side_commit_of_ne on env hside, side_commit_of_ne off env hside]
    exact h.sides side'

theorem Twins.ttl (h : Twins on off) (ttl : Int32) : on.ttl ttl = off.ttl ttl := by
  unfold Store.ttl
  rw [h.lookback]

/-- What is written to one database of both stores. -/
theorem Twins.put_eq (h : Twins on off) (side : Side) (key : Bytes) (v : Stored) :
    (on.side side).env.put (on.side side).dbi key v =
      (off.side side).env.put (off.side side).dbi key v := by
  rw [(h.sides side).env, (h.sides side).dbi]

/-! ### Both stores find the same -/

theorem get_notFound (hopen : on.Opened) (hne : id ≠ []) (hnone : on.record side id = none) :
    (on.side side).env.get (on.side side).dbi id = .notFound := by
  rw [(hopen side).dbi, get_eq (hopen side).dbName_ts hne]
  unfold Store.record at hnone
  rw [hnone]

/-- What is not in the filter is not in the database. -/
theorem record_of_notMem (hfiltered : Filtered ids on) (hid : ids id) {inBloom : Bool}
    (h : on.useBloomFilters = true ∧ bloomContains (on.side side).bloom id inBloom = false) :
    on.record side id = none := by
  rw [← Option.not_isSome_iff_eq_none]
  intro hsome
  have hmem := hfiltered h.1 side id hid hsome
  have hno := h.2
  simp [bloomContains, hmem] at hno

/-- A lookup of an id in one environment. -/
theorem lookupIn_eq (h : Twins on off) (hopen : on.Opened) (hfiltered : Filtered ids on)
    (hoff : off.useBloomFilters = false) (hid : ids id) (hne : id ≠ []) (inBloom : Bool) :
    on.lookupIn side id inBloom true = off.lookupIn side id inBloom true := by
  have hskip : ¬ (off.useBloomFilters = true ∧
      bloomContains (off.side side).bloom id inBloom = false) := fun hc => by
    rw [hoff] at hc
    exact absurd hc.1 (by decide)
  unfold Store.lookupIn
  rw [if_neg hskip, if_pos rfl, if_pos rfl, ← (h.sides side).env,
    ← (h.sides side).dbi]
  split_ifs with hbloom
  · rw [get_notFound hopen hne (record_of_notMem hfiltered hid hbloom)]
  · rfl

/-- The lookup of the parent. -/
theorem parentLookup_eq (h : Twins on off) (hopen : on.Opened) (hfiltered : Filtered ids on)
    (hoff : off.useBloomFilters = false) (hid : ids id) {a : Answers}
    (hreads : a.readLast = true ∧ a.readCurrent = true ∧ id ≠ []) :
    parentLookup on id a = parentLookup off id a := by
  obtain ⟨hlast, hcurrent, hne⟩ := hreads
  unfold parentLookup
  rw [hlast, hcurrent, lookupIn_eq h hopen hfiltered hoff hid hne,
    lookupIn_eq h hopen hfiltered hoff hid hne]

/-- `tm_transaction_store_get`. -/
theorem findIn_eq (h : Twins on off) (hopen : on.Opened) (hfiltered : Filtered ids on)
    (hoff : off.useBloomFilters = false) (hid : ids id) (inBloom : Bool) :
    on.findIn side id inBloom = off.findIn side id inBloom := by
  have hskip : ¬ (off.useBloomFilters = true ∧
      bloomContains (off.side side).bloom id inBloom = false) := fun hc => by
    rw [hoff] at hc
    exact absurd hc.1 (by decide)
  unfold Store.findIn
  rw [if_neg hskip, ← (h.sides side).env,
    ← (h.sides side).dbi]
  split_ifs with hbloom
  · have hnone := record_of_notMem hfiltered hid hbloom
    split
    · next v hv =>
      rw [get_ts hopen] at hv
      unfold Store.record at hnone
      rw [hnone] at hv
      cases hv
    · rfl
  · rfl

theorem get_eq_of_twins (j : JaegerEnv) (h : Twins on off) (hopen : on.Opened)
    (hfiltered : Filtered ids on) (hoff : off.useBloomFilters = false) (hid : ids id)
    (inLastBloom inCurrentBloom : Bool) :
    tmTransactionStoreGet j on id inLastBloom inCurrentBloom =
      tmTransactionStoreGet j off id inLastBloom inCurrentBloom := by
  unfold tmTransactionStoreGet
  rw [findIn_eq h hopen hfiltered hoff hid, findIn_eq h hopen hfiltered hoff hid]

/-! ### Both stores do the same -/

theorem twins_put (h : Twins on off) (id : Bytes) (entry : Entry) (ttl : Int32) (now : ℕ)
    (ok : Bool) :
    Twins (on.apply lib compress (.put id entry ttl now ok))
      (off.apply lib compress (.put id entry ttl now ok)) := by
  have hput := fun v => h.put_eq .current id v
  dsimp only [Store.side] at hput
  dsimp only [Store.apply, tmTransactionStorePut]
  rw [h.ttl, hput]
  cases ok with
  | false => exact h
  | true =>
    rw [if_pos rfl, if_pos rfl]
    split
    · next env _ =>
      have hcommit := h.commit .current env
      -- the filters are of no account
      refine ⟨fun side => ?_, h.lookback⟩
      cases side with
      | current =>
        have hsame := hcommit.sides .current
        exact ⟨hsame.env, hsame.dbi, hsame.jaegerDbi, hsame.openMs⟩
      | last => exact h.sides .last
    · exact h

theorem twins_writeChild (h : Twins on off) (side : Side) (traceId : Bytes) (child : Json)
    (ttl : Int32) (now : ℕ) (a : Answers) :
    Twins (writeChild lib compress on side traceId child ttl now a).1
      (writeChild lib compress off side traceId child ttl now a).1 := by
  dsimp only [writeChild]
  rw [h.ttl, h.put_eq]
  split_ifs
  · split
    · exact h.commit side _
    · exact h
  · exact h

theorem twins_addChild (h : Twins on off) (traceId : Bytes) (child : Json)
    (ttl : Int32) (now : ℕ) (a : Answers) (hparent : parentLookup on traceId a =
      parentLookup off traceId a) :
    Twins (on.apply lib compress (.addChild traceId child ttl now a))
      (off.apply lib compress (.addChild traceId child ttl now a)) := by
  dsimp only [Store.apply, tmTransactionStoreAddChild]
  rw [hparent]
  cases parentLookup off traceId a with
  | error => exact h
  | notFound => exact twins_writeChild h .current traceId child ttl now a
  | found p =>
    obtain ⟨side, parent⟩ := p
    dsimp only
    rw [h.put_eq]
    split_ifs
    · split
      · exact twins_writeChild (h.commit side _) side traceId child ttl now a
      · exact h
    · split
      · exact twins_writeChild h side traceId child ttl now a
      · exact h
    · exact h

theorem twins_markTraceable (h : Twins on off) (traceId : Bytes) (ok : Bool) :
    Twins (on.apply lib compress (.markTraceable traceId ok))
      (off.apply lib compress (.markTraceable traceId ok)) := by
  have hsame := h.sides .current
  dsimp only [Store.side] at hsame
  dsimp only [Store.apply, tmTransactionStoreMarkTraceable]
  rw [hsame.env, hsame.jaegerDbi]
  split_ifs
  · split
    · exact h.commit .current _
    · exact h
  · exact h

/-- Opening does not look at the filter. -/
theorem sameEnv_openEnvironment (file : DbName → Db Stored) (now : ℕ) (bloom bloom' : Finset Bytes) :
    SameEnv (openEnvironment file now bloom) (openEnvironment file now bloom') := by
  dsimp only [openEnvironment]
  split
  · exact ⟨rfl, rfl, rfl, rfl⟩
  · exact ⟨rfl, rfl, rfl, rfl⟩

theorem twins_deleteOldTransactions (h : Twins on off) (now nowCurrent nowLast : ℕ) :
    Twins (on.apply lib compress (.deleteOldTransactions now nowCurrent nowLast))
      (off.apply lib compress (.deleteOldTransactions now nowCurrent nowLast)) := by
  have hsame := h.sides .current
  dsimp only [Store.side] at hsame
  dsimp only [Store.apply, tmTransactionStoreDeleteOldTransactions]
  rw [hsame.openMs, hsame.env]
  split_ifs
  · refine ⟨fun side => ?_, h.lookback⟩
    cases side with
    | current => exact sameEnv_openEnvironment emptyFile nowCurrent ∅ ∅
    | last => exact sameEnv_openEnvironment off.current.env.file nowLast _ _
  · exact h

theorem twins_restart (h : Twins on off) (nowCurrent nowLast : ℕ) :
    Twins (tmTransactionStoreRestart on nowCurrent nowLast)
      (tmTransactionStoreRestart off nowCurrent nowLast) := by
  have hcurrent := (h.sides .current).env
  have hlast := (h.sides .last).env
  dsimp only [Store.side] at hcurrent hlast
  unfold tmTransactionStoreRestart
  rw [hcurrent, hlast, h.lookback]
  refine ⟨fun side => ?_, rfl⟩
  cases side <;> exact ⟨rfl, rfl, rfl, rfl⟩

/-! ### Runs -/

/-- The store with filters, whose filters hold the ids, and its twin without. -/
structure Paired (ids : Bytes → Prop) (on off : Store) : Prop where
  opened : on.Opened
  filtered : Filtered ids on
  unfiltered : off.useBloomFilters = false
  twins : Twins on off

/-- The request is made with one of the ids, writes no child under one of them, and its lookups
succeed. -/
def Request.Regular (lib : Conversions) (ids : Bytes → Prop) (r : Request) : Prop :=
  (∀ id ∈ r.id, ids id) ∧ (∀ key ∈ r.childKey lib, ¬ ids key) ∧ r.Reads

theorem Twins.opened (h : Twins on off) (hopen : on.Opened) : off.Opened := by
  intro side
  obtain ⟨henv, hdbi, hjaeger, -⟩ := h.sides side
  have ho := hopen side
  refine ⟨?_, ?_, ?_, ?_, ?_, ?_⟩
  · rw [← henv]
    exact ho.slots
  · rw [← hdbi]
    exact ho.dbi
  · rw [← hjaeger]
    exact ho.jaegerDbi
  · rw [← henv]
    exact ho.openMs
  · rw [← henv]
    exact ho.keys
  · rw [← henv]
    exact ho.marks

/-- The parent is looked up with the same answer. -/
theorem Paired.parentLookup_eq (h : Paired ids on off) {child : Json} {ttl : Int32} {now : ℕ}
    {a : Answers} (hr : (Request.op (.addChild traceId child ttl now a)).Regular lib ids) :
    parentLookup on traceId a = parentLookup off traceId a :=
  TransactionStore.parentLookup_eq h.twins h.opened h.filtered h.unfiltered (hr.1 traceId rfl) hr.2.2

theorem Paired.apply (h : Paired ids on off) (hms : ¬ ids openMsKey) {op : Op}
    (hr : (Request.op op).Regular lib ids) :
    Paired ids (on.apply lib compress op) (off.apply lib compress op) := by
  have hopen := (apply_spec lib compress h.opened op).1
  have hoff := (useBloom_apply lib compress (h.twins.opened h.opened) op).trans h.unfiltered
  cases op with
  | put id entry ttl now ok =>
    exact ⟨hopen, h.filtered.apply lib compress h.opened hms (hr.1 id rfl), hoff,
      twins_put h.twins id entry ttl now ok⟩
  | addChild traceId child ttl now a =>
    refine ⟨hopen, h.filtered.apply lib compress h.opened hms ⟨hr.1 traceId rfl, fun hkey => ?_⟩,
      hoff, twins_addChild h.twins traceId child ttl now a (h.parentLookup_eq hr)⟩
    exact hr.2.1 _ (if_pos hkey)
  | markTraceable traceId ok =>
    exact ⟨hopen, h.filtered.apply lib compress h.opened hms trivial, hoff,
      twins_markTraceable h.twins traceId ok⟩
  | deleteOldTransactions now nowCurrent nowLast =>
    exact ⟨hopen, h.filtered.apply lib compress h.opened hms trivial, hoff,
      twins_deleteOldTransactions h.twins now nowCurrent nowLast⟩

/-- A filter that has been filled holds every key. -/
theorem filtered_init (current last : DbName → Db Stored) (nowCurrent nowLast : ℕ)
    (defaultLookbackSecs : Int32) (useBloomFilters : Bool) :
    Filtered ids (tmTransactionStoreInit current last nowCurrent nowLast defaultLookbackSecs
      useBloomFilters) := by
  intro _ side key _ hsome
  have hmem : key ∈ ((tmTransactionStoreInit current last nowCurrent nowLast defaultLookbackSecs
      useBloomFilters).side side).env.file .ts := AList.lookup_isSome.1 hsome
  cases side with
  | current => exact List.mem_toFinset.2 (AList.mem_keys.1 hmem)
  | last => exact List.mem_toFinset.2 (AList.mem_keys.1 hmem)

theorem Paired.restart (h : Paired ids on off) (nowCurrent nowLast : ℕ) :
    Paired ids (tmTransactionStoreRestart on nowCurrent nowLast)
      (tmTransactionStoreRestart off nowCurrent nowLast) where
  opened side := by
    cases side with
    | current => exact ((h.opened .current).reopen nowCurrent ∅).1.of_bloom _
    | last => exact ((h.opened .last).reopen nowLast ∅).1.of_bloom _
  filtered := filtered_init _ _ _ _ _ _
  unfiltered := h.unfiltered
  twins := twins_restart h.twins nowCurrent nowLast

/-- One request. -/
theorem Paired.serve (h : Paired ids on off) (hms : ¬ ids openMsKey) {r : Request}
    (hr : r.Regular lib ids) : Paired ids (on.serve lib compress r) (off.serve lib compress r) := by
  cases r with
  | op op => exact h.apply hms hr
  | get id inLastBloom inCurrentBloom => exact h
  | restart nowCurrent nowLast => exact h.restart nowCurrent nowLast

theorem paired_fresh (nowCurrent nowLast : ℕ) (defaultLookbackSecs : Int32) :
    Paired ids (Store.fresh nowCurrent nowLast defaultLookbackSecs true)
      (Store.fresh nowCurrent nowLast defaultLookbackSecs false) where
  opened := opened_fresh nowCurrent nowLast defaultLookbackSecs true
  filtered := filtered_init _ _ _ _ _ _
  unfiltered := rfl
  twins := ⟨fun side => by cases side <;> exact ⟨rfl, rfl, rfl, rfl⟩, rfl⟩

/-- Every sequence of requests. -/
theorem Paired.foldl (h : Paired ids on off) (hms : ¬ ids openMsKey) {requests : List Request}
    (hr : ∀ r ∈ requests, r.Regular lib ids) :
    Paired ids (requests.foldl (Store.serve lib compress) on)
      (requests.foldl (Store.serve lib compress) off) :=
  List.foldl_rel h fun r hmem _ _ hpaired => hpaired.serve hms (hr r hmem)

/-- **The filters change nothing.**  Two stores in directories without files, one with bloom filters
and one without, serve the same requests: after each of them the databases hold the same, and
every get and every lookup of a parent gives the same answer. -/
theorem blooms_change_nothing (j : JaegerEnv) (compress : Bytes → Option Bytes)
    (nowCurrent nowLast : ℕ) (defaultLookbackSecs : Int32) (requests : List Request)
    (hreads : ∀ r ∈ requests, r.Reads)
    (hms : ∀ r ∈ requests, openMsKey ∉ r.id)
    (hapart : ∀ r ∈ requests, ∀ r' ∈ requests, ∀ key ∈ r'.childKey j.lib, key ∉ r.id)
    (before after : List Request) (r : Request) (hrequests : requests = before ++ r :: after) :
    let on := before.foldl (Store.serve j.lib compress)
      (Store.fresh nowCurrent nowLast defaultLookbackSecs true)
    let off := before.foldl (Store.serve j.lib compress)
      (Store.fresh nowCurrent nowLast defaultLookbackSecs false)
    (∀ side name, ((on.serve j.lib compress r).side side).env.file name =
      ((off.serve j.lib compress r).side side).env.file name) ∧
    (∀ id inLastBloom inCurrentBloom, r = .get id inLastBloom inCurrentBloom →
      tmTransactionStoreGet j on id inLastBloom inCurrentBloom =
        tmTransactionStoreGet j off id inLastBloom inCurrentBloom) ∧
    (∀ traceId child ttl now a, r = .op (.addChild traceId child ttl now a) →
      parentLookup on traceId a = parentLookup off traceId a) := by
  -- the ids are those that are passed with the requests
  have hregular : ∀ r ∈ requests, r.Regular j.lib fun id => ∃ r ∈ requests, id ∈ r.id :=
    fun r hr => ⟨fun id hid => ⟨r, hr, hid⟩,
      fun key hkey ⟨r', hr', hid⟩ => hapart r' hr' r hr key hkey hid, hreads r hr⟩
  have hnot : ¬ ∃ r ∈ requests, openMsKey ∈ r.id := fun ⟨r, hr, hid⟩ => hms r hr hid
  have hr : r.Regular j.lib fun id => ∃ r ∈ requests, id ∈ r.id :=
    hregular r (by simp [hrequests])
  have hbefore : ∀ r ∈ before, r.Regular j.lib fun id => ∃ r ∈ requests, id ∈ r.id :=
    fun r hr => hregular r (by simp [hrequests, hr])
  intro on off
  have hpaired : Paired (fun id => ∃ r ∈ requests, id ∈ r.id) on off :=
    (paired_fresh nowCurrent nowLast defaultLookbackSecs).foldl hnot hbefore
  have hserved : Paired (fun id => ∃ r ∈ requests, id ∈ r.id) (on.serve j.lib compress r)
      (off.serve j.lib compress r) := hpaired.serve hnot hr
  refine ⟨fun side name => ?_, ?_, ?_⟩
  · rw [(hserved.twins.sides side).env]
  · rintro id inLastBloom inCurrentBloom rfl
    exact get_eq_of_twins j hpaired.twins hpaired.opened hpaired.filtered hpaired.unfiltered
      (hr.1 id rfl) inLastBloom inCurrentBloom
  · rintro traceId child ttl now a rfl
    exact hpaired.parentLookup_eq hr

/-! ### Requests around a rotation and a restart -/

/-- A root is put, moves to the last environment, and is looked up after a restart. -/
def aroundRestart : List Request := [
  .op (.put (cstr "1f") ⟨1000, .obj []⟩ 0 1000 true),
  .op (.deleteOldTransactions 700000 700000 700001),
  .restart 700002 700003]

/-- LMDB succeeds, and the filters say that they hold every key. -/
def allPositive : Answers := ⟨true, true, true, true, true, true, true, []⟩

/-- A span of the trace. -/
def addSpan : Request :=
  .op (.addChild (cstr "1f") (.obj [(cstr "processor", .obj [(cstr "event", .str (cstr "span"))])])
    0 800000 allPositive)

/-- The reference library; nothing is compressed. -/
def plainText : JaegerEnv where
  lib := reference
  jaegerDestUrl team := team
  decompress _ := none
  parse _ := none
  otherAsRoot _ := ⟨false, 0, 0, 0, []⟩
  otherAsChild _ := ⟨[], false, 0, 0, []⟩

/-- The span finds its root in the last environment, with filters and without. -/
theorem root_found_after_restart :
    let on := aroundRestart.foldl (Store.serve reference fun _ => none)
      (Store.fresh 1000 1000 300 true)
    let off := aroundRestart.foldl (Store.serve reference fun _ => none)
      (Store.fresh 1000 1000 300 false)
    (∃ v, parentLookup on (cstr "1f") allPositive = .found (.last, v)) ∧
      parentLookup on (cstr "1f") allPositive = parentLookup off (cstr "1f") allPositive ∧
      ∀ side name, ((on.serve reference (fun _ => none) addSpan).side side).env.file name =
        ((off.serve reference (fun _ => none) addSpan).side side).env.file name := by
  obtain ⟨hfiles, -, hlookup⟩ := blooms_change_nothing plainText (fun _ => none) 1000 1000 300
    (aroundRestart ++ [addSpan])
    (by simp [aroundRestart, addSpan, Request.Reads, allPositive]; decide)
    (by decide) (by decide) aroundRestart [] addSpan rfl
  exact ⟨⟨_, rfl⟩, hlookup _ _ _ _ _ rfl, hfiles⟩

end Tracemate.TransactionStore
