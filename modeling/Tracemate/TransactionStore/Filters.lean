import Tracemate.Lib.BloomFilter
import Tracemate.TransactionStore.Blooms

/-!
# The filters of the transaction store, bit by bit

The store whose questions are answered by the bits of its two filters, and by nothing else.

* `XXH64`, `TwoIndependentMultiplyShift`, `Bloom`: the hashes, and a filter with its `add` and
  `contains`;
* `FilteredStore`, `FilteredStore.serve`: the store with its filters, and a request to it;
* `Represents`: the store with sets of keys that this one implements;
* `Represents.serve`: they do the same, step by step;
* `bits_change_nothing`: so do the store with bits and the store without filters.
-/

namespace Tracemate.TransactionStore

open CStr JsonC Lmdb

/-! ### Hashes -/

def PRIME64_1 : BitVec 64 := 11400714785074694791#64
def PRIME64_2 : BitVec 64 := 14029467366897019727#64
def PRIME64_3 : BitVec 64 := 1609587929392839161#64
def PRIME64_4 : BitVec 64 := 9650029242287828579#64
def PRIME64_5 : BitVec 64 := 2870177450012600261#64

def XXH_rotl64 (x : BitVec 64) (r : ℕ) : BitVec 64 := x <<< r ||| x >>> (64 - r)

/-- `XXH_readLE64`, `XXH_readLE32`: the number of the first bytes, the lowest one first. -/
def XXH_readLE (width : ℕ) (p : Bytes) : BitVec 64 :=
  (p.take width).foldr (fun byte n => n <<< 8 ||| BitVec.ofNat 64 byte.toNat) 0

def XXH64_round (acc input : BitVec 64) : BitVec 64 :=
  XXH_rotl64 (acc + input * PRIME64_2) 31 * PRIME64_1

def XXH64_mergeRound (acc val : BitVec 64) : BitVec 64 :=
  (acc ^^^ XXH64_round 0 val) * PRIME64_1 + PRIME64_4

/-- The four accumulators. -/
structure Lanes where
  v1 : BitVec 64
  v2 : BitVec 64
  v3 : BitVec 64
  v4 : BitVec 64

/-- The loop over the stripes of 32 bytes, with the bytes that are left. -/
def stripes : ℕ → Lanes → Bytes → Lanes × Bytes
  | 0, v, p => (v, p)
  | k + 1, v, p =>
    stripes k ⟨XXH64_round v.v1 (XXH_readLE 8 p), XXH64_round v.v2 (XXH_readLE 8 (p.drop 8)),
      XXH64_round v.v3 (XXH_readLE 8 (p.drop 16)), XXH64_round v.v4 (XXH_readLE 8 (p.drop 24))⟩
      (p.drop 32)

/-- The loop over the words of 8 bytes. -/
def eights : ℕ → BitVec 64 → Bytes → BitVec 64 × Bytes
  | 0, h64, p => (h64, p)
  | k + 1, h64, p =>
    eights k (XXH_rotl64 (h64 ^^^ XXH64_round 0 (XXH_readLE 8 p)) 27 * PRIME64_1 + PRIME64_4)
      (p.drop 8)

/-- The loop over the last bytes. -/
def singles (h64 : BitVec 64) (p : Bytes) : BitVec 64 :=
  p.foldl (fun h64 byte =>
    XXH_rotl64 (h64 ^^^ BitVec.ofNat 64 byte.toNat * PRIME64_5) 11 * PRIME64_1) h64

/-- The last lines of `XXH64_endian_align`. -/
def avalanche (h64 : BitVec 64) : BitVec 64 :=
  let h64 := (h64 ^^^ h64 >>> 33) * PRIME64_2
  let h64 := (h64 ^^^ h64 >>> 29) * PRIME64_3
  h64 ^^^ h64 >>> 32

def XXH64 (input : Bytes) (seed : BitVec 64) : BitVec 64 :=
  let (h64, p) :=
    if 32 ≤ input.length then
      let (v, p) := stripes (input.length / 32)
        ⟨seed + PRIME64_1 + PRIME64_2, seed + PRIME64_2, seed + 0, seed - PRIME64_1⟩ input
      let h64 := XXH_rotl64 v.v1 1 + XXH_rotl64 v.v2 7 + XXH_rotl64 v.v3 12 + XXH_rotl64 v.v4 18
      (XXH64_mergeRound (XXH64_mergeRound (XXH64_mergeRound (XXH64_mergeRound h64 v.v1) v.v2) v.v3)
        v.v4, p)
    else (seed + PRIME64_5, input)
  let (h64, p) := eights (p.length / 8) (h64 + BitVec.ofNat 64 input.length) p
  let (h64, p) :=
    if 4 ≤ p.length then
      (XXH_rotl64 (h64 ^^^ XXH_readLE 4 p * PRIME64_1) 23 * PRIME64_2 + PRIME64_3, p.drop 4)
    else (h64, p)
  avalanche (singles h64 p)

/-- The hash family of a filter, with its two numbers of 128 bits. -/
structure TwoIndependentMultiplyShift where
  multiply : BitVec 128
  add : BitVec 128

/-- The first number that `random` gives, and the loop over the next ones. -/
def drawn (first : BitVec 32) (next : List (BitVec 32)) : BitVec 128 :=
  next.foldl (fun v r => v <<< 32 ||| r.setWidth 128) (first.setWidth 128)

/-- The constructor, with the numbers that `random` gives. -/
def TwoIndependentMultiplyShift.new (r : Fin 10 → BitVec 32) : TwoIndependentMultiplyShift where
  multiply := drawn (r 0) [r 1, r 2, r 3, r 4]
  add := drawn (r 5) [r 6, r 7, r 8, r 9]

/-- `operator()`. -/
def TwoIndependentMultiplyShift.hash (h : TwoIndependentMultiplyShift) (key : BitVec 64) :
    BitVec 64 :=
  ((h.add + h.multiply * key.setWidth 128) >>> 64).setWidth 64

/-! ### A filter -/

/-- `bits_per_item`. -/
def bitsPerItem : ℕ := 16

/-- The number of bits of one key: `k`, 16 times the logarithm of 2 rounded. -/
def bitsOfKey : ℕ := 11

/-- A `bloom_t`: a `BloomFilter`, whose template argument `k` is the number of bits of a key. -/
structure Bloom (k : ℕ) where
  hasher : TwoIndependentMultiplyShift
  data : List (BitVec 64)

/-- `arrayLength`, in numbers of 64 bits. -/
def arrayLength (totalItems : ℕ) : ℕ :=
  (totalItems * bitsPerItem % 2 ^ 64 + 63) % 2 ^ 64 / 64

/-- `bloom_create`, with the numbers that `random` gives. -/
def bloomCreate (k : ℕ) (random : Fin 10 → BitVec 32) (totalItems : ℕ) : Bloom k :=
  ⟨.new random, List.replicate (arrayLength totalItems) 0⟩

section Bloom

variable {k n : ℕ} {keys : Finset Bytes} {key : Bytes}

/-- The hash under which a filter has a key. -/
def Bloom.hashOf (b : Bloom k) (key : Bytes) : BitVec 64 := b.hasher.hash (XXH64 key 0)

/-- `bloom_add`. -/
def Bloom.add (b : Bloom k) (key : Bytes) : Bloom k :=
  ⟨b.hasher, BloomFilter.add k b.data (b.hashOf key)⟩

/-- `Contain`; `branchless` is a template argument. -/
def Bloom.contain (branchless : Bool) (b : Bloom k) (key : BitVec 64) : Bool :=
  if branchless && 3 ≤ k then BloomFilter.containBranchless k b.data (b.hasher.hash key)
  else BloomFilter.contain k b.data (b.hasher.hash key)

/-- `bloom_contains`. -/
def Bloom.contains (b : Bloom k) (key : Bytes) : Bool := b.contain false (XXH64 key 0)

/-- The filter, made for `n` keys, has been filled with these. -/
def Bloom.Holds (b : Bloom k) (n : ℕ) (keys : Finset Bytes) : Prop :=
  ∃ random, ∃ added : List Bytes,
    added.toFinset = keys ∧ b = added.foldl Bloom.add (bloomCreate k random n)

variable {b : Bloom k}

/-- **Both instances of the template give the same answers**, whatever bits are set. -/
theorem Bloom.branchless_eq (b : Bloom k) (key : BitVec 64) :
    b.contain true key = b.contain false key := by
  unfold Bloom.contain
  by_cases hk : 3 ≤ k
  · rw [if_pos (by simpa using hk), if_neg (by simp), BloomFilter.containBranchless_eq hk]
  · rw [if_neg (by simpa using hk), if_neg (by simp)]

theorem Bloom.foldl_add (b : Bloom k) (added : List Bytes) :
    added.foldl Bloom.add b =
      ⟨b.hasher, (added.map b.hashOf).foldl (BloomFilter.add k) b.data⟩ := by
  induction added generalizing b with
  | nil => rfl
  | cons key added ih => exact ih (b.add key)

/-- A key is found if each of its positions is one of an added key. -/
theorem Bloom.Holds.contains_iff (h : b.Holds n keys) (hn : 0 < arrayLength n) :
    b.contains key = true ↔
      ∀ p ∈ BloomFilter.positions k (arrayLength n) (b.hashOf key),
        ∃ key' ∈ keys, p ∈ BloomFilter.positions k (arrayLength n) (b.hashOf key') := by
  obtain ⟨random, added, rfl, rfl⟩ := h
  rw [Bloom.foldl_add]
  dsimp only [Bloom.contains, Bloom.contain, Bloom.hashOf, bloomCreate]
  rw [Bool.false_and, if_neg Bool.false_ne_true, BloomFilter.contain_foldl_add hn]
  simp only [List.mem_map, exists_exists_and_eq_and, List.mem_toFinset]
  exact Iff.rfl

/-- No added key is missed. -/
theorem Bloom.Holds.contains (h : b.Holds n keys) (hn : 0 < arrayLength n) (hkey : key ∈ keys) :
    b.contains key = true :=
  (h.contains_iff hn).2 fun _ hp => ⟨key, hkey, hp⟩

theorem holds_fill (random : Fin 10 → BitVec 32) (added : List Bytes) :
    (added.foldl Bloom.add (bloomCreate k random n)).Holds n added.toFinset :=
  ⟨random, added, rfl, rfl⟩

theorem holds_create (random : Fin 10 → BitVec 32) : (bloomCreate k random n).Holds n ∅ :=
  holds_fill random []

theorem Bloom.Holds.add (h : b.Holds n keys) (key : Bytes) :
    (b.add key).Holds n (insert key keys) := by
  obtain ⟨random, added, rfl, rfl⟩ := h
  refine ⟨random, added ++ [key], ?_, ?_⟩
  · rw [List.toFinset_append, Finset.union_comm]
    rfl
  · rw [List.foldl_append]
    rfl

end Bloom

/-! ### The store with its filters -/

/-- The number of keys that the two filters are made for. -/
def totalItems : ℕ := 50000000

/-- The variables `current_bloom` and `last_bloom` beside the others.  The sets of keys of `store`
are empty: only the bits answer. -/
structure FilteredStore (k : ℕ) where
  store : Store
  currentBloom : Bloom k
  lastBloom : Bloom k

section FilteredStore

variable {k : ℕ} (lib : Conversions) (compress : Bytes → Option Bytes)

def FilteredStore.bloom (f : FilteredStore k) : Side → Bloom k
  | .current => f.currentBloom
  | .last => f.lastBloom

/-- The store without its sets of keys. -/
def Store.withoutKeys (s : Store) : Store :=
  { s with current := { s.current with bloom := ∅ }, last := { s.last with bloom := ∅ } }

/-- The request, with what the bits say of the id. -/
def FilteredStore.ask (f : FilteredStore k) : Request → Request
  | .op (.addChild traceId child ttl now a) =>
    .op (.addChild traceId child ttl now { a with
      inLastBloom := f.lastBloom.contains traceId
      inCurrentBloom := f.currentBloom.contains traceId })
  | .get id _ _ => .get id (f.lastBloom.contains id) (f.currentBloom.contains id)
  | r => r

/-- The loop that fills a new filter with the keys of `ts`. -/
def fill (random : Fin 10 → BitVec 32) (e : StoreEnv) : Bloom k :=
  (e.env.file .ts).keys.foldl Bloom.add (bloomCreate k random totalItems)

/-- `tm_transaction_store_init`; `random` gives the numbers for the two hashers. -/
def FilteredStore.init (random : Side → Fin 10 → BitVec 32) (current last : DbName → Db Stored)
    (nowCurrent nowLast : ℕ) (defaultLookbackSecs : Int32) : FilteredStore k :=
  let s := tmTransactionStoreInit current last nowCurrent nowLast defaultLookbackSecs true
  ⟨s.withoutKeys, fill (random .current) s.current, fill (random .last) s.last⟩

/-- The filters after a request. -/
def FilteredStore.blooms (f : FilteredStore k) (random : Side → Fin 10 → BitVec 32) :
    Request → Bloom k × Bloom k
  | .op (.put id entry ttl now ok) =>
    if (tmTransactionStorePut lib compress f.store id entry ttl now ok).2 then
      (f.currentBloom.add id, f.lastBloom)
    else (f.currentBloom, f.lastBloom)
  | .op (.deleteOldTransactions now _ _) =>
    if f.store.Due now then (bloomCreate k (random .current) totalItems, f.currentBloom)
    else (f.currentBloom, f.lastBloom)
  | .restart nowCurrent nowLast =>
    let s := tmTransactionStoreRestart f.store nowCurrent nowLast
    (fill (random .current) s.current, fill (random .last) s.last)
  | _ => (f.currentBloom, f.lastBloom)

/-- A request, with the random numbers for new filters. -/
def FilteredStore.serve (f : FilteredStore k) (q : Request × (Side → Fin 10 → BitVec 32)) :
    FilteredStore k :=
  let (currentBloom, lastBloom) := f.blooms lib compress q.2 q.1
  ⟨(f.store.serve lib compress (f.ask q.1)).withoutKeys, currentBloom, lastBloom⟩

/-! ### The sets of keys -/

/-- The store with sets of keys does what this one does: it holds the same, and its sets are the
keys that the filters have been filled with. -/
structure Represents (s : Store) (f : FilteredStore k) : Prop where
  twins : Twins s f.store
  used : s.useBloomFilters = true
  asked : f.store.useBloomFilters = true
  keyless : ∀ side, (f.store.side side).bloom = ∅
  holds : ∀ side, (f.bloom side).Holds totalItems (s.side side).bloom

variable {lib compress} {s s' : Store} {f : FilteredStore k} {side : Side} {id : Bytes}

theorem arrayLength_pos : 0 < arrayLength totalItems := by
  norm_num [arrayLength, totalItems, bitsPerItem]

theorem twins_withoutKeys (h : Twins s s') : Twins s s'.withoutKeys := by
  refine ⟨fun side => ?_, h.lookback⟩
  obtain ⟨henv, hdbi, hjaeger, hopen⟩ := h.sides side
  cases side with
  | current => exact ⟨henv, hdbi, hjaeger, hopen⟩
  | last => exact ⟨henv, hdbi, hjaeger, hopen⟩

@[simp] theorem bloom_withoutKeys (s : Store) (side : Side) :
    (s.withoutKeys.side side).bloom = ∅ := by
  cases side <;> rfl

/-- Beside a set of keys, the bits alone decide. -/
theorem Represents.bloomContains_eq (h : Represents s f) (side : Side) (id : Bytes) :
    bloomContains (s.side side).bloom id ((f.bloom side).contains id) =
      bloomContains (f.store.side side).bloom id ((f.bloom side).contains id) := by
  rw [h.keyless side]
  unfold bloomContains
  by_cases hmem : id ∈ (s.side side).bloom
  · rw [(h.holds side).contains arrayLength_pos hmem, Bool.or_true, Bool.or_true]
  · rw [decide_eq_false hmem, decide_eq_false (Finset.notMem_empty id)]

theorem Represents.lookupIn_eq (h : Represents s f) (side : Side) (id : Bytes) (ok : Bool) :
    s.lookupIn side id ((f.bloom side).contains id) ok =
      f.store.lookupIn side id ((f.bloom side).contains id) ok := by
  unfold Store.lookupIn
  rw [h.bloomContains_eq side id, h.used, h.asked, (h.twins.sides side).env,
    (h.twins.sides side).dbi]

theorem Represents.findIn_eq (h : Represents s f) (side : Side) (id : Bytes) :
    s.findIn side id ((f.bloom side).contains id) =
      f.store.findIn side id ((f.bloom side).contains id) := by
  unfold Store.findIn
  rw [h.bloomContains_eq side id, h.used, h.asked, (h.twins.sides side).env,
    (h.twins.sides side).dbi]

/-! ### One request -/

theorem Represents.parentLookup_eq (h : Represents s f) (traceId : Bytes) (a : Answers)
    (hlast : a.inLastBloom = f.lastBloom.contains traceId)
    (hcurrent : a.inCurrentBloom = f.currentBloom.contains traceId) :
    parentLookup s traceId a = parentLookup f.store traceId a := by
  have hl := h.lookupIn_eq .last traceId a.readLast
  have hc := h.lookupIn_eq .current traceId a.readCurrent
  dsimp only [FilteredStore.bloom] at hl hc
  unfold parentLookup
  rw [hlast, hcurrent, hl, hc]

/-- Whether a root is put. -/
theorem Represents.put_eq (h : Represents s f) (id : Bytes) (entry : Entry) (ttl : Int32)
    (now : ℕ) (ok : Bool) :
    (tmTransactionStorePut lib compress s id entry ttl now ok).2 =
      (tmTransactionStorePut lib compress f.store id entry ttl now ok).2 := by
  have hput := fun v => h.twins.put_eq .current id v
  dsimp only [Store.side] at hput
  dsimp only [tmTransactionStorePut]
  rw [h.twins.ttl, hput]
  cases ok with
  | false => rfl
  | true =>
    rw [if_pos rfl, if_pos rfl]
    split
    · rfl
    · rfl

/-- What a put adds to the sets. -/
theorem bloom_put (hused : s.useBloomFilters = true) (id : Bytes) (entry : Entry) (ttl : Int32)
    (now : ℕ) (ok : Bool) :
    let r := tmTransactionStorePut lib compress s id entry ttl now ok
    r.1.current.bloom = (if r.2 then insert id s.current.bloom else s.current.bloom) ∧
      r.1.last = s.last := by
  dsimp only [tmTransactionStorePut]
  cases ok with
  | false => exact ⟨rfl, rfl⟩
  | true =>
    rw [if_pos rfl]
    split
    · exact ⟨if_pos hused, rfl⟩
    · exact ⟨rfl, rfl⟩

@[simp] theorem bloom_openEnvironment (file : DbName → Db Stored) (now : ℕ)
    (bloom : Finset Bytes) : (openEnvironment file now bloom).bloom = bloom := by
  dsimp only [openEnvironment]
  split
  · rfl
  · rfl

/-- The filters and the sets after a request. -/
theorem Represents.holds_blooms (h : Represents s f) (hopen : s.Opened) (r : Request)
    (random : Side → Fin 10 → BitVec 32) :
    (f.blooms lib compress random r).1.Holds totalItems
        (s.serve lib compress (f.ask r)).current.bloom ∧
      (f.blooms lib compress random r).2.Holds totalItems
        (s.serve lib compress (f.ask r)).last.bloom := by
  have hcurrent : f.currentBloom.Holds totalItems s.current.bloom := h.holds .current
  have hlast : f.lastBloom.Holds totalItems s.last.bloom := h.holds .last
  cases r with
  | op op =>
    cases op with
    | put id entry ttl now ok =>
      obtain ⟨hbloom, hsame⟩ := @bloom_put lib compress s h.used id entry ttl now ok
      dsimp only [FilteredStore.blooms, FilteredStore.ask, Store.serve, Store.apply]
      rw [hbloom, hsame, ← h.put_eq]
      split_ifs
      · exact ⟨hcurrent.add id, hlast⟩
      · exact ⟨hcurrent, hlast⟩
    | addChild traceId child ttl now a =>
      have hsame := (addChild_blooms lib compress hopen traceId child ttl now { a with
        inLastBloom := f.lastBloom.contains traceId
        inCurrentBloom := f.currentBloom.contains traceId }).1
      have hc := hsame .current
      have hl := hsame .last
      dsimp only [Store.side] at hc hl
      dsimp only [FilteredStore.blooms, FilteredStore.ask, Store.serve, Store.apply]
      rw [hc, hl]
      exact ⟨hcurrent, hlast⟩
    | markTraceable traceId ok =>
      have hsame : (tmTransactionStoreMarkTraceable s traceId ok).current.bloom =
          s.current.bloom ∧ (tmTransactionStoreMarkTraceable s traceId ok).last = s.last := by
        unfold tmTransactionStoreMarkTraceable
        split_ifs
        · split
          · exact ⟨rfl, rfl⟩
          · exact ⟨rfl, rfl⟩
        · exact ⟨rfl, rfl⟩
      dsimp only [FilteredStore.blooms, FilteredStore.ask, Store.serve, Store.apply]
      rw [hsame.1, hsame.2]
      exact ⟨hcurrent, hlast⟩
    | deleteOldTransactions now nowCurrent nowLast =>
      have hdue : f.store.Due now ↔ s.Due now := by
        have hms : s.current.openMs = f.store.current.openMs := (h.twins.sides .current).openMs
        unfold Store.Due
        rw [hms]
      dsimp only [FilteredStore.blooms, FilteredStore.ask, Store.serve, Store.apply,
        tmTransactionStoreDeleteOldTransactions]
      by_cases hnow : s.Due now
      · have hrotates : now > s.current.openMs ∧ now - s.current.openMs > tenMinutesMs := hnow
        rw [if_pos (hdue.2 hnow), if_pos hrotates, bloom_openEnvironment, bloom_openEnvironment]
        exact ⟨holds_create _, hcurrent⟩
      · have hstays : ¬ (now > s.current.openMs ∧ now - s.current.openMs > tenMinutesMs) := hnow
        rw [if_neg (hdue.not.2 hnow), if_neg hstays]
        exact ⟨hcurrent, hlast⟩
  | get id inLastBloom inCurrentBloom => exact ⟨hcurrent, hlast⟩
  | restart nowCurrent nowLast =>
    have htwins := twins_restart h.twins nowCurrent nowLast
    have hc : _ = (tmTransactionStoreRestart f.store nowCurrent nowLast).current.env :=
      (htwins.sides .current).env
    have hl : _ = (tmTransactionStoreRestart f.store nowCurrent nowLast).last.env :=
      (htwins.sides .last).env
    dsimp only [FilteredStore.blooms, FilteredStore.ask, Store.serve, fill]
    rw [← hc, ← hl]
    exact ⟨holds_fill _ _, holds_fill _ _⟩

/-- One request to both stores. -/
theorem Represents.serve (h : Represents s f) (hopen : s.Opened)
    (q : Request × (Side → Fin 10 → BitVec 32)) :
    Represents (s.serve lib compress (f.ask q.1)) (f.serve lib compress q) := by
  obtain ⟨r, random⟩ := q
  have htwins : Twins (s.serve lib compress (f.ask r)) (f.store.serve lib compress (f.ask r)) := by
    cases r with
    | op op =>
      cases op with
      | put id entry ttl now ok => exact twins_put h.twins id entry ttl now ok
      | addChild traceId child ttl now a =>
        exact twins_addChild h.twins traceId child ttl now _ (h.parentLookup_eq traceId _ rfl rfl)
      | markTraceable traceId ok => exact @twins_markTraceable _ _ lib compress h.twins traceId ok
      | deleteOldTransactions now nowCurrent nowLast =>
        exact @twins_deleteOldTransactions _ _ lib compress h.twins now nowCurrent nowLast
    | get id inLastBloom inCurrentBloom => exact h.twins
    | restart nowCurrent nowLast => exact twins_restart h.twins nowCurrent nowLast
  have hused : ∀ {s : Store}, s.Opened → s.useBloomFilters = true →
      (s.serve lib compress (f.ask r)).useBloomFilters = true := by
    intro s hs hon
    cases r with
    | op op =>
      cases op with
      | addChild traceId child ttl now a => exact (useBloom_apply lib compress hs _).trans hon
      | _ => exact (useBloom_apply lib compress hs _).trans hon
    | get id inLastBloom inCurrentBloom => exact hon
    | restart nowCurrent nowLast => exact hon
  have hholds := @Represents.holds_blooms k lib compress s f h hopen r random
  refine ⟨twins_withoutKeys htwins, hused hopen h.used,
    hused (h.twins.opened hopen) h.asked, bloom_withoutKeys _, fun side => ?_⟩
  cases side with
  | current => exact hholds.1
  | last => exact hholds.2

/-! ### Runs -/

section Unfiltered

variable {off : Store} (hoff : off.useBloomFilters = false)

include hoff

/-- Without filters the bits are not asked. -/
theorem lookupIn_unfiltered (side : Side) (id : Bytes) (inBloom inBloom' ok : Bool) :
    off.lookupIn side id inBloom ok = off.lookupIn side id inBloom' ok := by
  unfold Store.lookupIn
  simp only [hoff, Bool.false_eq_true, false_and, if_false]

theorem findIn_unfiltered (side : Side) (id : Bytes) (inBloom inBloom' : Bool) :
    off.findIn side id inBloom = off.findIn side id inBloom' := by
  unfold Store.findIn
  simp only [hoff, Bool.false_eq_true, false_and, if_false]

theorem parentLookup_unfiltered (traceId : Bytes) (a : Answers) (inLastBloom inCurrentBloom : Bool) :
    parentLookup off traceId { a with inLastBloom, inCurrentBloom } =
      parentLookup off traceId a := by
  unfold parentLookup
  rw [lookupIn_unfiltered hoff .last traceId inLastBloom a.inLastBloom,
    lookupIn_unfiltered hoff .current traceId inCurrentBloom a.inCurrentBloom]

theorem serve_ask (f : FilteredStore k) (r : Request) :
    off.serve lib compress (f.ask r) = off.serve lib compress r := by
  cases r with
  | op op =>
    cases op with
    | addChild traceId child ttl now a =>
      dsimp only [FilteredStore.ask, Store.serve, Store.apply, tmTransactionStoreAddChild]
      rw [parentLookup_unfiltered hoff]
      rfl
    | _ => rfl
  | _ => rfl

end Unfiltered

/-- The id, the key and the lookups of a request are those before the bits are asked. -/
theorem regular_ask {ids : Bytes → Prop} {r : Request} (h : r.Regular lib ids)
    (f : FilteredStore k) : (f.ask r).Regular lib ids := by
  cases r with
  | op op =>
    cases op with
    | _ => exact h
  | _ => exact h

/-- A store with bits and one without filters: the first one represents a store with sets of keys
that is the twin of the second one. -/
def Implements (ids : Bytes → Prop) (f : FilteredStore k) (off : Store) : Prop :=
  ∃ s, Represents s f ∧ Paired ids s off

theorem Implements.serve {ids : Bytes → Prop} {off : Store} (h : Implements ids f off)
    (hms : ¬ ids openMsKey) {q : Request × (Side → Fin 10 → BitVec 32)}
    (hq : q.1.Regular lib ids) :
    Implements ids (f.serve lib compress q) (off.serve lib compress q.1) := by
  obtain ⟨s, hs, hpaired⟩ := h
  have hserved := @Paired.serve _ _ _ _ compress hpaired hms _ (regular_ask hq f)
  rw [serve_ask hpaired.unfiltered] at hserved
  exact ⟨_, hs.serve hpaired.opened q, hserved⟩

theorem implements_init (ids : Bytes → Prop) (random : Side → Fin 10 → BitVec 32)
    (nowCurrent nowLast : ℕ) (defaultLookbackSecs : Int32) :
    Implements ids
      (FilteredStore.init random emptyFile emptyFile nowCurrent nowLast defaultLookbackSecs :
        FilteredStore k)
      (Store.fresh nowCurrent nowLast defaultLookbackSecs false) := by
  refine ⟨Store.fresh nowCurrent nowLast defaultLookbackSecs true, ⟨?_, rfl, rfl,
    bloom_withoutKeys _, fun side => ?_⟩, paired_fresh nowCurrent nowLast defaultLookbackSecs⟩
  · exact twins_withoutKeys ⟨fun _ => ⟨rfl, rfl, rfl, rfl⟩, rfl⟩
  · cases side with
    | current => exact holds_fill _ _
    | last => exact holds_fill _ _

/-- Every sequence of requests. -/
theorem Implements.foldl {ids : Bytes → Prop} {off : Store} (h : Implements ids f off)
    (hms : ¬ ids openMsKey) {requests : List (Request × (Side → Fin 10 → BitVec 32))}
    (hr : ∀ q ∈ requests, q.1.Regular lib ids) :
    Implements ids (requests.foldl (FilteredStore.serve lib compress) f)
      (requests.foldl (fun s q => s.serve lib compress q.1) off) :=
  List.foldl_rel h fun q hmem _ _ himplements => himplements.serve hms (hr q hmem)

/-- A record under an id is behind a filter that has the id. -/
theorem Implements.contains {ids : Bytes → Prop} {off : Store} (h : Implements ids f off)
    (hid : ids id) (hsome : (f.store.record side id).isSome = true) :
    (f.bloom side).contains id = true := by
  obtain ⟨s, hs, hpaired⟩ := h
  have hrecord : s.record side id = f.store.record side id := by
    unfold Store.record
    rw [(hs.twins.sides side).env]
  exact (hs.holds side).contains arrayLength_pos
    (hpaired.filtered hs.used side id hid (hrecord ▸ hsome))

theorem Implements.get_eq {ids : Bytes → Prop} {off : Store} (h : Implements ids f off)
    (j : JaegerEnv) (hid : ids id) (inLastBloom inCurrentBloom : Bool) :
    tmTransactionStoreGet j f.store id (f.lastBloom.contains id) (f.currentBloom.contains id) =
      tmTransactionStoreGet j off id inLastBloom inCurrentBloom := by
  obtain ⟨s, hs, hpaired⟩ := h
  have hsets : tmTransactionStoreGet j s id (f.lastBloom.contains id)
      (f.currentBloom.contains id) =
      tmTransactionStoreGet j off id (f.lastBloom.contains id) (f.currentBloom.contains id) :=
    get_eq_of_twins j hpaired.twins hpaired.opened hpaired.filtered hpaired.unfiltered hid _ _
  have hlast := hs.findIn_eq .last id
  have hcurrent := hs.findIn_eq .current id
  dsimp only [FilteredStore.bloom] at hlast hcurrent
  unfold tmTransactionStoreGet at hsets ⊢
  rw [hlast, hcurrent] at hsets
  rw [hsets, findIn_unfiltered hpaired.unfiltered .last id _ inLastBloom,
    findIn_unfiltered hpaired.unfiltered .current id _ inCurrentBloom]

theorem Implements.parentLookup_eq {ids : Bytes → Prop} {off : Store} (h : Implements ids f off)
    {traceId : Bytes} {child : Json} {ttl : Int32} {now : ℕ} {a : Answers}
    (hr : (Request.op (.addChild traceId child ttl now a)).Regular lib ids) :
    parentLookup f.store traceId { a with
        inLastBloom := f.lastBloom.contains traceId
        inCurrentBloom := f.currentBloom.contains traceId } = parentLookup off traceId a := by
  obtain ⟨s, hs, hpaired⟩ := h
  rw [← hs.parentLookup_eq traceId _ rfl rfl, ← parentLookup_unfiltered hpaired.unfiltered traceId a
    (f.lastBloom.contains traceId) (f.currentBloom.contains traceId)]
  have hasked : (Request.op (.addChild traceId child ttl now { a with
      inLastBloom := f.lastBloom.contains traceId
      inCurrentBloom := f.currentBloom.contains traceId })).Regular lib ids := regular_ask hr f
  exact hpaired.parentLookup_eq hasked

/-- **The bits change nothing.**  A store whose questions are answered by the bits of its two
filters, and one without filters, start in directories without files and serve the same requests.
Before each request the filters have every id whose record is in their environment; the request
finds the same in both stores, and afterwards the databases hold the same. -/
theorem bits_change_nothing (j : JaegerEnv) (compress : Bytes → Option Bytes)
    (random : Side → Fin 10 → BitVec 32) (nowCurrent nowLast : ℕ) (defaultLookbackSecs : Int32)
    (requests : List (Request × (Side → Fin 10 → BitVec 32)))
    (hreads : ∀ q ∈ requests, q.1.Reads)
    (hms : ∀ q ∈ requests, openMsKey ∉ q.1.id)
    (hapart : ∀ q ∈ requests, ∀ q' ∈ requests, ∀ key ∈ q'.1.childKey j.lib, key ∉ q.1.id)
    (before after : List (Request × (Side → Fin 10 → BitVec 32)))
    (q : Request × (Side → Fin 10 → BitVec 32)) (hrequests : requests = before ++ q :: after) :
    let on : FilteredStore bitsOfKey := before.foldl (FilteredStore.serve j.lib compress)
      (FilteredStore.init random emptyFile emptyFile nowCurrent nowLast defaultLookbackSecs)
    let off := before.foldl (fun s q => s.serve j.lib compress q.1)
      (Store.fresh nowCurrent nowLast defaultLookbackSecs false)
    (∀ side, ∀ q' ∈ requests, ∀ id ∈ q'.1.id, (on.store.record side id).isSome = true →
      (on.bloom side).contains id = true) ∧
    (∀ id inLastBloom inCurrentBloom, q.1 = .get id inLastBloom inCurrentBloom →
      tmTransactionStoreGet j on.store id (on.lastBloom.contains id)
          (on.currentBloom.contains id) =
        tmTransactionStoreGet j off id inLastBloom inCurrentBloom) ∧
    (∀ traceId child ttl now a, q.1 = .op (.addChild traceId child ttl now a) →
      parentLookup on.store traceId { a with
          inLastBloom := on.lastBloom.contains traceId
          inCurrentBloom := on.currentBloom.contains traceId } = parentLookup off traceId a) ∧
    ∀ side name, ((on.serve j.lib compress q).store.side side).env.file name =
      ((off.serve j.lib compress q.1).side side).env.file name := by
  have hregular : ∀ q ∈ requests, q.1.Regular j.lib fun id => ∃ q ∈ requests, id ∈ q.1.id :=
    fun q hq => ⟨fun id hid => ⟨q, hq, hid⟩,
      fun key hkey ⟨q', hq', hid⟩ => hapart q' hq' q hq key hkey hid, hreads q hq⟩
  have hnot : ¬ ∃ q ∈ requests, openMsKey ∈ q.1.id := fun ⟨q, hq, hid⟩ => hms q hq hid
  have hq : q.1.Regular j.lib fun id => ∃ q ∈ requests, id ∈ q.1.id :=
    hregular q (by simp [hrequests])
  have hbefore : ∀ q ∈ before, q.1.Regular j.lib fun id => ∃ q ∈ requests, id ∈ q.1.id :=
    fun q hq => hregular q (by simp [hrequests, hq])
  intro on off
  have himplements : Implements (fun id => ∃ q ∈ requests, id ∈ q.1.id) on off :=
    (implements_init _ random nowCurrent nowLast defaultLookbackSecs).foldl hnot hbefore
  obtain ⟨s, hs, hpaired⟩ := @Implements.serve _ _ compress _ _ _ himplements hnot _ hq
  refine ⟨fun side q' hq' id hid => himplements.contains ⟨q', hq', hid⟩, ?_, ?_,
    fun side name => ?_⟩
  · intro id inLastBloom inCurrentBloom hget
    have hid : ∃ q ∈ requests, id ∈ q.1.id := hq.1 id (by rw [hget]; rfl)
    exact himplements.get_eq j hid inLastBloom inCurrentBloom
  · intro traceId child ttl now a hadd
    exact himplements.parentLookup_eq (hadd ▸ hq)
  · rw [← (hs.twins.sides side).env, (hpaired.twins.sides side).env]

/-- The numbers that `random` gives are all the same. -/
def sevens : Side → Fin 10 → BitVec 32 := fun _ _ => 7

/-- A root is put, moves to the last environment, and its span comes after a restart. -/
theorem bits_change_nothing_aroundRestart :
    let on : FilteredStore bitsOfKey := (aroundRestart.map (·, sevens)).foldl
      (FilteredStore.serve plainText.lib fun _ => none)
      (FilteredStore.init sevens emptyFile emptyFile 1000 1000 300)
    let off := (aroundRestart.map (·, sevens)).foldl
      (fun s q => s.serve plainText.lib (fun _ => none) q.1) (Store.fresh 1000 1000 300 false)
    ∀ side name,
      ((on.serve plainText.lib (fun _ => none) (addSpan, sevens)).store.side side).env.file name =
        ((off.serve plainText.lib (fun _ => none) addSpan).side side).env.file name :=
  (bits_change_nothing plainText (fun _ => none) sevens 1000 1000 300
    (aroundRestart.map (·, sevens) ++ [(addSpan, sevens)])
    (by simp [aroundRestart, addSpan, Request.Reads, allPositive]; decide)
    (by decide) (by decide)
    (aroundRestart.map (·, sevens)) [] (addSpan, sevens) rfl).2.2.2

end FilteredStore

end Tracemate.TransactionStore
