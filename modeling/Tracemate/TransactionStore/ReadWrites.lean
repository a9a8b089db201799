import Tracemate.TransactionStore.Blooms
import Tracemate.TransactionStore.Libmtev
import Tracemate.TransactionStore.Writes

/-!
# Reading what was put

`tm_transaction_store_put` writes to the current environment, and `tm_transaction_store_get` reads
the last one first.

* `Journal`: a store, and for every id the document that was put last, with its environment;
* `ReadsBack`: a get finds that document, until it is rotated out;
* `KeepsReadable`: no older record of the last environment hides a put, no child takes its place,
  and its text fits the buffer for the decompressed text;
* `Kept`, `Journal.Consistent`: the invariant;
* `Consistent.apply`, `readsBack_of_keepsReadable`: one operation, and runs.
-/

namespace Tracemate.TransactionStore

open CStr JsonC Lmdb Runs

variable (j : JaegerEnv) (compress : Bytes → Option Bytes)

/-- The document of a root record. -/
def JaegerEnv.documentOf (r : StoredRoot) : Option Json :=
  (j.text r.compressed r.data).bind j.parse

/-! ### The document that was put last -/

/-- The store, and for every id the document of the last put that succeeded, with the environment
in which it is now; `none` before the first put and after the record has been rotated out. -/
structure Journal where
  store : Store
  latest : Bytes → Option (Side × Json)

/-- Where a record is after a rotation. -/
def rotated : Side × Json → Option (Side × Json)
  | (.current, document) => some (.last, document)
  | (.last, _) => none

/-- The documents that were put last, after an operation. -/
def Journal.latestAfter (h : Journal) : Op → Bytes → Option (Side × Json)
  | .put id entry ttl now ok =>
    if (tmTransactionStorePut j.lib compress h.store id entry ttl now ok).2 then
      Function.update h.latest id (some (.current, entry.data))
    else h.latest
  | .deleteOldTransactions now _ _ =>
    if h.store.Due now then fun id => (h.latest id).bind rotated else h.latest
  | .addChild _ _ _ _ _ => h.latest
  | .markTraceable _ _ => h.latest

def Journal.apply (h : Journal) (op : Op) : Journal :=
  ⟨h.store.apply j.lib compress op, h.latestAfter j compress op⟩

/-- One operation of a run. -/
def journalStep (h : Journal) (op : Op) (h' : Journal) : Prop := h.apply j compress op = h'

/-- A get of an id finds the document that was put last, whatever the filters say of other keys. -/
def ReadsBack (h : Journal) : Prop :=
  ∀ id side document, h.latest id = some (side, document) → ∀ inLastBloom inCurrentBloom,
    ∃ entry, tmTransactionStoreGet j h.store id inLastBloom inCurrentBloom = some entry ∧
      entry.data = some document

/-- The text of the document, if it is compressed, fits the buffer into which it is decompressed;
`compressBound` is `mtev_compress_bound`. -/
def FitsBuffer (compressBound : ℕ → ℕ) (document : Json) : Prop :=
  ∀ data, compress (j.lib.toJsonString document) = some data →
    (j.lib.toJsonString document).length ≤ compressBound data.length

/-- What the record says that a get of the id finds first: the document itself. -/
def Agrees (record : Option Stored) (document : Json) : Prop :=
  ∀ v, record = some v → ∃ r, v = .root r ∧ j.documentOf r = some document

/-- The operation keeps the documents readable that were put last.  A put finds no record under the
id in the last environment, unless that is a root record of the same document; a child is not
written over a root record or, in the last environment, in front of one. -/
def KeepsReadable (compressBound : ℕ → ℕ) (h : Journal) : Op → Prop
  | .put id entry _ _ ok => ok = true → ValidKey id →
    FitsBuffer j compress compressBound entry.data ∧ Agrees j (h.store.record .last id) entry.data
  | .addChild traceId child _ _ a => ∀ target, childTarget j.lib h.store traceId child a = some target →
    ∀ latest, h.latest target.2 = some latest → target.1 = .current ∧ latest.1 = .last
  | .markTraceable _ _ => True
  | .deleteOldTransactions _ _ _ => True

/-- The text of the document that is put is parsed as the document. -/
def Op.Parses : Op → Prop
  | .put _ entry _ _ _ => j.parse (j.lib.toJsonString entry.data) = some entry.data
  | _ => True

variable {j compress} {compressBound : ℕ → ℕ} {s : Store} {h : Journal} {side : Side} {id : Bytes}
  {document : Json}

/-! ### Gets -/

/-- A lookup behind the filter of an environment. -/
theorem findIn_eq_record (hopen : s.Opened) (side : Side) (id : Bytes) (inBloom : Bool) :
    s.findIn side id inBloom =
      if s.useBloomFilters = true ∧ bloomContains (s.side side).bloom id inBloom = false then none
      else s.record side id := by
  unfold Store.findIn
  split_ifs with hbloom
  · rfl
  · cases hrecord : s.record side id with
    | some v => rw [(get_ts hopen side side id v).2 hrecord]
    | none =>
      split
      · next v hv =>
        rw [get_ts hopen] at hv
        exact absurd (hrecord.symm.trans hv) (by simp)
      · rfl

/-- The record under the id, where a get finds it: the environment holds it, its filter says so,
and the last environment has nothing else under the id. -/
structure Kept (j : JaegerEnv) (s : Store) (id : Bytes) (side : Side) (document : Json) : Prop where
  holds : ∃ r, s.record side id = some (.root r) ∧ j.documentOf r = some document
  first : Agrees j (s.record .last id) document
  filtered : s.useBloomFilters = true → id ∈ (s.side side).bloom

/-- What a get finds, it finds exactly if the record is read as the document. -/
theorem get_of_findIn {inLastBloom inCurrentBloom : Bool} {v : Stored}
    (hfound : s.findIn .last id inLastBloom = some v ∨
      (s.findIn .last id inLastBloom = none ∧ s.findIn .current id inCurrentBloom = some v)) :
    (∃ got, tmTransactionStoreGet j s id inLastBloom inCurrentBloom = some got ∧
      got.data = some document) ↔ j.documentOf (j.asRoot v) = some document := by
  have hget : tmTransactionStoreGet j s id inLastBloom inCurrentBloom =
      (j.text (j.asRoot v).compressed (j.asRoot v).data).map fun text =>
        ⟨(j.asRoot v).firstSeenMs, (j.asRoot v).lastModifiedMs, j.parse text⟩ := by
    unfold tmTransactionStoreGet
    rcases hfound with hlast | ⟨hlast, hcurrent⟩
    · simp only [hlast]
      cases j.text (j.asRoot v).compressed (j.asRoot v).data <;> rfl
    · simp only [hlast, hcurrent]
      cases j.text (j.asRoot v).compressed (j.asRoot v).data <;> rfl
  unfold JaegerEnv.documentOf
  rw [hget]
  cases j.text (j.asRoot v).compressed (j.asRoot v).data with
  | none => simp
  | some text => simp

/-- A record passes the filter that holds its key. -/
theorem findIn_of_filtered (hopen : s.Opened) {v : Stored}
    (hfiltered : s.useBloomFilters = true → id ∈ (s.side side).bloom)
    (hrecord : s.record side id = some v) (inBloom : Bool) : s.findIn side id inBloom = some v := by
  rw [findIn_eq_record hopen, if_neg, hrecord]
  rintro ⟨huse, hno⟩
  have hmem := hfiltered huse
  simp [bloomContains, hmem] at hno

/-- A get finds a document that is kept behind the filter of its environment, unless it finds
something else in the last environment. -/
theorem get_of_first (hopen : s.Opened)
    (hholds : ∃ r, s.record side id = some (.root r) ∧ j.documentOf r = some document)
    (hfirst : ∀ v, s.record .last id = some v → j.documentOf (j.asRoot v) = some document)
    (hfiltered : s.useBloomFilters = true → id ∈ (s.side side).bloom)
    (inLastBloom inCurrentBloom : Bool) :
    ∃ entry, tmTransactionStoreGet j s id inLastBloom inCurrentBloom = some entry ∧
      entry.data = some document := by
  cases hlast : s.findIn .last id inLastBloom with
  | some v =>
    have hrecord := hlast
    rw [findIn_eq_record hopen] at hrecord
    split_ifs at hrecord
    exact (get_of_findIn (.inl hlast)).2 (hfirst v hrecord)
  | none =>
    obtain ⟨r, hrecord, hr⟩ := hholds
    have hpass := findIn_of_filtered hopen hfiltered hrecord
    cases side with
    | current => exact (get_of_findIn (.inr ⟨hlast, hpass inCurrentBloom⟩)).2 hr
    | last =>
      rw [hpass inLastBloom] at hlast
      cases hlast

/-- A get finds the document. -/
theorem Kept.get (h : Kept j s id side document) (hopen : s.Opened)
    (inLastBloom inCurrentBloom : Bool) :
    ∃ entry, tmTransactionStoreGet j s id inLastBloom inCurrentBloom = some entry ∧
      entry.data = some document := by
  refine get_of_first hopen h.holds (fun v hv => ?_) h.filtered inLastBloom inCurrentBloom
  obtain ⟨r, rfl, hr⟩ := h.first v hv
  exact hr

/-! ### One operation -/

/-- Every document that was put last is kept. -/
structure Journal.Consistent (j : JaegerEnv) (h : Journal) : Prop where
  opened : h.store.Opened
  kept : ∀ id side document, h.latest id = some (side, document) →
    Kept j h.store id side document

theorem Journal.Consistent.readsBack (h : Journal) (hc : h.Consistent j) : ReadsBack j h :=
  fun id side document hlatest => (hc.kept id side document hlatest).get hc.opened

/-- The time of the last change is no part of the document. -/
theorem SameRecord.agrees {now : ℕ} {before after : Option Stored}
    (h : SameRecord now before after) (hagrees : Agrees j before document) :
    Agrees j after document := by
  obtain rfl | rfl := h
  · exact hagrees
  · intro v hv
    obtain ⟨w, hw, rfl⟩ := Option.map_eq_some_iff.1 hv
    obtain ⟨r, rfl, hr⟩ := hagrees w hw
    exact ⟨_, rfl, hr⟩

theorem SameRecord.holds {now : ℕ} {before after : Option Stored} (h : SameRecord now before after)
    (hholds : ∃ r, before = some (.root r) ∧ j.documentOf r = some document) :
    ∃ r, after = some (.root r) ∧ j.documentOf r = some document := by
  obtain ⟨r, rfl, hr⟩ := hholds
  obtain rfl | rfl := h
  · exact ⟨r, rfl, hr⟩
  · exact ⟨_, rfl, hr⟩

/-- A record stays kept if the records under its id are the same and its filter has not lost it. -/
theorem Kept.of_same {s' : Store} {now : ℕ} (h : Kept j s id side document)
    (huse : s'.useBloomFilters = s.useBloomFilters)
    (hbloom : (s.side side).bloom ⊆ (s'.side side).bloom)
    (hside : SameRecord now (s.record side id) (s'.record side id))
    (hlast : SameRecord now (s.record .last id) (s'.record .last id)) :
    Kept j s' id side document where
  holds := hside.holds h.holds
  first := hlast.agrees h.first
  filtered hon := hbloom (h.filtered (huse ▸ hon))

/-- What is stored of a document is decompressed to its text. -/
theorem text_storeString
    (hdecompress : ∀ text data, compress text = some data →
      text.length ≤ compressBound data.length → j.decompress data = some text)
    (hfits : FitsBuffer j compress compressBound document) :
    j.text (storeString j.lib compress document).1 (storeString j.lib compress document).2 =
      some (j.lib.toJsonString document) := by
  unfold storeString JaegerEnv.text
  cases hcompress : compress (j.lib.toJsonString document) with
  | none => rfl
  | some data =>
    dsimp only
    rw [if_pos rfl]
    exact hdecompress _ data hcompress (hfits data hcompress)

/-- The record that is put is a root record of the document. -/
theorem documentOf_rootRecord
    (hdecompress : ∀ text data, compress text = some data →
      text.length ≤ compressBound data.length → j.decompress data = some text)
    {entry : Entry} (hparse : j.parse (j.lib.toJsonString entry.data) = some entry.data)
    (hfits : FitsBuffer j compress compressBound entry.data) (ttl : Int32) (now : ℕ) :
    j.documentOf (rootRecord j.lib compress s entry ttl now) = some entry.data := by
  unfold JaegerEnv.documentOf rootRecord
  rw [text_storeString hdecompress hfits]
  exact hparse

section Step

variable (hdecompress : ∀ text data, compress text = some data →
  text.length ≤ compressBound data.length → j.decompress data = some text)

include hdecompress

theorem consistent_put (hc : h.Consistent j) {entry : Entry} {ttl : Int32} {now : ℕ} {ok : Bool}
    (hparse : (Op.put id entry ttl now ok).Parses j)
    (hguard : KeepsReadable j compress compressBound h (.put id entry ttl now ok)) :
    (h.apply j compress (.put id entry ttl now ok)).Consistent j := by
  refine ⟨(apply_spec j.lib compress hc.opened _).1, fun id' side document hlatest => ?_⟩
  have hput := put_eq j.lib compress hc.opened id entry ttl now ok
  dsimp only [Journal.apply, Journal.latestAfter, Store.apply] at hlatest ⊢
  rw [hput] at hlatest ⊢
  by_cases hwrite : ok = true ∧ ValidKey id
  · rw [if_pos hwrite] at hlatest ⊢
    rw [if_pos rfl] at hlatest
    obtain ⟨hfits, hagrees⟩ := hguard hwrite.1 hwrite.2
    by_cases hid : id' = id
    · subst hid
      rw [Function.update_self] at hlatest
      obtain ⟨rfl, rfl⟩ := Prod.mk.inj (Option.some.inj hlatest)
      refine ⟨⟨rootRecord j.lib compress h.store entry ttl now, ?_,
        documentOf_rootRecord hdecompress hparse hfits ttl now⟩, ?_, fun huse => ?_⟩
      · rw [record_addBloom, record_write, if_pos ⟨rfl, rfl⟩]
      · rw [record_addBloom, record_write, if_neg fun hside => by cases hside.1]
        exact hagrees
      · have hon : h.store.useBloomFilters = true := huse
        show id' ∈ if h.store.useBloomFilters then insert id' h.store.current.bloom
          else h.store.current.bloom
        rw [if_pos hon]
        exact Finset.mem_insert_self id' _
    · rw [Function.update_of_ne hid] at hlatest
      have hsame : ∀ side', SameRecord now (h.store.record side' id')
          (((h.store.write .current .ts id (.root (rootRecord j.lib compress h.store entry ttl
            now))).addBloom id).record side' id') := fun side' => by
        rw [record_addBloom, record_write, if_neg fun hk => hid hk.2]
        exact .inl rfl
      refine (hc.kept id' side document hlatest).of_same rfl ?_ (hsame side) (hsame .last)
      cases side with
      | last => exact subset_rfl
      | current =>
        show h.store.current.bloom ⊆ if h.store.useBloomFilters then
          insert id h.store.current.bloom else h.store.current.bloom
        split_ifs
        · exact Finset.subset_insert id _
        · exact subset_rfl
  · rw [if_neg hwrite] at hlatest ⊢
    exact hc.kept id' side document hlatest

omit hdecompress in
theorem consistent_addChild (hc : h.Consistent j) {traceId : Bytes} {child : Json} {ttl : Int32}
    {now : ℕ} {a : Answers}
    (hguard : KeepsReadable j compress compressBound h (.addChild traceId child ttl now a)) :
    (h.apply j compress (.addChild traceId child ttl now a)).Consistent j := by
  refine ⟨(apply_spec j.lib compress hc.opened _).1, fun id side document hlatest => ?_⟩
  have hkept := hc.kept id side document hlatest
  obtain ⟨hbloom, huse⟩ := addChild_blooms j.lib compress hc.opened traceId child ttl now a
  -- neither the record that was put nor one in front of it is written over
  have hne : ∀ side', side' = side ∨ side' = .last →
      childTarget j.lib h.store traceId child a ≠ some (side', id) := by
    intro side' hside' ht
    obtain ⟨rfl, hlast⟩ := hguard _ ht _ hlatest
    rcases hside' with rfl | hside'
    · cases hlast
    · cases hside'
  exact hkept.of_same huse (hbloom side).symm.subset
    (record_addChild_of_ne compress hc.opened _ _ (hne side (.inl rfl)))
    (record_addChild_of_ne compress hc.opened _ _ (hne .last (.inr rfl)))

omit hdecompress in
theorem consistent_markTraceable (hc : h.Consistent j) (traceId : Bytes) (ok : Bool) :
    (h.apply j compress (.markTraceable traceId ok)).Consistent j := by
  refine ⟨(apply_spec j.lib compress hc.opened _).1, fun id side document hlatest => ?_⟩
  have hsame : ∀ side', SameRecord 0 (h.store.record side' id)
      ((h.store.apply j.lib compress (.markTraceable traceId ok)).record side' id) := fun side' =>
    .inl (record_markTraceable compress hc.opened traceId ok side' id)
  refine (hc.kept id side document hlatest).of_same
    (useBloom_apply j.lib compress hc.opened (.markTraceable traceId ok)) ?_ (hsame side)
    (hsame .last)
  dsimp only [Journal.apply, Store.apply, tmTransactionStoreMarkTraceable]
  split_ifs
  · split
    · cases side <;> exact subset_rfl
    · exact subset_rfl
  · exact subset_rfl

omit hdecompress in
/-- A rotation takes the document to the last environment, or out of the store. -/
theorem consistent_deleteOldTransactions (hc : h.Consistent j) (now nowCurrent nowLast : ℕ) :
    (h.apply j compress (.deleteOldTransactions now nowCurrent nowLast)).Consistent j := by
  refine ⟨(apply_spec j.lib compress hc.opened _).1, fun id side document hlatest => ?_⟩
  dsimp only [Journal.apply, Journal.latestAfter] at hlatest ⊢
  by_cases hdue : h.store.Due now
  · rw [if_pos hdue] at hlatest
    obtain ⟨⟨side', document'⟩, hold, hrotated⟩ := Option.bind_eq_some_iff.1 hlatest
    cases side' with
    | last => cases hrotated
    | current =>
      obtain ⟨rfl, rfl⟩ := Prod.mk.inj (Option.some.inj hrotated)
      obtain ⟨hlast, -, hbloom, -, huse⟩ :=
        record_rotate j.lib compress hc.opened hdue nowCurrent nowLast
      obtain ⟨r, hrecord, hr⟩ := (hc.kept id .current document' hold).holds
      refine ⟨⟨r, (hlast id).trans hrecord, hr⟩, fun v hv => ?_, fun hon => ?_⟩
      · rw [hlast, hrecord] at hv
        exact ⟨r, (Option.some.inj hv).symm, hr⟩
      · show id ∈ (h.store.apply j.lib compress
          (.deleteOldTransactions now nowCurrent nowLast)).last.bloom
        rw [hbloom]
        exact (hc.kept id .current document' hold).filtered (huse ▸ hon)
  · rw [if_neg hdue] at hlatest
    rw [apply_of_not_due j.lib compress hdue]
    exact hc.kept id side document hlatest

/-- One operation. -/
theorem Journal.Consistent.apply (hc : h.Consistent j) {op : Op} (hparse : op.Parses j)
    (hguard : KeepsReadable j compress compressBound h op) : (h.apply j compress op).Consistent j := by
  cases op with
  | put id entry ttl now ok => exact consistent_put hdecompress hc hparse hguard
  | addChild traceId child ttl now a => exact consistent_addChild hc hguard
  | markTraceable traceId ok => exact consistent_markTraceable hc traceId ok
  | deleteOldTransactions now nowCurrent nowLast =>
    exact consistent_deleteOldTransactions hc now nowCurrent nowLast

end Step

/-! ### Runs -/

/-- **Reading what was put.**  From any directory, in a run whose operations keep the documents
readable, every get finds the document that was put last under its id, until its record is rotated
out of the last environment. -/
theorem readsBack_of_keepsReadable (j : JaegerEnv) (compress : Bytes → Option Bytes)
    (compressBound : ℕ → ℕ)
    (hdecompress : ∀ text data, compress text = some data →
      text.length ≤ compressBound data.length → j.decompress data = some text)
    {s : Store} (hopen : s.Opened) {tr : List (Event Journal Op)} {h : Journal}
    (hrun : Run (journalStep j compress) ⟨s, fun _ => none⟩ tr h)
    (hparse : ∀ e ∈ tr, e.label.Parses j)
    (hguard : ∀ e ∈ tr, KeepsReadable j compress compressBound e.before e.label) :
    ∀ e ∈ tr, ReadsBack j e.after := by
  have hinv := hrun.guarded (Journal.Consistent j)
    (fun h op => op.Parses j ∧ KeepsReadable j compress compressBound h op)
    ⟨hopen, fun id side document hlatest => by cases hlatest⟩
    (fun u op v hu hop hstep => by
      rw [← hstep]
      exact hu.apply hdecompress hop.1 hop.2)
    fun e he => ⟨hparse e he, hguard e he⟩
  exact fun e he => (hinv.1 e he).2.readsBack e.after

/-- A get that finds another document. -/
theorem not_readsBack {other : Json} {inLastBloom inCurrentBloom : Bool}
    (hlatest : h.latest id = some (side, document))
    (hget : (tmTransactionStoreGet j h.store id inLastBloom inCurrentBloom).map GotEntry.data =
      some (some other)) (hne : other ≠ document) : ¬ ReadsBack j h := by
  intro hreads
  obtain ⟨entry, hentry, hdata⟩ := hreads id side document hlatest inLastBloom inCurrentBloom
  rw [hentry, Option.map_some, hdata] at hget
  exact hne (Option.some.inj (Option.some.inj hget)).symm

/-! ### A put around a rotation -/

/-- Two documents. -/
def firstDocument : Json := .obj [(cstr "n", .int 1)]

def secondDocument : Json := .obj [(cstr "n", .int 2)]

/-- A tokener that reads the texts of the two documents. -/
def parsesBoth : JaegerEnv := runLengthLibrary.reader {
  lib := reference
  jaegerDestUrl := fun team => team
  decompress := fun _ => none
  parse := fun text =>
    [firstDocument, secondDocument].find? fun d => reference.toJsonString d = text
  otherAsRoot := fun _ => ⟨false, 0, 0, 0, []⟩
  otherAsChild := fun _ => ⟨[], false, 0, 0, []⟩ }

/-- What the library of run lengths asks of a text. -/
theorem fitsBuffer_runLengths_iff :
    FitsBuffer j runLengthLibrary.compressLz4f runLengthLibrary.compressBound document ↔
      (j.lib.toJsonString document).length ≤
        runLengthLibrary.compressBound (runLengths (j.lib.toJsonString document)).length :=
  ⟨fun h => h _ rfl, fun h data hdata => by rwa [← Option.some.inj hdata]⟩

def emptyJournal : Journal := ⟨Store.fresh 1000 1000 300 false, fun _ => none⟩

/-- The journal after some operations in a directory without files. -/
def journalOf (ops : List Op) : Journal :=
  ops.foldl (Journal.apply parsesBoth runLengthLibrary.compressLz4f) emptyJournal

def putFirst : Op := .put (cstr "1f") ⟨1000, firstDocument⟩ 0 1000 true

def rotation : Op := .deleteOldTransactions 601001 601001 601002

def putSecond : Op := .put (cstr "1f") ⟨1000, secondDocument⟩ 0 601003 true

/-- The document that was put before the rotation is read after it. -/
theorem reads_back_after_rotation :
    ReadsBack parsesBoth (journalOf [putFirst, rotation]) ∧
      (journalOf [putFirst, rotation]).latest (cstr "1f") = some (.last, firstDocument) := by
  have hrun : Run (journalStep parsesBoth runLengthLibrary.compressLz4f) emptyJournal _
      (journalOf [putFirst, rotation]) := (Run.single (a := putFirst) rfl).snoc (a := rotation) rfl
  refine ⟨readsBack_of_keepsReadable parsesBoth runLengthLibrary.compressLz4f
    runLengthLibrary.compressBound (runLengthLibrary.decompress_reader _) (opened_fresh _ _ _ _)
    hrun ?_ ?_ _ (List.mem_append_right _ (List.mem_singleton_self _)), rfl⟩
  · simp only [List.mem_append, List.mem_singleton, forall_eq_or_imp, forall_eq]
    exact ⟨rfl, trivial⟩
  · simp only [List.mem_append, List.mem_singleton, forall_eq_or_imp, forall_eq]
    exact ⟨fun _ _ => ⟨fitsBuffer_runLengths_iff.2 (by decide), nofun⟩, trivial⟩

/-- The document that is put after the rotation is not read: the last environment still holds the
first one. -/
theorem older_document_read :
    (journalOf [putFirst, rotation, putSecond]).latest (cstr "1f") =
        some (.current, secondDocument) ∧
      (tmTransactionStoreGet parsesBoth (journalOf [putFirst, rotation, putSecond]).store (cstr "1f")
        false false).map GotEntry.data = some (some firstDocument) ∧
      ¬ ∀ h tr, Run (journalStep parsesBoth runLengthLibrary.compressLz4f) emptyJournal tr h →
        ReadsBack parsesBoth h := by
  have hrun : Run (journalStep parsesBoth runLengthLibrary.compressLz4f) emptyJournal _
      (journalOf [putFirst, rotation, putSecond]) :=
    ((Run.single (a := putFirst) rfl).snoc (a := rotation) rfl).snoc (a := putSecond) rfl
  have hlatest : (journalOf [putFirst, rotation, putSecond]).latest (cstr "1f") =
    some (.current, secondDocument) := rfl
  have hget : (tmTransactionStoreGet parsesBoth (journalOf [putFirst, rotation, putSecond]).store
    (cstr "1f") false false).map GotEntry.data = some (some firstDocument) := rfl
  refine ⟨hlatest, hget, fun hall => not_readsBack hlatest hget ?_ (hall _ _ hrun)⟩
  simp [firstDocument, secondDocument]

end Tracemate.TransactionStore
