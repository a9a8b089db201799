import Tracemate.Lib.Scan
import Tracemate.TransactionStore.ReadWrites

/-!
# The children of a trace, as they are read back

Roots and children of all traces share one database.  The key of a child is the trace id, a dash and
the document's id; `_tm_transaction_store_get_children` reads every key that starts with the trace
id.

* `childrenIn`: the children that are read from one environment;
* `documentsBelow`: the documents of the records below the root, in the order of their keys;
* `getChildren_eq`: these are read, up to the limit, if they can be decompressed;
* `Catalogue`: a store, and the documents that have been added to a trace, by their ids;
* `ScanExact`: the children that are read are these documents, cut at the limit;
* `KeepsApart`: the operation writes no key of another trace that starts with the id;
* `Catalogue.Accurate`: the invariant;
* `scanExact_of_keepsApart`: runs.
-/

namespace Tracemate.TransactionStore

open CStr JsonC Lmdb Runs

variable (j : JaegerEnv) (compress : Bytes → Option Bytes)

/-! ### The scan -/

/-- The document of a record that is read as a child. -/
def JaegerEnv.childDocument (v : Stored) : Option Json :=
  (j.text (j.asChild v).compressed (j.asChild v).data).bind j.parse

/-- `_tm_transaction_store_get_children` on one environment.  LMDB refuses the empty key. -/
def childrenIn (s : Store) (side : Side) (id : Bytes) : List Json :=
  if id = [] then [] else getChildren j ((s.side side).env.cursor (s.side side).dbi) id

/-- The records of the scan that are not skipped as the root. -/
def belowRoot (records : List (Bytes × Stored)) (id : Bytes) : List (Bytes × Stored) :=
  records.filter fun p => id.isPrefixOf p.1 ∧ p.1 ≠ id

/-- Their documents, in the order of the keys. -/
def documentsBelow (s : Store) (side : Side) (id : Bytes) : List Json :=
  (belowRoot ((s.side side).env.cursor (s.side side).dbi) id).filterMap fun p =>
    j.childDocument p.2

/-- The records below the root can be decompressed. -/
def Decompresses (s : Store) (side : Side) (id : Bytes) : Prop :=
  ∀ p ∈ belowRoot ((s.side side).env.cursor (s.side side).dbi) id,
    (j.text (j.asChild p.2).compressed (j.asChild p.2).data).isSome = true

/-! ### Documents -/

/-- The id of a document, by its event. -/
def documentId (lib : Conversions) (child : Json) : Bytes :=
  hexId lib child
    (lib.getString (Json.get (cstr "event") (Json.get (cstr "processor") (some child))))

/-- The key of a child in the scan of its trace. -/
def keyOf (id documentId : Bytes) : Bytes := id ++ cstr "-" ++ documentId

/-- The store, and for each environment the documents that have been added to the trace, by their
ids. -/
structure Catalogue where
  store : Store
  documents : Side → Db Json

/-- The documents after an operation; a document with an id that has been there takes its place. -/
def Catalogue.documentsAfter (id : Bytes) (c : Catalogue) : Op → Side → Db Json
  | .addChild traceId child _ _ a =>
    if traceId = id then
      match childTarget j.lib c.store traceId child a with
      | some (side, _) => Function.update c.documents side
          ((c.documents side).insert (documentId j.lib child) child)
      | none => c.documents
    else c.documents
  | .deleteOldTransactions now _ _ =>
    if c.store.Due now then
      fun
      | .current => ∅
      | .last => c.documents .current
    else c.documents
  | .put _ _ _ _ _ => c.documents
  | .markTraceable _ _ => c.documents

def Catalogue.apply (id : Bytes) (c : Catalogue) (op : Op) : Catalogue :=
  ⟨c.store.apply j.lib compress op, c.documentsAfter j id op⟩

/-- One operation of a run. -/
def catalogueStep (id : Bytes) (c : Catalogue) (op : Op) (c' : Catalogue) : Prop :=
  c.apply j compress id op = c'

/-- From either environment the documents of the trace are read, each once and in some order, and
nothing else, up to the limit. -/
def ScanExact (id : Bytes) (c : Catalogue) : Prop :=
  ∀ side, ∃ documents : List Json,
    documents.Perm ((c.documents side).entries.map Sigma.snd) ∧
      childrenIn j c.store side id = documents.take maxChildCount

/-- The operation writes no record of another trace under a key that starts with the id, and a child
of the trace under its own key: the text of the key fits its buffer, and that of the document the
buffer for the decompressed text. -/
def KeepsApart (compressBound : ℕ → ℕ) (id : Bytes) (c : Catalogue) : Op → Prop
  | .put id' _ _ _ ok => ok = true → ValidKey id' → id' = id ∨ ¬ id <+: id'
  | .addChild traceId child _ _ a =>
    (traceId = id → ∀ target, childTarget j.lib c.store traceId child a = some target →
      (childKeyText j.lib traceId child).length < rootKeySize ∧
        FitsBuffer j compress compressBound child) ∧
    (traceId ≠ id → (∀ target, childTarget j.lib c.store traceId child a = some target →
        target.2 = id ∨ ¬ id <+: target.2) ∧
      (id <+: traceId → ∀ side, c.store.record side traceId = none))
  | .markTraceable _ _ => True
  | .deleteOldTransactions _ _ _ => True

/-- The text of the document that is added is parsed as the document. -/
def Op.ChildParses : Op → Prop
  | .addChild _ child _ _ _ => j.parse (j.lib.toJsonString child) = some child
  | _ => True

variable {j compress} {compressBound : ℕ → ℕ} {s : Store} {c c' : Catalogue} {side : Side}
  {id key : Bytes} {records : List (Bytes × Stored)} {child : Json}

/-! ### What is collected -/

/-- The loop collects the documents of the records below the root, if all of them can be
decompressed. -/
theorem collectChildren_eq (hkeys : ∀ p ∈ records, id <+: p.1)
    (htext : ∀ p ∈ belowRoot records id,
      (j.text (j.asChild p.2).compressed (j.asChild p.2).data).isSome = true)
    {children : List Json} (hlength : children.length < maxChildCount) :
    collectChildren j id records children =
      (children ++ (belowRoot records id).filterMap fun p => j.childDocument p.2).take
        maxChildCount := by
  induction records generalizing children with
  | nil =>
    have hnil : belowRoot ([] : List (Bytes × Stored)) id = [] := rfl
    rw [hnil, List.filterMap_nil, List.append_nil, List.take_of_length_le hlength.le]
    rfl
  | cons p records ih =>
    obtain ⟨key, v⟩ := p
    obtain ⟨hp, hkeys⟩ := List.forall_mem_cons.1 hkeys
    have hskip : key.length = id.length ↔ key = id :=
      ⟨fun h => (hp.eq_of_length h.symm).symm, fun h => by rw [h]⟩
    unfold collectChildren
    by_cases hroot : key = id
    · rw [if_pos (hskip.2 hroot)]
      have hbelow : belowRoot ((key, v) :: records) id = belowRoot records id := by
        simp [belowRoot, hroot]
      rw [hbelow] at htext ⊢
      exact ih hkeys htext hlength
    · rw [if_neg fun h => hroot (hskip.1 h)]
      have hbelow : belowRoot ((key, v) :: records) id = (key, v) :: belowRoot records id := by
        unfold belowRoot
        rw [List.filter_cons, if_pos]
        simpa using ⟨hp, hroot⟩
      rw [hbelow] at htext ⊢
      obtain ⟨hfirst, hrest⟩ := List.forall_mem_cons.1 htext
      obtain ⟨text, htext⟩ := Option.isSome_iff_exists.1 hfirst
      have hchild : j.childDocument v = j.parse text := by
        unfold JaegerEnv.childDocument
        rw [htext]
        rfl
      simp only [List.filterMap_cons, hchild, htext]
      cases j.parse text with
      | none => exact ih hkeys hrest hlength
      | some document =>
        dsimp only
        rw [List.append_cons children document (List.filterMap _ _)]
        split_ifs with hlimit
        · -- the limit is reached
          have hfull : (children ++ [document]).length = maxChildCount := by
            have hle : (children ++ [document]).length = children.length + 1 := by simp
            omega
          rw [← hfull, List.take_left]
        · exact ih hkeys hrest (not_le.1 hlimit)

theorem belowRoot_scan (s : Store) (side : Side) (id : Bytes) :
    belowRoot (scan ((s.side side).env.cursor (s.side side).dbi) id) id =
      belowRoot ((s.side side).env.cursor (s.side side).dbi) id := by
  rw [scan_eq_filter (pairwise_cursor _ _)]
  unfold belowRoot
  rw [List.filter_filter]
  refine List.filter_congr fun p _ => ?_
  cases id.isPrefixOf p.1 <;> simp

theorem prefix_of_mem_scan {p : Bytes × Stored}
    (hp : p ∈ scan ((s.side side).env.cursor (s.side side).dbi) id) : id <+: p.1 := by
  rw [scan_eq_filter (pairwise_cursor _ _)] at hp
  exact List.isPrefixOf_iff_prefix.1 (List.mem_filter.1 hp).2

/-- The children that are read are the documents below the root, up to the limit, if all of the
records can be decompressed. -/
theorem getChildren_eq (h : Decompresses j s side id) :
    getChildren j ((s.side side).env.cursor (s.side side).dbi) id =
      (documentsBelow j s side id).take maxChildCount := by
  show collectChildren j id (scan ((s.side side).env.cursor (s.side side).dbi) id) [] = _
  rw [collectChildren_eq ?_ ?_ (by decide), belowRoot_scan]
  · rfl
  · exact fun p hp => prefix_of_mem_scan hp
  · rw [belowRoot_scan]
    exact h

/-! ### Keys -/

theorem prefix_keyOf (id d : Bytes) : id <+: keyOf id d :=
  ⟨cstr "-" ++ d, (List.append_assoc _ _ _).symm⟩

theorem keyOf_ne (id d : Bytes) : keyOf id d ≠ id := by
  intro h
  have hlength := congrArg List.length h
  simp [keyOf, cstr] at hlength

theorem keyOf_injective (id : Bytes) : Function.Injective (keyOf id) := fun _ _ h =>
  List.append_cancel_left h

/-- Where a child of the trace goes, if the text of its key fits the buffer. -/
theorem target_eq_keyOf {traceId : Bytes} {a : Answers}
    (ht : childTarget j.lib s traceId child a = some (side, key))
    (hfits : (childKeyText j.lib traceId child).length < rootKeySize) :
    key = keyOf traceId (documentId j.lib child) := by
  -- the key is valid, so there is an event
  obtain ⟨rfl, hvalid⟩ : childKey j.lib traceId child a.stack = key ∧ ValidKey key := by
    dsimp only [childTarget] at ht
    split at ht
    · cases ht
    · split_ifs at ht with hwrite
      obtain ⟨-, rfl⟩ := Prod.mk.inj (Option.some.inj ht)
      exact ⟨rfl, hwrite.2⟩
    · split_ifs at ht with hwrite
      obtain ⟨-, rfl⟩ := Prod.mk.inj (Option.some.inj ht)
      exact ⟨rfl, hwrite.2.2⟩
  rw [childKey_eq hfits] at hvalid ⊢
  unfold childKeyText at hvalid ⊢
  cases hevent : Json.get (cstr "event") (Json.get (cstr "processor") (some child)) with
  | none =>
    rw [hevent] at hvalid
    exact absurd rfl hvalid.1
  | some event =>
    unfold keyOf documentId
    rw [hevent]

/-! ### The invariant -/

/-- The records below the root of the trace are those of the documents that have been added. -/
structure Catalogue.Accurate (j : JaegerEnv) (id : Bytes) (c : Catalogue) : Prop where
  opened : c.store.Opened
  added : ∀ side key v, id <+: key → key ≠ id → c.store.record side key = some v →
    ∃ d, key = keyOf id d ∧ d ∈ c.documents side
  readable : ∀ side d document, (c.documents side).lookup d = some document →
    ∃ v, c.store.record side (keyOf id d) = some v ∧ j.childDocument v = some document

/-- Operations that leave the records below the root as they are. -/
theorem Catalogue.Accurate.of_same (h : c.Accurate j id) (hopen : c'.store.Opened)
    (hdocuments : c'.documents = c.documents)
    (hsame : ∀ side key, id <+: key → key ≠ id →
      c'.store.record side key = c.store.record side key) : c'.Accurate j id where
  opened := hopen
  added side key v hbelow hne hv := by
    rw [hdocuments]
    exact h.added side key v hbelow hne ((hsame side key hbelow hne).symm.trans hv)
  readable side d document hd := by
    rw [hdocuments] at hd
    rw [hsame side _ (prefix_keyOf id d) (keyOf_ne id d)]
    exact h.readable side d document hd

theorem accurate_put (h : c.Accurate j id) {id' : Bytes} {entry : Entry} {ttl : Int32} {now : ℕ}
    {ok : Bool}
    (hguard : KeepsApart j compress compressBound id c (.put id' entry ttl now ok)) :
    (c.apply j compress id (.put id' entry ttl now ok)).Accurate j id := by
  refine h.of_same (apply_spec j.lib compress h.opened _).1 rfl fun side key hbelow hne => ?_
  dsimp only [Catalogue.apply, Store.apply]
  rw [put_eq j.lib compress h.opened]
  split_ifs with hwrite
  · rw [record_addBloom, record_write, if_neg]
    rintro ⟨-, rfl⟩
    rcases hguard hwrite.1 hwrite.2 with heq | hno
    · exact hne heq
    · exact hno hbelow
  · rfl

theorem accurate_markTraceable (h : c.Accurate j id) (traceId : Bytes) (ok : Bool) :
    (c.apply j compress id (.markTraceable traceId ok)).Accurate j id := by
  refine h.of_same (apply_spec j.lib compress h.opened _).1 rfl fun side key _ _ => ?_
  dsimp only [Catalogue.apply]
  exact record_markTraceable compress h.opened traceId ok side key

/-- A child of another trace. -/
theorem accurate_addChild_other (h : c.Accurate j id) {traceId : Bytes} {ttl : Int32} {now : ℕ}
    {a : Answers} (htrace : traceId ≠ id)
    (hguard : KeepsApart j compress compressBound id c (.addChild traceId child ttl now a)) :
    (c.apply j compress id (.addChild traceId child ttl now a)).Accurate j id := by
  obtain ⟨htarget, hparent⟩ := hguard.2 htrace
  refine h.of_same (apply_spec j.lib compress h.opened _).1 (if_neg htrace)
    fun side key hbelow hne => ?_
  have hapart : childTarget j.lib c.store traceId child a ≠ some (side, key) := fun ht =>
    (htarget _ ht).elim hne fun hno => hno hbelow
  by_cases hkey : key = traceId
  · subst hkey
    have hnone := hparent hbelow side
    rw [hnone]
    exact (record_addChild_of_ne compress h.opened ttl now hapart).none_iff.2 hnone
  · exact record_addChild_of_ne_parent compress h.opened hapart hkey

/-- The record of a child is read as its document. -/
theorem childDocument_childRecord
    (hdecompress : ∀ text data, compress text = some data →
      text.length ≤ compressBound data.length → j.decompress data = some text)
    (hparse : j.parse (j.lib.toJsonString child) = some child)
    (hfits : FitsBuffer j compress compressBound child) (ttl : Int32) (now : ℕ) :
    j.childDocument (.child (childRecord j.lib compress s id child ttl now)) = some child := by
  unfold JaegerEnv.childDocument JaegerEnv.asChild childRecord
  dsimp only
  rw [text_storeString hdecompress hfits]
  exact hparse

/-- A child of the trace. -/
theorem accurate_addChild_self
    (hdecompress : ∀ text data, compress text = some data →
      text.length ≤ compressBound data.length → j.decompress data = some text)
    (h : c.Accurate j id) {ttl : Int32} {now : ℕ} {a : Answers}
    (hparse : (Op.addChild id child ttl now a).ChildParses j)
    (hguard : KeepsApart j compress compressBound id c (.addChild id child ttl now a)) :
    (c.apply j compress id (.addChild id child ttl now a)).Accurate j id := by
  have hopen := (apply_spec j.lib compress h.opened (.addChild id child ttl now a)).1
  cases ht : childTarget j.lib c.store id child a with
  | none =>
    refine h.of_same hopen ?_ fun side key _ hne => ?_
    · simp [Catalogue.apply, Catalogue.documentsAfter, ht]
    · exact record_addChild_of_ne_parent compress h.opened (by simp [ht]) hne
  | some target =>
    obtain ⟨side', key'⟩ := target
    obtain ⟨hkey, hfits⟩ := hguard.1 rfl _ ht
    obtain rfl := target_eq_keyOf ht hkey
    have hself := record_addChild_self compress h.opened ttl now ht
    have hother : ∀ side key, key ≠ id → (side, key) ≠ (side', keyOf id (documentId j.lib child)) →
        (c.store.apply j.lib compress (.addChild id child ttl now a)).record side key =
          c.store.record side key := fun side key hid hne =>
      record_addChild_of_ne_parent compress h.opened
        (fun hc => hne (Option.some.inj (hc.symm.trans ht))) hid
    have hdocuments : (c.apply j compress id (.addChild id child ttl now a)).documents =
        Function.update c.documents side'
          ((c.documents side').insert (documentId j.lib child) child) := by
      simp [Catalogue.apply, Catalogue.documentsAfter, ht]
    refine ⟨hopen, fun side key v hbelow hne hv => ?_, fun side d document hd => ?_⟩
    · rw [hdocuments]
      by_cases heq : (side, key) = (side', keyOf id (documentId j.lib child))
      · obtain ⟨rfl, rfl⟩ := Prod.mk.inj heq
        refine ⟨_, rfl, ?_⟩
        rw [Function.update_self, AList.mem_insert]
        exact .inl rfl
      · obtain ⟨d, rfl, hmem⟩ := h.added side key v hbelow hne
          ((hother side key hne heq).symm.trans hv)
        refine ⟨d, rfl, ?_⟩
        by_cases hside : side = side'
        · subst hside
          rw [Function.update_self, AList.mem_insert]
          exact .inr hmem
        · rw [Function.update_of_ne hside]
          exact hmem
    · rw [hdocuments] at hd
      by_cases heq : (side, d) = (side', documentId j.lib child)
      · obtain ⟨rfl, rfl⟩ := Prod.mk.inj heq
        rw [Function.update_self, AList.lookup_insert] at hd
        obtain rfl := Option.some.inj hd
        exact ⟨_, hself, childDocument_childRecord hdecompress hparse hfits ttl now⟩
      · have hold : (c.documents side).lookup d = some document := by
          by_cases hside : side = side'
          · subst hside
            rw [Function.update_self, AList.lookup_insert_ne fun hd => heq (by rw [hd])] at hd
            exact hd
          · rwa [Function.update_of_ne hside] at hd
        obtain ⟨v, hv, hread⟩ := h.readable side d document hold
        refine ⟨v, (hother side _ (keyOf_ne id d) fun hc => heq ?_).trans hv, hread⟩
        obtain ⟨rfl, hkeys⟩ := Prod.mk.inj hc
        rw [keyOf_injective id hkeys]

/-- After a rotation the current environment has no record below the root. -/
theorem accurate_deleteOldTransactions (h : c.Accurate j id) (hms : id <+: openMsKey → id = openMsKey)
    (now nowCurrent nowLast : ℕ) :
    (c.apply j compress id (.deleteOldTransactions now nowCurrent nowLast)).Accurate j id := by
  by_cases hdue : c.store.Due now
  · obtain ⟨hlast, hcurrent, -⟩ := record_rotate j.lib compress h.opened hdue nowCurrent nowLast
    have hdocuments : ∀ side,
        (c.apply j compress id (.deleteOldTransactions now nowCurrent nowLast)).documents side =
          match side with
          | .current => ∅
          | .last => c.documents .current := fun side => by
      dsimp only [Catalogue.apply, Catalogue.documentsAfter]
      rw [if_pos hdue]
    refine ⟨(apply_spec j.lib compress h.opened _).1, fun side key v hbelow hne hv => ?_,
      fun side d document hd => ?_⟩
    · cases side with
      | current =>
        dsimp only [Catalogue.apply] at hv
        rw [hcurrent] at hv
        split_ifs at hv with hkey
        subst hkey
        exact absurd (hms hbelow).symm hne
      | last =>
        rw [hdocuments]
        exact h.added .current key v hbelow hne ((hlast key).symm.trans hv)
    · rw [hdocuments] at hd
      cases side with
      | current => cases hd
      | last =>
        obtain ⟨v, hv, hread⟩ := h.readable .current d document hd
        exact ⟨v, (hlast _).trans hv, hread⟩
  · refine h.of_same (apply_spec j.lib compress h.opened _).1 (if_neg hdue) fun side key _ _ => ?_
    dsimp only [Catalogue.apply]
    rw [apply_of_not_due j.lib compress hdue]

theorem Catalogue.Accurate.apply
    (hdecompress : ∀ text data, compress text = some data →
      text.length ≤ compressBound data.length → j.decompress data = some text)
    (h : c.Accurate j id) (hms : id <+: openMsKey → id = openMsKey) {op : Op}
    (hparse : op.ChildParses j) (hguard : KeepsApart j compress compressBound id c op) :
    (c.apply j compress id op).Accurate j id := by
  cases op with
  | put id' entry ttl now ok => exact accurate_put h hguard
  | addChild traceId child ttl now a =>
    by_cases htrace : traceId = id
    · subst htrace
      exact accurate_addChild_self hdecompress h hparse hguard
    · exact accurate_addChild_other h htrace hguard
  | markTraceable traceId ok => exact accurate_markTraceable h traceId ok
  | deleteOldTransactions now nowCurrent nowLast =>
    exact accurate_deleteOldTransactions h hms now nowCurrent nowLast

/-! ### The children that are read -/

/-- The records below the root, as a cursor visits them. -/
theorem mem_belowRoot_iff (hopen : c.store.Opened) {v : Stored} :
    (key, v) ∈ belowRoot ((c.store.side side).env.cursor (c.store.side side).dbi) id ↔
      (id <+: key ∧ key ≠ id) ∧ c.store.record side key = some v := by
  unfold belowRoot Store.record
  rw [List.mem_filter, (hopen side).dbi, mem_cursor_iff (hopen side).dbName_ts]
  simp [and_comm]

/-- They are the records of the documents. -/
theorem perm_belowRoot (h : c.Accurate j id) (side : Side) :
    ((belowRoot ((c.store.side side).env.cursor (c.store.side side).dbi) id).map
        fun p => (p.1, j.childDocument p.2)).Perm
      ((c.documents side).entries.map fun e => (keyOf id e.1, some e.2)) := by
  have hkeys : ((belowRoot ((c.store.side side).env.cursor (c.store.side side).dbi) id).map
      Prod.fst).Nodup :=
    (nodup_keys_cursor _ _).sublist (List.filter_sublist.map _)
  refine (List.perm_ext_iff_of_nodup ?_ ?_).2 fun p => ?_
  · refine List.Nodup.of_map Prod.fst ?_
    rw [List.map_map]
    exact hkeys
  · refine List.Nodup.of_map Prod.fst ?_
    rw [List.map_map]
    have hmap : (c.documents side).entries.map (Prod.fst ∘ fun e => (keyOf id e.1, some e.2)) =
        ((c.documents side).entries.map Sigma.fst).map (keyOf id) := by
      rw [List.map_map]
      rfl
    rw [hmap]
    exact (c.documents side).nodupKeys.map (keyOf_injective id)
  · obtain ⟨key, document⟩ := p
    constructor
    · intro hmem
      obtain ⟨⟨key', v⟩, hv, heq⟩ := List.mem_map.1 hmem
      obtain ⟨rfl, rfl⟩ := Prod.mk.inj heq
      obtain ⟨⟨hbelow, hne⟩, hrecord⟩ := (mem_belowRoot_iff h.opened).1 hv
      obtain ⟨d, rfl, hd⟩ := h.added side key' v hbelow hne hrecord
      obtain ⟨document, hlookup⟩ := Option.isSome_iff_exists.1 (AList.lookup_isSome.2 hd)
      obtain ⟨v', hv', hread⟩ := h.readable side d document hlookup
      obtain rfl := Option.some.inj (hrecord.symm.trans hv')
      exact List.mem_map.2 ⟨⟨d, document⟩, AList.mem_lookup_iff.1 hlookup, by rw [hread]⟩
    · intro hmem
      obtain ⟨⟨d, document'⟩, he, heq⟩ := List.mem_map.1 hmem
      obtain ⟨rfl, rfl⟩ := Prod.mk.inj heq
      obtain ⟨v, hv, hread⟩ := h.readable side d document' (AList.mem_lookup_iff.2 he)
      exact List.mem_map.2 ⟨(keyOf id d, v), (mem_belowRoot_iff h.opened).2
        ⟨⟨prefix_keyOf id d, keyOf_ne id d⟩, hv⟩, by rw [hread]⟩

/-- The scan reads the documents. -/
theorem Catalogue.Accurate.scanExact (h : c.Accurate j id) (hne : id ≠ []) :
    ScanExact j id c := by
  intro side
  have hperm : ((belowRoot ((c.store.side side).env.cursor (c.store.side side).dbi) id).map
      fun p => j.childDocument p.2).Perm (((c.documents side).entries.map Sigma.snd).map some) := by
    have hpairs := (perm_belowRoot h side).map Prod.snd
    rw [List.map_map, List.map_map] at hpairs
    rw [List.map_map]
    exact hpairs
  obtain ⟨documents, hread, hdocuments⟩ := (congrFun₂ (List.eq_map_comp_perm some) _ _).mpr hperm
  refine ⟨documents, hdocuments, ?_⟩
  have hdecompresses : Decompresses j c.store side id := fun p hp => by
    have hmem := List.mem_map_of_mem (f := fun p => j.childDocument p.2) hp
    rw [hread] at hmem
    obtain ⟨document, -, hdocument⟩ := List.mem_map.1 hmem
    obtain ⟨text, htext, -⟩ := Option.bind_eq_some_iff.1 hdocument.symm
    rw [htext]
    rfl
  have hbelow : documentsBelow j c.store side id = documents := by
    have hsome := congrArg (List.filterMap fun o : Option Json => o) hread
    rw [List.filterMap_map, List.filterMap_map] at hsome
    exact hsome.trans List.filterMap_some
  unfold childrenIn
  rw [if_neg hne, getChildren_eq hdecompresses, hbelow]

/-! ### Runs -/

/-- A directory without files. -/
theorem accurate_fresh (j : JaegerEnv) (hms : id <+: openMsKey → id = openMsKey)
    (nowCurrent nowLast : ℕ) (defaultLookbackSecs : Int32) (useBloomFilters : Bool) :
    Catalogue.Accurate j id
      ⟨Store.fresh nowCurrent nowLast defaultLookbackSecs useBloomFilters, fun _ => ∅⟩ := by
  refine ⟨opened_fresh _ _ _ _, fun side key v hbelow hne hv => ?_, fun side d document hd => ?_⟩
  · have hrecord : ∀ now, ((openEnvironment emptyFile now ∅).env.file .ts).lookup key = some v →
        key = openMsKey := fun now hv => by
      rw [lookup_emptyFile] at hv
      split_ifs at hv with hkey
      exact hkey
    have hkey : key = openMsKey := by
      cases side with
      | current => exact hrecord nowCurrent hv
      | last => exact hrecord nowLast hv
    subst hkey
    exact absurd (hms hbelow).symm hne
  · cases hd

/-- **The child scan.**  From a directory without files, in a run whose operations keep the keys of
other traces apart from those of the trace, the children that are read of it are the documents that
have been added to it, up to the limit. -/
theorem scanExact_of_keepsApart (j : JaegerEnv) (compress : Bytes → Option Bytes)
    (compressBound : ℕ → ℕ)
    (hdecompress : ∀ text data, compress text = some data →
      text.length ≤ compressBound data.length → j.decompress data = some text)
    {id : Bytes} (hne : id ≠ []) (hms : id <+: openMsKey → id = openMsKey)
    (nowCurrent nowLast : ℕ) (defaultLookbackSecs : Int32) (useBloomFilters : Bool)
    {tr : List (Event Catalogue Op)} {c : Catalogue}
    (hrun : Run (catalogueStep j compress id)
      ⟨Store.fresh nowCurrent nowLast defaultLookbackSecs useBloomFilters, fun _ => ∅⟩ tr c)
    (hparse : ∀ e ∈ tr, e.label.ChildParses j)
    (hguard : ∀ e ∈ tr, KeepsApart j compress compressBound id e.before e.label) :
    ∀ e ∈ tr, ScanExact j id e.after := by
  have hinv := hrun.guarded (Catalogue.Accurate j id)
    (fun c op => op.ChildParses j ∧ KeepsApart j compress compressBound id c op)
    (accurate_fresh j hms nowCurrent nowLast defaultLookbackSecs useBloomFilters)
    (fun u op v hu hop hstep => by
      rw [← hstep]
      exact hu.apply hdecompress hms hop.1 hop.2)
    fun e he => ⟨hparse e he, hguard e he⟩
  exact fun e he => (hinv.1 e he).2.scanExact hne

/-! ### Two traces -/

/-- A span. -/
def spanWithId (hexId : String) : Json := .obj [
  (cstr "processor", .obj [(cstr "event", .str (cstr "span"))]),
  (cstr "span", .obj [(cstr "hex_id", .str (cstr hexId))])]

/-- A tokener that reads the texts of two spans. -/
def parsesSpans : JaegerEnv := runLengthLibrary.reader {
  lib := reference
  jaegerDestUrl := fun team => team
  decompress := fun _ => none
  parse := fun text =>
    [spanWithId "01", spanWithId "02"].find? fun d => reference.toJsonString d = text
  otherAsRoot := fun _ => ⟨false, 0, 0, 0, []⟩
  otherAsChild := fun _ => ⟨[], false, 0, 0, []⟩ }

def emptyCatalogue : Catalogue := ⟨Store.fresh 1000 1000 300 false, fun _ => ∅⟩

/-- LMDB succeeds. -/
def succeeds : Answers := ⟨true, true, true, true, true, false, false, []⟩

def addSpanTo (traceId hexId : String) : Op :=
  .addChild (cstr traceId) (spanWithId hexId) 0 2000 succeeds

/-- The catalogue of the trace `1f` after some operations in a directory without files. -/
def catalogueOf (ops : List Op) : Catalogue :=
  ops.foldl (Catalogue.apply parsesSpans runLengthLibrary.compressLz4f (cstr "1f")) emptyCatalogue

/-- The trace `2f` is kept apart. -/
theorem scan_of_two_traces :
    ScanExact parsesSpans (cstr "1f")
        (catalogueOf [addSpanTo "1f" "01", addSpanTo "2f" "02"]) ∧
      (childrenIn parsesSpans (catalogueOf [addSpanTo "1f" "01", addSpanTo "2f" "02"]).store .current
        (cstr "1f")).length = 1 := by
  have hrun : Run (catalogueStep parsesSpans runLengthLibrary.compressLz4f (cstr "1f"))
      emptyCatalogue _
      (catalogueOf [addSpanTo "1f" "01", addSpanTo "2f" "02"]) :=
    (Run.single (a := addSpanTo "1f" "01") rfl).snoc (a := addSpanTo "2f" "02") rfl
  refine ⟨scanExact_of_keepsApart parsesSpans runLengthLibrary.compressLz4f
    runLengthLibrary.compressBound (runLengthLibrary.decompress_reader _) (by decide) (by decide)
    1000 1000 300 false hrun ?_ ?_ _ (List.mem_append_right _ (List.mem_singleton_self _)),
    by decide +kernel⟩
  · simp only [List.mem_append, List.mem_singleton, forall_eq_or_imp, forall_eq]
    exact ⟨rfl, rfl⟩
  · simp only [List.mem_append, List.mem_singleton, forall_eq_or_imp, forall_eq]
    have htarget : childTarget reference
        (emptyCatalogue.apply parsesSpans runLengthLibrary.compressLz4f (cstr "1f")
          (addSpanTo "1f" "01")).store (cstr "2f") (spanWithId "02") succeeds =
        some (.current, cstr "2f-02") := by decide
    have hfits : FitsBuffer parsesSpans runLengthLibrary.compressLz4f
        runLengthLibrary.compressBound (spanWithId "01") :=
      fitsBuffer_runLengths_iff.2 (by decide +kernel)
    refine ⟨⟨fun _ _ _ => ⟨by decide, hfits⟩, fun hne => absurd rfl hne⟩,
      fun heq => absurd heq (by decide), fun _ => ⟨fun target ht => .inr ?_,
        fun hbelow => absurd hbelow (by decide)⟩⟩
    obtain rfl := Option.some.inj (htarget.symm.trans ht)
    decide

/-- More children are read than documents have been added. -/
theorem not_scanExact
    (h : ((c.documents side).entries.length : ℕ) < (childrenIn j c.store side id).length) :
    ¬ ScanExact j id c := by
  intro hexact
  obtain ⟨documents, hperm, heq⟩ := hexact side
  have hlength := hperm.length_eq
  rw [List.length_map] at hlength
  rw [heq, List.length_take] at h
  omega

/-- The id `1f` begins the id `1f2e` of another trace, whose span is read as well. -/
theorem other_trace_read :
    ¬ ∀ c tr, Run (catalogueStep parsesSpans runLengthLibrary.compressLz4f (cstr "1f"))
        emptyCatalogue tr c →
      ScanExact parsesSpans (cstr "1f") c := by
  intro hall
  have hrun : Run (catalogueStep parsesSpans runLengthLibrary.compressLz4f (cstr "1f"))
      emptyCatalogue _
      (catalogueOf [addSpanTo "1f" "01", addSpanTo "1f2e" "02"]) :=
    (Run.single (a := addSpanTo "1f" "01") rfl).snoc (a := addSpanTo "1f2e" "02") rfl
  have hread : ((catalogueOf [addSpanTo "1f" "01", addSpanTo "1f2e" "02"]).documents
      .current).entries.length < (childrenIn parsesSpans
        (catalogueOf [addSpanTo "1f" "01", addSpanTo "1f2e" "02"]).store .current
        (cstr "1f")).length := by decide +kernel
  exact not_scanExact hread (hall _ _ hrun)

end Tracemate.TransactionStore
