import Tracemate.TransactionStore.ChildEntries
import Tracemate.TransactionStore.Ownership
import Tracemate.TransactionStore.Pending
import Tracemate.TransactionStore.Retention

/-!
# Whether a sent trace is complete

What `tm_transaction_store_process_jaeger` sends of a trace, and what is stored of it: the documents
below the root.

* `parentOf`: the parent that an error names;
* `Handed.SpansSent`, `Handed.ErrorsAttached`: all spans and transactions below the root are sent to
  the root's team, and all errors go with the documents that they name;
* `KeepsAll`: all spans and transactions are read, and all errors of sent documents, of which no
  two have the same parent;
* `lookup_spanErrors`: the first pass finds the first error of a parent;
* `sent_complete_iff`: runs;
* `crowd`, `sent_incomplete`: a trace with one span too many, one with two errors of one span, and
  one with a record that cannot be decompressed.
-/

namespace Tracemate.TransactionStore

open CStr JsonC Lmdb Runs COutcome Outcome

section Definitions

variable (j : JaegerEnv) (compress : Bytes → Option Bytes)

/-- The id of the parent that an error names. -/
def parentOf (c : Json) : Option Bytes :=
  if eventName j c = some (cstr "error") then
    (Json.get (cstr "parent") (some c)).bind fun parent =>
      j.lib.getString (Json.get (cstr "id") (some parent))
  else none

/-- The id of a transaction or a span. -/
def ownId (c : Json) : Option Bytes :=
  if eventName j c = some (cstr "transaction") then transactionId j c else spanId j c

/-- The id under which an error is looked for when the document is sent. -/
def Handed.idOf (h : Handed) : Document → Option Bytes
  | .root => transactionId j h.trans
  | .child i => h.children[i]?.bind (ownId j)

/-- Every span and every transaction among the documents is sent to the root's team. -/
def Handed.SpansSent (h : Handed) (documents : List Json) : Prop :=
  ∀ i c, documents[i]? = some c → IsSpanOrTransaction j c →
    ⟨.child i, j.jaegerDestUrl h.sending.team⟩ ∈ h.sending.posts

/-- The error at the place `i` goes with the documents that are sent and have this id. -/
def Handed.Attached (h : Handed) (i : ℕ) (id : Bytes) : Prop :=
  ∀ post ∈ h.sending.posts, h.idOf j post.document = some id →
    attachedTo h.sending.spanErrors (h.idOf j post.document) = some i

/-- Every error among the documents goes with the sent documents that it names. -/
def Handed.ErrorsAttached (h : Handed) (documents : List Json) : Prop :=
  ∀ i c id, documents[i]? = some c → parentOf j c = some id → h.Attached j i id

/-- All spans and transactions are sent to the root's team, and all errors with what they name. -/
structure Handed.Complete (h : Handed) (documents : List Json) : Prop where
  spansSent : h.SpansSent j documents
  errorsAttached : h.ErrorsAttached j documents

/-- The scan comes to the document at the place `i` below the root: `MAX_CHILD_COUNT` documents have
not been read before it, and no record that the scan comes to fails to be decompressed. -/
def ReadsPlace (s : Store) (side : Side) (id : Bytes) (i : ℕ) : Prop :=
  ReadsThrough j 0 (belowRoot ((s.side side).env.cursor (s.side side).dbi) id) ∧ i < maxChildCount

/-- The id is that of the root transaction, or of a span or a transaction that is read. -/
def NamesSent (s : Store) (side : Side) (key : Bytes) (trans : Json) (id : Bytes) : Prop :=
  transactionId j trans = some id ∨
    ∃ k c, (documentsBelow j s side key)[k]? = some c ∧ ReadsPlace j s side key k ∧
      IsSpanOrTransaction j c ∧ ownId j c = some id

/-- Every span and every transaction below the root is read, and so is every error of a document
that is sent, which is the first one with its parent. -/
structure KeepsAll (s : Store) (side : Side) (key : Bytes) (trans : Json) : Prop where
  spans : ∀ i c, (documentsBelow j s side key)[i]? = some c → IsSpanOrTransaction j c →
    ReadsPlace j s side key i
  errors : ∀ i c id, (documentsBelow j s side key)[i]? = some c → parentOf j c = some id →
    NamesSent j s side key trans id → ReadsPlace j s side key i ∧
      ∀ i' < i, ∀ c', (documentsBelow j s side key)[i']? = some c' → parentOf j c' ≠ some id

/-- One call of a run. -/
def callStep (s : Store) (call : Call) (s' : Store) : Prop := call.store j compress s = some s'

end Definitions

variable {j : JaegerEnv} {compress : Bytes → Option Bytes} {c : Json} {children : List Json} {i : ℕ}
  {errors errors' : Db ℕ} {id : Bytes} {s : Store} {side : Side} {time : ℕ} {h : Handed}

/-! ### The errors that are found -/

theorem lookup_spanError (h : spanError j i c errors = .ok errors') (id : Bytes) :
    errors'.lookup id = (errors.lookup id).or (if parentOf j c = some id then some i else none) := by
  unfold spanError at h
  cases hprocessor : Json.get (cstr "processor") (some c) with
  | none =>
    rw [hprocessor] at h
    obtain rfl := Except.ok.inj h
    have hparent : parentOf j c = none := by simp [parentOf, eventName, hprocessor]
    rw [hparent, if_neg nofun, Option.or_none]
  | some processor =>
    rw [hprocessor] at h
    obtain ⟨event, hevent, h⟩ := bind_eq_ok.1 h
    have hname : eventName j c = some event :=
      (eventName_eq hprocessor).trans (nonNull_eq_ok.1 hevent)
    unfold parentOf
    rw [hname]
    by_cases herror : event = cstr "error"
    · subst herror
      rw [if_pos rfl] at h ⊢
      cases hparent : Json.get (cstr "parent") (some c) with
      | none =>
        rw [hparent] at h
        cases h
      | some parent =>
        rw [hparent] at h
        obtain ⟨parentHex, hid, h⟩ := bind_eq_ok.1 h
        obtain rfl := Except.ok.inj h
        rw [Option.bind_some, nonNull_eq_ok.1 hid]
        by_cases hsame : id = parentHex
        · subst hsame
          rw [if_pos rfl]
          split_ifs with hmem
          · -- the first one stays
            obtain ⟨k, hk⟩ := Option.isSome_iff_exists.1 (AList.lookup_isSome.2 hmem)
            rw [hk, Option.some_or]
          · rw [AList.lookup_insert, AList.lookup_eq_none.2 hmem, Option.none_or]
        · rw [if_neg fun heq => hsame (Option.some.inj heq).symm, Option.or_none]
          split_ifs
          · rfl
          · exact AList.lookup_insert_ne hsame
    · rw [if_neg herror] at h
      obtain rfl := Except.ok.inj h
      have hne : ¬ some event = some (cstr "error") := fun heq => herror (Option.some.inj heq)
      rw [if_neg hne, if_neg nofun, Option.or_none]

/-- The error that is found for a parent is the first one. -/
theorem lookup_spanErrors (h : spanErrors j i children errors = .ok errors') (id : Bytes) :
    errors'.lookup id = (errors.lookup id).or
      ((children.findIdx? fun c => parentOf j c = some id).map (i + ·)) := by
  induction children generalizing i errors with
  | nil =>
    obtain rfl := Except.ok.inj h
    rw [List.findIdx?_nil, Option.map_none, Option.or_none]
  | cons c children ih =>
    obtain ⟨mid, hmid, h⟩ := bind_eq_ok.1 h
    rw [ih h, lookup_spanError hmid, Option.or_assoc, List.findIdx?_cons]
    congr 1
    by_cases hparent : parentOf j c = some id
    · simp [hparent]
    · rw [if_neg hparent, if_neg (by simpa using hparent), Option.none_or, Option.map_map]
      refine Option.map_congr fun k _ => ?_
      rw [Function.comp_apply]
      omega

/-- The errors of a trace that is sent. -/
theorem spanErrors_of_sent {trans : Json} {sending : Sending}
    (h : jaegerizeTrace j trans children = .ok (some sending)) :
    spanErrors j 0 children ∅ = .ok sending.spanErrors := by
  obtain ⟨o, -, h⟩ := bind_eq_ok.1 h
  cases o with
  | none => cases h
  | some team =>
    obtain ⟨errors, herrors, h⟩ := bind_eq_ok.1 h
    obtain ⟨st, -, h⟩ := bind_eq_ok.1 h
    obtain rfl := Option.some.inj (Except.ok.inj h)
    exact herrors

/-! ### Sent traces -/

/-- The children are the documents below the root that are read. -/
theorem getElem?_getChildren (id : Bytes) (i : ℕ) (c : Json) :
    (getChildren j ((s.side side).env.cursor (s.side side).dbi) id)[i]? = some c ↔
      (documentsBelow j s side id)[i]? = some c ∧ ReadsPlace j s side id i := by
  have hscan := @map_snd_collectEntries j id
    (scan ((s.side side).env.cursor (s.side side).dbi) id) []
  obtain ⟨hreads, hfails⟩ := @collectEntries_eq j id
    (scan ((s.side side).env.cursor (s.side side).dbi) id) []
    (fun p hp => prefix_of_mem_scan hp) (by decide)
  rw [belowRoot_scan, List.length_nil] at hreads hfails
  have hdocuments : ((belowRoot ((s.side side).env.cursor (s.side side).dbi) id).filterMap
      j.entry).map Prod.snd = documentsBelow j s side id := by
    unfold documentsBelow JaegerEnv.entry
    rw [List.map_filterMap]
    simp
  have hchildren : getChildren j ((s.side side).env.cursor (s.side side).dbi) id =
      collectChildren j id (scan ((s.side side).env.cursor (s.side side).dbi) id) [] := rfl
  rw [hchildren, ← List.map_nil (f := Prod.snd), ← hscan]
  unfold ReadsPlace
  by_cases hthrough : ReadsThrough j 0 (belowRoot ((s.side side).env.cursor (s.side side).dbi) id)
  · rw [hreads hthrough, List.nil_append, List.map_take, hdocuments, List.getElem?_take]
    by_cases hi : i < maxChildCount
    · simp [hi, hthrough]
    · simp [hi]
  · rw [hfails hthrough]
    simp [hthrough]

/-- The documents that are sent are those whose ids are looked for. -/
theorem exists_post_iff (hfrom : HandedFrom j s side time h) (id : Bytes) :
    (∃ post ∈ h.sending.posts, h.idOf j post.document = some id) ↔
      NamesSent j s side h.key h.trans id := by
  have hmem := fun p => (mem_posts_iff (p := p) hfrom.sent).2
  unfold NamesSent
  constructor
  · rintro ⟨post, hpost, hid⟩
    rcases (hmem post).1 hpost with rfl | ⟨other, -, rfl⟩ | ⟨k, c, hk, hspan, hchild⟩
    · exact .inl hid
    · exact .inl hid
    · have hdocument : post.document = .child k := by
        rcases hchild with rfl | ⟨other, -, rfl⟩ <;> rfl
      rw [hdocument] at hid
      change h.children[k]?.bind (ownId j) = some id at hid
      rw [hk] at hid
      obtain ⟨hbelow, hreads⟩ := (getElem?_getChildren h.key k c).1 (hfrom.children_eq ▸ hk)
      exact .inr ⟨k, c, hbelow, hreads, hspan, hid⟩
  · rintro (hid | ⟨k, c, hbelow, hreads, hspan, hid⟩)
    · exact ⟨_, (hmem _).2 (.inl rfl), hid⟩
    · have hk : h.children[k]? = some c :=
        hfrom.children_eq ▸ (getElem?_getChildren h.key k c).2 ⟨hbelow, hreads⟩
      refine ⟨_, (hmem _).2 (.inr (.inr ⟨k, c, hk, hspan, .inl rfl⟩)), ?_⟩
      show h.children[k]?.bind (ownId j) = some id
      rw [hk]
      exact hid

/-- A child that is sent is one of the spans and transactions that are read. -/
theorem child_of_post (hfrom : HandedFrom j s side time h) {destination : Bytes}
    (hpost : ⟨.child i, destination⟩ ∈ h.sending.posts) :
    ∃ c, h.children[i]? = some c ∧ IsSpanOrTransaction j c := by
  rw [(mem_posts_iff hfrom.sent).2] at hpost
  rcases hpost with heq | ⟨other, -, heq⟩ | ⟨k, c, hk, hspan, heq | ⟨other, -, heq⟩⟩
  · cases congrArg Post.document heq
  · cases congrArg Post.document heq
  all_goals
    obtain rfl : i = k := by simpa using congrArg Post.document heq
    exact ⟨c, hk, hspan⟩

/-- A document that is sent finds the first of the errors that are read. -/
theorem attachedTo_iff (hfrom : HandedFrom j s side time h) (id : Bytes) (i : ℕ) :
    attachedTo h.sending.spanErrors (some id) = some i ↔
      (h.children.findIdx? fun c => parentOf j c = some id) = some i := by
  have hlookup := lookup_spanErrors (spanErrors_of_sent hfrom.sent) id
  unfold attachedTo
  rw [Option.bind_some, hlookup]
  simp

/-- A trace that is sent is complete exactly if nothing of it is lost. -/
theorem HandedFrom.complete_iff (hfrom : HandedFrom j s side time h) :
    h.Complete j (documentsBelow j s side h.key) ↔ KeepsAll j s side h.key h.trans := by
  have hchild : ∀ {i c}, h.children[i]? = some c ↔
      (documentsBelow j s side h.key)[i]? = some c ∧ ReadsPlace j s side h.key i :=
    fun {i c} => hfrom.children_eq ▸ getElem?_getChildren h.key i c
  constructor
  · rintro ⟨hspans, herrors⟩
    refine ⟨fun i c hi hspan => ?_, fun i c id hi hparent hsent => ?_⟩
    · obtain ⟨c', hc', -⟩ := child_of_post hfrom (hspans i c hi hspan)
      exact (hchild.1 hc').2
    · obtain ⟨post, hpost, hid⟩ := (exists_post_iff hfrom id).2 hsent
      have hattached := herrors i c id hi hparent post hpost hid
      rw [hid, attachedTo_iff hfrom, List.findIdx?_eq_some_iff_getElem] at hattached
      obtain ⟨hlt, -, hfirst⟩ := hattached
      have hreads := (hchild.1 (List.getElem?_eq_getElem hlt)).2
      refine ⟨hreads, fun i' hi' c' hc' hparent' => ?_⟩
      -- an earlier error is read as well
      have hread' := hchild.2 ⟨hc', hreads.1, hi'.trans hreads.2⟩
      obtain ⟨hlt', rfl⟩ := List.getElem?_eq_some_iff.1 hread'
      exact hfirst i' hi' (by simpa using hparent')
  · rintro ⟨hspans, herrors⟩
    refine ⟨fun i c hi hspan => ?_, fun i c id hi hparent post hpost hid => ?_⟩
    · exact (receives_root hfrom.sent).2 i c (hchild.2 ⟨hi, hspans i c hi hspan⟩) hspan
    · obtain ⟨hreads, hfirst⟩ :=
        herrors i c id hi hparent ((exists_post_iff hfrom id).1 ⟨post, hpost, hid⟩)
      obtain ⟨hlt, rfl⟩ := List.getElem?_eq_some_iff.1 (hchild.2 ⟨hi, hreads⟩)
      rw [hid, attachedTo_iff hfrom, List.findIdx?_eq_some_iff_getElem]
      refine ⟨hlt, by simpa using hparent, fun i' hi' hparent' => ?_⟩
      exact hfirst i' hi' _ (hchild.1 (List.getElem?_eq_getElem (hi'.trans hlt))).1
        (by simpa using hparent')

/-- An error of a span. -/
def errorOf (id parent : Bytes) : Json := .obj [
  (cstr "processor", .obj [(cstr "event", .str (cstr "error"))]),
  (cstr "error", .obj [(cstr "id", .str id)]),
  (cstr "parent", .obj [(cstr "id", .str parent)])]

/-- A library that parses the root and the children of a trace, and decompresses nothing. -/
def parsing (children : List Json) : JaegerEnv where
  lib := reference
  jaegerDestUrl team := team ++ cstr ":14250"
  decompress _ := none
  parse text := (rootDocument :: children).find? fun d => reference.toJsonString d = text
  otherAsRoot _ := ⟨false, 0, 0, 0, []⟩
  otherAsChild _ := ⟨[], false, 0, 0, []⟩

/-- LMDB succeeds. -/
def opSucceeds : Answers := ⟨true, true, true, true, true, false, false, []⟩

/-- A child of the trace `1f`. -/
def addDocument (child : Json) : Op := .addChild (cstr "1f") child 0 1000 opSucceeds

/-- Children are added in a directory without files. -/
def childrenOnly (compress : Bytes → Option Bytes) (children : List Json) : Store :=
  (children.map addDocument).foldl (Store.apply reference compress)
    (Store.fresh 1000 1000 300 false)

/-- Then the root is put and marked. -/
def traceStore (compress : Bytes → Option Bytes) (children : List Json) : Store :=
  [Op.put (cstr "1f") ⟨1000, rootDocument⟩ 0 1000 true, .markTraceable (cstr "1f") true].foldl
    (Store.apply reference compress) (childrenOnly compress children)

theorem run_traceStore (compress : Bytes → Option Bytes) (children : List Json) :
    ∃ tr, Run (callStep (parsing children) compress) (Store.fresh 1000 1000 300 false) tr
      (traceStore compress children) := by
  unfold traceStore childrenOnly
  rw [← List.foldl_append]
  exact @Run.of_foldl _ _ (callStep (parsing children) compress) _ _ Call.op (fun _ _ => rfl) _ _

/-- A span and its error. -/
def oneError : List Json := [spanA, errorOf (cstr "e1") (cstr "01")]

/-- Two spans, each with an error. -/
def eachError : List Json :=
  [spanA, spanB, errorOf (cstr "e1") (cstr "01"), errorOf (cstr "e2") (cstr "02")]

/-- A trace that is sent from one environment of a store that is reached. -/
def IsSent (j : JaegerEnv) (compress : Bytes → Option Bytes) (s : Store) (side : Side)
    (h : Handed) : Prop :=
  (∃ tr, Run (callStep j compress) (Store.fresh 1000 1000 300 false) tr s) ∧
    ∃ now a s' report n, tmTransactionStoreProcessJaeger j s now a = .ok (s', report, n) ∧
      h ∈ report.handed ∧ HandedFrom j s side (timeMs s.defaultLookbackSecs now) h

/-- Without marks in the last environment a trace is sent from the current one. -/
theorem isSent_current {children : List Json} {s' : Store} {report : JaegerReport} {n : ℕ}
    (hmarks : ((traceStore compress children).side .last).env.cursor
      ((traceStore compress children).side .last).jaegerDbi = [])
    (hok : tmTransactionStoreProcessJaeger (parsing children) (traceStore compress children) 400000
      allSucceeds = .ok (s', report, n)) (hmem : h ∈ report.handed) :
    IsSent (parsing children) compress (traceStore compress children) .current h := by
  obtain ⟨tr, hrun⟩ := run_traceStore compress children
  have hopen : (traceStore compress children).Opened :=
    (hrun.invariant Store.Opened (opened_fresh _ _ _ _) fun _ _ _ hu hstep =>
      opened_store hu hstep).2
  refine ⟨⟨tr, hrun⟩, 400000, allSucceeds, s', report, n, hok, hmem, ?_⟩
  obtain ⟨side, hfrom⟩ := (processJaeger_spec hopen hok).2 h hmem
  cases side with
  | current => exact hfrom
  | last =>
    obtain ⟨data, record, hmark, -⟩ := hfrom.quiet
    rw [hmarks] at hmark
    cases hmark

/-- A span at a place where no child is is not sent. -/
theorem not_spansSent {documents : List Json} (hfrom : HandedFrom j s side time h)
    (hi : h.children.length ≤ i) (hc : documents[i]? = some c) (hspan : IsSpanOrTransaction j c) :
    ¬ h.SpansSent j documents := by
  intro hsent
  obtain ⟨c', hc', -⟩ := child_of_post hfrom (hsent i c hc hspan)
  rw [List.getElem?_eq_none hi] at hc'
  cases hc'

/-- The record of a span that has been added. -/
def spanRecord (d : Bytes) : Stored :=
  .child ⟨cstr "1f", false, 1000, 600, reference.toJsonString (spanOf (cstr "a-web") d)⟩

/-- The spans with these ids have been added, and nothing else of the trace `1f`. -/
structure OnlySpans (ids : List Bytes) (s : Store) : Prop where
  opened : s.Opened
  bloom : s.useBloomFilters = false
  lookback : s.defaultLookbackSecs = 300
  last : s.last = (Store.fresh 1000 1000 300 false).last
  marks : s.current.env.file .jaeger = ∅
  spans : ∀ d ∈ ids, s.record .current (keyOf (cstr "1f") d) = some (spanRecord d)
  only : ∀ key v, cstr "1f" <+: key → s.record .current key = some v →
    ∃ d ∈ ids, key = keyOf (cstr "1f") d

theorem onlySpans_fresh : OnlySpans [] (Store.fresh 1000 1000 300 false) := by
  refine ⟨opened_fresh _ _ _ _, rfl, rfl, rfl, rfl, by simp, fun key v hbelow hv => ?_⟩
  have hrecord : (Store.fresh 1000 1000 300 false).record .current key =
      if key = openMsKey then some (.openMs 1000) else none := lookup_emptyFile 1000 ∅ key
  rw [hrecord] at hv
  split_ifs at hv with hkey
  rw [hkey] at hbelow
  exact absurd hbelow (by decide)

/-- A lookup without filters that finds nothing. -/
theorem parentLookup_none (hopen : s.Opened) (hbloom : s.useBloomFilters = false) (hne : id ≠ [])
    (hnone : ∀ side, s.record side id = none) : parentLookup s id opSucceeds = .notFound := by
  have hlookup : ∀ side inBloom, s.lookupIn side id inBloom true = .notFound := by
    intro side inBloom
    have hget : (s.side side).env.get (s.side side).dbi id = .notFound := by
      have hname : (s.side side).env.dbName (s.side side).dbi = some .ts := by
        rw [(hopen side).dbi]
        exact (hopen side).dbName_ts
      rw [get_eq hname hne]
      have := hnone side
      unfold Store.record at this
      rw [this]
    unfold Store.lookupIn
    rw [hbloom, if_neg (by simp), if_pos rfl, hget]
  unfold parentLookup
  simp only [opSucceeds, hlookup]

/-- A span is added to a trace without root. -/
theorem OnlySpans.add {ids : List Bytes} (h : OnlySpans ids s) {d : Bytes} (hd : d.length = 3) :
    OnlySpans (d :: ids) (s.apply reference (fun _ => none)
      (addDocument (spanOf (cstr "a-web") d))) := by
  have hnone : ∀ side, s.record side (cstr "1f") = none := by
    intro side
    cases hrecord : s.record side (cstr "1f") with
    | none => rfl
    | some v =>
      cases side with
      | current =>
        obtain ⟨d', -, hkey⟩ := h.only _ v (List.prefix_refl _) hrecord
        exact absurd hkey.symm (keyOf_ne _ d')
      | last =>
        unfold Store.record Store.side at hrecord
        rw [h.last] at hrecord
        cases hrecord
  have hlookup := parentLookup_none h.opened h.bloom (by decide) hnone
  have htext : childKeyText reference (cstr "1f") (spanOf (cstr "a-web") d) =
      keyOf (cstr "1f") d := rfl
  have hlength : (keyOf (cstr "1f") d).length = 6 := by
    simp [keyOf, cstr, hd]
  have hkey : childKey reference (cstr "1f") (spanOf (cstr "a-web") d) opSucceeds.stack =
      keyOf (cstr "1f") d := by
    rw [childKey_eq (by rw [htext, hlength]; decide), htext]
  have hvalid : ValidKey (keyOf (cstr "1f") d) := by
    refine ⟨fun hnil => ?_, by rw [hlength]; decide⟩
    rw [hnil] at hlength
    cases hlength
  have htarget : childTarget reference s (cstr "1f") (spanOf (cstr "a-web") d) opSucceeds =
      some (.current, keyOf (cstr "1f") d) := by
    unfold childTarget
    rw [hlookup, hkey]
    exact if_pos ⟨rfl, hvalid⟩
  have htouched : s.touched (cstr "1f") 1000 opSucceeds = s := by
    unfold Store.touched
    rw [hlookup]
  have happly : s.apply reference (fun _ => none) (addDocument (spanOf (cstr "a-web") d)) =
      s.write .current .ts (keyOf (cstr "1f") d) (spanRecord d) := by
    have hadd := addChild_of_target (fun _ => none) h.opened 0 1000 htarget
    rw [htouched] at hadd
    dsimp only [addDocument, Store.apply]
    rw [hadd]
    dsimp only [childRecord, spanRecord, storeString, Store.ttl]
    rw [h.lookback]
    rfl
  have hopen := (apply_spec reference (fun _ => none) h.opened
    (addDocument (spanOf (cstr "a-web") d))).1
  rw [happly] at hopen ⊢
  refine ⟨hopen, h.bloom, h.lookback, h.last, h.marks, fun d' hd' => ?_, fun key v hbelow hv => ?_⟩
  · rw [record_write]
    by_cases heq : d' = d
    · rw [heq, if_pos ⟨rfl, rfl⟩]
    · rw [if_neg fun hc => heq (keyOf_injective _ hc.2)]
      exact h.spans d' ((List.mem_cons.1 hd').resolve_left heq)
  · rw [record_write] at hv
    split_ifs at hv with hkey
    · exact ⟨d, List.mem_cons_self, hkey.2⟩
    · obtain ⟨d', hd', heq⟩ := h.only key v hbelow hv
      exact ⟨d', List.mem_cons_of_mem _ hd', heq⟩

/-- Spans of the root's team with these ids. -/
def spansOf (ids : List Bytes) : List Json := ids.map (spanOf (cstr "a-web"))

theorem onlySpans_childrenOnly {ids : List Bytes} (hids : ∀ d ∈ ids, d.length = 3) :
    OnlySpans ids.reverse (childrenOnly (fun _ => none) (spansOf ids)) := by
  have hfold : ∀ ids acc s, OnlySpans acc s → (∀ d ∈ ids, d.length = 3) →
      OnlySpans (ids.reverse ++ acc) (((spansOf ids).map addDocument).foldl
        (Store.apply reference fun _ => none) s) := by
    intro ids
    induction ids with
    | nil => exact fun acc s h _ => h
    | cons d ids ih =>
      intro acc s h hids
      obtain ⟨hd, hids⟩ := List.forall_mem_cons.1 hids
      have hrest := ih (d :: acc) _ (h.add hd) hids
      rw [List.reverse_cons, List.append_assoc, List.singleton_append]
      exact hrest
  have hall := hfold ids [] _ onlySpans_fresh hids
  rw [List.append_nil] at hall
  exact hall

/-! ### The library on its texts -/

theorem text_spanOf_injective (service : Bytes) :
    Function.Injective fun d => reference.toJsonString (spanOf service d) := by
  intro d d' h
  simpa [reference, spanOf, Json.text, Json.membersText, Json.memberText] using h

theorem text_spanOf_ne (service d : Bytes) :
    reference.toJsonString rootDocument ≠ reference.toJsonString (spanOf service d) := by
  have hroot : (reference.toJsonString rootDocument).take 4 = cstr "\x7b \"t" := rfl
  have hspan : (reference.toJsonString (spanOf service d)).take 4 = cstr "\x7b \"p" := rfl
  intro heq
  rw [heq, hspan] at hroot
  exact absurd hroot (by decide)

theorem parse_spanOf {ids : List Bytes} {d : Bytes} (hd : d ∈ ids) :
    (parsing (spansOf ids)).parse (reference.toJsonString (spanOf (cstr "a-web") d)) =
      some (spanOf (cstr "a-web") d) := by
  dsimp only [parsing]
  rw [List.find?_cons_of_neg (by simpa using text_spanOf_ne _ d)]
  cases hfind : (spansOf ids).find? fun c =>
      reference.toJsonString c = reference.toJsonString (spanOf (cstr "a-web") d) with
  | none =>
    have hno := List.find?_eq_none.1 hfind _ (List.mem_map_of_mem hd)
    simp at hno
  | some c =>
    obtain ⟨d', -, rfl⟩ := List.mem_map.1 (List.mem_of_find?_eq_some hfind)
    have hsame := List.find?_some hfind
    rw [text_spanOf_injective (cstr "a-web") (of_decide_eq_true hsame)]

/-! ### Its root, and what is sent -/

/-- The root of the trace as it is put. -/
def rootOf : StoredRoot := ⟨false, 1000, 1000, 600, reference.toJsonString rootDocument⟩

theorem traceStore_eq {ids : List Bytes} {children : List Json}
    (h : OnlySpans ids (childrenOnly (fun _ => none) children)) :
    traceStore (fun _ => none) children =
      (((childrenOnly (fun _ => none) children).write .current .ts (cstr "1f")
        (.root rootOf)).addBloom (cstr "1f")).write .current .jaeger (cstr "1f") .trace := by
  have hvalid : ValidKey (cstr "1f") := by decide
  have hput := put_eq reference (fun _ => none) h.opened (cstr "1f") ⟨1000, rootDocument⟩ 0 1000
    true
  rw [if_pos ⟨rfl, hvalid⟩] at hput
  have hroot : rootRecord reference (fun _ => none) (childrenOnly (fun _ => none) children)
      ⟨1000, rootDocument⟩ 0 1000 = rootOf := by
    dsimp only [rootRecord, storeString, Store.ttl]
    rw [h.lookback]
    rfl
  rw [hroot] at hput
  have hopen := (apply_spec reference (fun _ => none) h.opened
    (.put (cstr "1f") ⟨1000, rootDocument⟩ 0 1000 true)).1
  dsimp only [traceStore, List.foldl_cons, List.foldl_nil, Store.apply] at hopen ⊢
  rw [hput] at hopen ⊢
  rw [markTraceable_eq hopen, if_pos ⟨rfl, hvalid⟩]

/-- The store of a trace with these spans. -/
structure SpansMarked (ids : List Bytes) (s : Store) : Prop where
  opened : s.Opened
  lookback : s.defaultLookbackSecs = 300
  last : (s.side .last).env.cursor (s.side .last).jaegerDbi = []
  marks : (s.side .current).env.cursor (s.side .current).jaegerDbi = [(cstr "1f", .trace)]
  root : s.record .current (cstr "1f") = some (.root rootOf)
  spans : ∀ d ∈ ids, s.record .current (keyOf (cstr "1f") d) = some (spanRecord d)
  only : ∀ key v, cstr "1f" <+: key → key ≠ cstr "1f" → s.record .current key = some v →
    ∃ d ∈ ids, key = keyOf (cstr "1f") d

theorem spansMarked_traceStore {ids : List Bytes} (hids : ∀ d ∈ ids, d.length = 3) :
    SpansMarked ids (traceStore (fun _ => none) (spansOf ids)) := by
  have h := onlySpans_childrenOnly hids
  obtain ⟨tr, hrun⟩ := run_traceStore (fun _ => none) (spansOf ids)
  have hopen := (hrun.invariant Store.Opened (opened_fresh _ _ _ _) fun _ _ _ hu hstep =>
    opened_store hu hstep).2
  have hrecord : ∀ k, (traceStore (fun _ => none) (spansOf ids)).record .current k =
      if k = cstr "1f" then some (.root rootOf)
      else (childrenOnly (fun _ => none) (spansOf ids)).record .current k := by
    intro k
    rw [traceStore_eq h, record_write_jaeger, record_addBloom, record_write]
    simp
  have hname := (hopen .current).dbName_jaeger
  have hdbi := (hopen .current).jaegerDbi
  refine ⟨hopen, ?_, ?_, ?_, ?_, fun d hd => ?_, fun key v hbelow hne hv => ?_⟩
  · rw [traceStore_eq h]
    exact h.lookback
  · have hlast : (traceStore (fun _ => none) (spansOf ids)).side .last =
        (Store.fresh 1000 1000 300 false).last := by
      rw [traceStore_eq h]
      exact h.last
    rw [hlast]
    rfl
  · have hfile : ((traceStore (fun _ => none) (spansOf ids)).side .current).env.file .jaeger =
        (∅ : Db Stored).insert (cstr "1f") .trace := by
      rw [traceStore_eq h, ← h.marks]
      rfl
    unfold Env.cursor
    rw [hdbi, hname]
    dsimp only
    rw [hfile]
    rfl
  · rw [hrecord, if_pos rfl]
  · rw [hrecord, if_neg (keyOf_ne _ d)]
    exact h.spans d (List.mem_reverse.2 hd)
  · rw [hrecord, if_neg hne] at hv
    obtain ⟨d, hd, heq⟩ := h.only key v hbelow hv
    exact ⟨d, List.mem_reverse.1 hd, heq⟩

section Spans

variable {ids : List Bytes}

theorem mem_belowRoot_spans (h : SpansMarked ids s) {p : Bytes × Stored}
    (hp : p ∈ belowRoot ((s.side .current).env.cursor (s.side .current).dbi) (cstr "1f")) :
    ∃ d ∈ ids, p = (keyOf (cstr "1f") d, spanRecord d) := by
  obtain ⟨key, v⟩ := p
  obtain ⟨⟨hbelow, hne⟩, hv⟩ := (mem_belowRoot_iff (c := ⟨s, fun _ => ∅⟩) h.opened).1 hp
  obtain ⟨d, hd, rfl⟩ := h.only key v hbelow hne hv
  exact ⟨d, hd, by rw [Option.some.inj (hv.symm.trans (h.spans d hd))]⟩

theorem childDocument_spanRecord {d : Bytes} (hd : d ∈ ids) :
    (parsing (spansOf ids)).childDocument (spanRecord d) = some (spanOf (cstr "a-web") d) :=
  parse_spanOf hd

/-- All records are read. -/
theorem decompresses_spans (h : SpansMarked ids s) :
    Decompresses (parsing (spansOf ids)) s .current (cstr "1f") := by
  intro p hp
  obtain ⟨d, -, rfl⟩ := mem_belowRoot_spans h hp
  rfl

theorem mem_documentsBelow_spans (h : SpansMarked ids s) :
    c ∈ documentsBelow (parsing (spansOf ids)) s .current (cstr "1f") ↔ c ∈ spansOf ids := by
  constructor
  · intro hc
    obtain ⟨p, hp, hdocument⟩ := List.mem_filterMap.1 hc
    obtain ⟨d, hd, rfl⟩ := mem_belowRoot_spans h hp
    rw [childDocument_spanRecord hd] at hdocument
    exact List.mem_map.2 ⟨d, hd, Option.some.inj hdocument⟩
  · intro hc
    obtain ⟨d, hd, rfl⟩ := List.mem_map.1 hc
    refine List.mem_filterMap.2 ⟨(keyOf (cstr "1f") d, spanRecord d), ?_,
      childDocument_spanRecord hd⟩
    exact (mem_belowRoot_iff (c := ⟨s, fun _ => ∅⟩) h.opened).2
      ⟨⟨prefix_keyOf _ d, keyOf_ne _ d⟩, h.spans d hd⟩

/-- No document is missing below the root. -/
theorem length_documentsBelow_spans (h : SpansMarked ids s) (hnodup : ids.Nodup) :
    ids.length ≤ (documentsBelow (parsing (spansOf ids)) s .current (cstr "1f")).length := by
  have hinjective : Function.Injective (spanOf (cstr "a-web")) := fun d d' heq =>
    text_spanOf_injective (cstr "a-web") (congrArg reference.toJsonString heq)
  have hle := ((hnodup.map hinjective).subperm fun c hc =>
    (mem_documentsBelow_spans h).2 hc).length_le
  rwa [List.length_map] at hle

theorem followable_spanOf (d : Bytes) : Followable (parsing (spansOf ids)) (spanOf (cstr "a-web") d) ∧
    ¬ IsOrphan (parsing (spansOf ids)) (spanOf (cstr "a-web") d) := by
  have hevent : eventName (parsing (spansOf ids)) (spanOf (cstr "a-web") d) = some (cstr "span") :=
    rfl
  refine ⟨fun _ => ⟨⟨cstr "span", hevent, fun heq => absurd heq (by decide)⟩, _, rfl⟩, ?_⟩
  rintro ⟨herror, -⟩
  rw [hevent] at herror
  exact absurd (Option.some.inj herror) (by decide)

/-- The trace is sent. -/
theorem handed_spans (h : SpansMarked ids s) : ∃ s' report n x,
    tmTransactionStoreProcessJaeger (parsing (spansOf ids)) s 400000 allSucceeds =
      .ok (s', report, n) ∧ x ∈ report.handed ∧ x.key = cstr "1f" := by
  have hsending : ∃ sending, jaegerizeTrace (parsing (spansOf ids)) rootTransaction
      (getChildren (parsing (spansOf ids)) ((s.side .current).env.cursor (s.side .current).dbi)
        (cstr "1f")) = .ok (some sending) := by
    refine jaegerizeTrace_ok_iff.2 ⟨⟨cstr "a", rfl⟩, fun c hc => ?_⟩
    rw [getChildren_eq (decompresses_spans h)] at hc
    obtain ⟨d, -, rfl⟩ := List.mem_map.1 ((mem_documentsBelow_spans h).1 (List.mem_of_mem_take hc))
    exact followable_spanOf d
  obtain ⟨sending, hsending⟩ := hsending
  have hrecord : markedRecord s .current (cstr "1f") .trace = some (.root rootOf) := by
    have hname := (h.opened .current).dbName_ts
    have hroot := h.root
    unfold Store.record at hroot
    unfold markedRecord
    rw [if_pos rfl, (h.opened .current).dbi, get_eq hname (by decide), hroot]
  have hdelete : ∃ store, deleteMark s .current (cstr "1f") allSucceeds = some store :=
    isSome_deleteMark s .current rfl
  obtain ⟨store, hdelete⟩ := hdelete
  have hquiet : rootOf.lastModifiedMs ≤ timeMs s.defaultLookbackSecs 400000 := by
    rw [h.lookback]
    decide
  have hparse : (parsing (spansOf ids)).parse rootOf.data = some rootDocument := by
    dsimp only [parsing, rootOf]
    rw [List.find?_cons_of_pos (by simp)]
  obtain ⟨x, hdocument, hkey⟩ : ∃ x : Handed, jaegerizeDocument (parsing (spansOf ids)) rootDocument
      ((s.side .current).env.cursor (s.side .current).dbi) (cstr "1f") = .ok (some x) ∧
        x.key = cstr "1f" := ⟨_, bind_eq_ok.2 ⟨_, hsending, rfl⟩, rfl⟩
  have hvisit := @visitMark_document _ .current s (timeMs s.defaultLookbackSecs 400000) allSucceeds
    (cstr "1f", .trace) (s, ⟨0, [], []⟩) _ _ _ _ store hrecord hquiet rfl hparse hdocument hdelete
  obtain ⟨report, control, hvisit, hhanded, hcontrol⟩ := hvisit
  have hopened : ∀ side, allSucceeds.read side = true := fun _ => rfl
  -- the only mark of the current environment, and none in the last one
  have hcurrent : visitSide (parsing (spansOf ids)) .current s
      (timeMs s.defaultLookbackSecs 400000) allSucceeds (s, ⟨0, [], []⟩) =
        .ok ((store, report), false) := by
    unfold visitSide
    rw [if_pos (hopened _), h.marks]
    refine bind_eq_ok.2 ⟨_, hvisit, ?_⟩
    cases control with
    | next => rfl
    | stop => rfl
    | leave => exact absurd rfl hcontrol
  have hlast : visitSide (parsing (spansOf ids)) .last store
      (timeMs s.defaultLookbackSecs 400000) allSucceeds (store, report) =
        .ok ((store, report), false) := by
    obtain ⟨-, hother, -⟩ := deleteMark_spec h.opened hdelete
    have hside : store.side .last = s.side .last := hother
    unfold visitSide
    rw [if_pos (hopened _), hside, h.last]
    rfl
  refine ⟨store, report, report.jaegeredCount, x,
    bind_eq_ok.2 ⟨_, hcurrent, bind_eq_ok.2 ⟨_, hlast, rfl⟩⟩, ?_, hkey⟩
  rw [hhanded]
  exact List.mem_singleton_self x

end Spans

/-! ### Three traces -/

/-- Ids of three hexadecimal digits. -/
def hexIds : List Bytes :=
  ((cstr "0123456789abcdef" ×ˢ cstr "0123456789abcdef") ×ˢ cstr "0123456789abcdef").map fun p =>
    [p.1.1, p.1.2, p.2]

theorem length_hexIds : hexIds.length = 4096 := by
  unfold hexIds
  rw [List.length_map, List.length_product, List.length_product]
  rfl

theorem nodup_hexIds : hexIds.Nodup := by
  have hdigits : (cstr "0123456789abcdef").Nodup := by decide
  refine ((hdigits.product hdigits).product hdigits).map ?_
  rintro ⟨⟨a, b⟩, c⟩ ⟨⟨a', b'⟩, c'⟩ heq
  simpa [and_assoc] using heq

theorem length_of_mem_hexIds {d : Bytes} (hd : d ∈ hexIds) : d.length = 3 := by
  obtain ⟨p, -, rfl⟩ := List.mem_map.1 hd
  rfl

/-- More spans than fit the limit: the last ones are not sent. -/
theorem crowd_not_sent : ∃ s h, IsSent (parsing (spansOf hexIds)) (fun _ => none) s .current h ∧
    Decompresses (parsing (spansOf hexIds)) s .current h.key ∧
    ¬ h.SpansSent (parsing (spansOf hexIds))
      (documentsBelow (parsing (spansOf hexIds)) s .current h.key) := by
  have hmarked : SpansMarked hexIds (traceStore (fun _ => none) (spansOf hexIds)) :=
    spansMarked_traceStore fun d hd => length_of_mem_hexIds hd
  obtain ⟨s', report, n, h, hok, hmem, hkey⟩ := handed_spans hmarked
  have hsent := isSent_current hmarked.last hok hmem
  refine ⟨_, h, hsent, hkey ▸ decompresses_spans hmarked, ?_⟩
  obtain ⟨-, now, a, s'', report', n', -, -, hfrom⟩ := hsent
  have hread := decompresses_spans hmarked
  rw [← hkey] at hread
  have hcomplete := hfrom.children_eq.trans (getChildren_eq hread)
  have hlength := length_documentsBelow_spans hmarked nodup_hexIds
  rw [length_hexIds, ← hkey] at hlength
  obtain ⟨c, hc⟩ : ∃ c, (documentsBelow (parsing (spansOf hexIds)) (traceStore (fun _ => none)
      (spansOf hexIds)) .current h.key)[maxChildCount]? = some c := by
    have hlt : maxChildCount < 4096 := by decide
    exact ⟨_, List.getElem?_eq_getElem (hlt.trans_le hlength)⟩
  refine not_spansSent hfrom ?_ hc ?_
  · rw [hcomplete, List.length_take]
    exact min_le_left _ _
  · have hmem := List.mem_of_getElem? hc
    rw [hkey] at hmem
    obtain ⟨d, -, rfl⟩ := List.mem_map.1 ((mem_documentsBelow_spans hmarked).1 hmem)
    exact ⟨_, rfl, _, rfl, .inr rfl⟩
/-- Two errors of one span. -/
def twoErrors : List Json :=
  [spanA, errorOf (cstr "e1") (cstr "01"), errorOf (cstr "e2") (cstr "01")]

/-- The second one is not attached. -/
theorem second_error_lost : ∃ s h, IsSent (parsing twoErrors) (fun _ => none) s .current h ∧
    Decompresses (parsing twoErrors) s .current h.key ∧
    ¬ h.ErrorsAttached (parsing twoErrors)
      (documentsBelow (parsing twoErrors) s .current h.key) := by
  have hok : ∃ s' count errors posts sent n, tmTransactionStoreProcessJaeger (parsing twoErrors)
      (traceStore (fun _ => none) twoErrors) 400000 allSucceeds = .ok (s', ⟨count,
        [⟨cstr "1f", rootTransaction, twoErrors, ⟨cstr "a", errors, posts, sent⟩⟩], []⟩, n) ∧
      attachedTo errors (some (cstr "01")) = some 1 ∧
      ⟨.child 0, cstr "a:14250"⟩ ∈ posts := ⟨_, _, _, _, _, _, rfl, rfl, by decide⟩
  obtain ⟨s', count, errors, posts, sent, n, hok, herror, hpost⟩ := hok
  have hread : Decompresses (parsing twoErrors) (traceStore (fun _ => none) twoErrors) .current
      (cstr "1f") := by
    unfold Decompresses
    decide
  refine ⟨_, _, isSent_current (by rfl) hok (List.mem_singleton_self _), hread, fun hall => ?_⟩
  have hsecond := hall 2 (errorOf (cstr "e2") (cstr "01")) (cstr "01") rfl rfl _ hpost rfl
  exact absurd (Option.some.inj (herror.symm.trans hsecond)) (by decide)

/-- The text of one span is compressed. -/
def compressB (text : Bytes) : Option Bytes :=
  if text = reference.toJsonString spanB then some [] else none

set_option maxRecDepth 2000 in
/-- It cannot be decompressed, and the span before it is not sent. -/
theorem unreadable_not_sent : ∃ s h, IsSent (parsing [spanA, spanB]) compressB s .current h ∧
    (documentsBelow (parsing [spanA, spanB]) s .current h.key).length = 1 ∧
    ¬ h.SpansSent (parsing [spanA, spanB])
      (documentsBelow (parsing [spanA, spanB]) s .current h.key) := by
  have hok : ∃ s' count sending n, tmTransactionStoreProcessJaeger (parsing [spanA, spanB])
      (traceStore compressB [spanA, spanB]) 400000 allSucceeds =
        .ok (s', ⟨count, [⟨cstr "1f", rootTransaction, [], sending⟩], []⟩, n) :=
    ⟨_, _, _, _, rfl⟩
  obtain ⟨s', count, sending, n, hok⟩ := hok
  have hmarks : ((traceStore compressB [spanA, spanB]).side .last).env.cursor
      ((traceStore compressB [spanA, spanB]).side .last).jaegerDbi = [] := by decide
  have hsent := isSent_current hmarks hok (List.mem_singleton_self _)
  have hlength : (documentsBelow (parsing [spanA, spanB]) (traceStore compressB [spanA, spanB])
      .current (cstr "1f")).length = 1 := by decide
  have hfirst : (documentsBelow (parsing [spanA, spanB]) (traceStore compressB [spanA, spanB])
      .current (cstr "1f"))[0]? = some spanA := by rfl
  refine ⟨_, _, hsent, hlength, ?_⟩
  obtain ⟨-, now, a, s'', report, n', -, -, hfrom⟩ := hsent
  have hspan : IsSpanOrTransaction (parsing [spanA, spanB]) spanA := ⟨_, rfl, _, rfl, .inr rfl⟩
  exact not_spansSent hfrom (Nat.zero_le 0) hfirst hspan

end Tracemate.TransactionStore
