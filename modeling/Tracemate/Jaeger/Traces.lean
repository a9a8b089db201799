import Tracemate.Jaeger.Messages
import Tracemate.TransactionStore.Completeness

/-!
# Errors in the messages of a trace

What `tm_transaction_store_process_jaeger` makes Jaeger get of a trace that it hands over: for each
of its calls, the span that `jaegerize_transaction` or `jaegerize_span` sends.

* `sendPost`: the span of a call, with the errors that the first pass has found;
* `errorFor`: the first error of the trace that names a document;
* `Recordable`, `isSome_foundLog`: the errors that have a log;
* `errors_on_their_spans`: a span carries the log of the first error that names it, and nothing of
  any other error.
-/

namespace Tracemate.Jaeger.Proto

open CStr COutcome Outcome Endian JsonC
open Tracemate.TransactionStore

section Calls

variable (o : ByteOrder) (acc : Accessors) (j : JaegerEnv) (h : Handed)

/-- The function that is called for a document. -/
def kindOf : Document → Kind
  | .root => .transaction
  | .child i =>
    if (h.children[i]?).bind (eventName j) = some (cstr "transaction") then .transaction else .span

/-- The document. -/
def documentOf : Document → Option Json
  | .root => some h.trans
  | .child i => h.children[i]?

/-- `mtev_hash_get` of `span_errors`: the data of the entry. -/
def spanErrorOf (id : Bytes) : Option Json :=
  (h.sending.spanErrors.lookup id).bind fun i => h.children[i]?

/-- The span that is sent by a call, with these errors. -/
def sendPost (errors : Bytes → Option Json) (post : Post) : Outcome (Option Span) :=
  send o j.lib acc (kindOf j h post.document) post.destination errors (documentOf h post.document)

/-- The first error of the trace that names the document as its parent. -/
def errorFor (d : Document) : Option Json :=
  (h.idOf j d).bind fun id => h.children.find? fun c => parentOf j c = some id

/-- The span with the log of its error, if there is one. -/
def Span.record (span : Span) : Option Log → Span
  | none => span
  | some log =>
    { span with
      tags := span.tags ++ [.bool (cstr "error") true]
      logs := span.logs ++ [log] }

/-- The error has the members without which nothing is recorded of it. -/
def Recordable (e : Json) : Prop :=
  (Json.get (cstr "error") (some e)).isSome ∧
    (Json.get (cstr "us") (Json.get (cstr "timestamp") (some e))).isSome ∧
    (Json.get (cstr "trace") (some e)).isSome

end Calls

variable {o : ByteOrder} {lib : Conversions} {acc : Accessors} {j : JaegerEnv} {h : Handed}
  {draft : Draft} {kind : Kind} {message : Option Json}

theorem complete_record (draft : Draft) (log : Option Log) (tid id : Bytes)
    (references : List SpanRef) :
    (draft.record log).complete o acc kind message tid id references =
      (draft.complete o acc kind message tid id references).record log := by
  cases log <;> rfl

/-- The error is recorded after everything else has been set. -/
theorem send_eq_record {jaegerUrl : Bytes} {errors : Bytes → Option Json} {span : Span} :
    send o lib acc kind jaegerUrl errors message = .ok (some span) ↔
      ∃ plain log, send o lib acc kind jaegerUrl (fun _ => none) message = .ok (some plain) ∧
        foundLog lib acc ((lib.getString (kind.id lib message)).bind errors) = .ok log ∧
        span = plain.record log := by
  simp only [send_eq_some, finish_eq_ok]
  constructor
  · rintro ⟨hurl, draft, hdraft, id, log, references, hid, hlog, hreferences, rfl⟩
    refine ⟨_, log, ⟨hurl, draft, hdraft, id, none, references, hid, rfl, hreferences, rfl⟩, ?_,
      complete_record _ _ _ _ _⟩
    rwa [hid]
  · rintro ⟨plain, log, ⟨hurl, draft, hdraft, id, none', references, hid, hnone, hreferences, rfl⟩,
      hlog, rfl⟩
    obtain rfl := Except.ok.inj hnone
    rw [hid] at hlog
    exact ⟨hurl, draft, hdraft, id, log, references, hid, hlog, hreferences,
      (complete_record _ _ _ _ _).symm⟩

/-- Nothing is recorded of an error without the members for it. -/
theorem recordable_of_errorLog {e : Json} {log : Log}
    (hlog : errorLog lib acc (some e) = .ok (some log)) : Recordable e := by
  unfold errorLog at hlog
  simp only [returnIfMissing_eq_some] at hlog
  obtain ⟨errorJson, herror, timestamp, htimestamp, us, hus, trace, htrace, -⟩ := hlog
  refine ⟨by rw [herror]; rfl, ?_, by rw [htrace]; rfl⟩
  rw [htimestamp, hus]
  rfl

/-- An error with the members for it has a log. -/
theorem Recordable.isSome {e : Json} (h : Recordable e) {log : Option Log}
    (hlog : errorLog lib acc (some e) = .ok log) : log.isSome := by
  obtain ⟨herror, hus, htrace⟩ := h
  obtain ⟨errorJson, herror⟩ := Option.isSome_iff_exists.1 herror
  obtain ⟨us, hus⟩ := Option.isSome_iff_exists.1 hus
  obtain ⟨trace, htrace⟩ := Option.isSome_iff_exists.1 htrace
  cases htimestamp : Json.get (cstr "timestamp") (some e) with
  | none =>
    rw [htimestamp] at hus
    cases hus
  | some timestamp =>
    rw [htimestamp] at hus
    unfold errorLog returnIfMissing at hlog
    rw [herror, htimestamp, htrace] at hlog
    dsimp only at hlog
    rw [hus] at hlog
    obtain ⟨first, -, hlog⟩ := bind_eq_ok.1 hlog
    obtain rfl := Except.ok.inj hlog
    rfl

theorem isSome_foundLog {error : Option Json} {log : Option Log}
    (hlog : foundLog lib acc error = .ok log) :
    log.isSome ↔ ∃ e, error = some e ∧ Recordable e := by
  cases error with
  | none =>
    obtain rfl := Except.ok.inj hlog
    simp
  | some e =>
    constructor
    · intro hsome
      obtain ⟨l, rfl⟩ := Option.isSome_iff_exists.1 hsome
      exact ⟨e, rfl, recordable_of_errorLog hlog⟩
    · rintro ⟨e', heq, he⟩
      obtain rfl := Option.some.inj heq
      exact he.isSome hlog

/-! ### Traces that are handed over -/

/-- The id under which an error is looked for is the one of the document. -/
theorem getString_kindOf (d : Document) :
    j.lib.getString ((kindOf j h d).id j.lib (documentOf h d)) = h.idOf j d := by
  cases d with
  | root => rfl
  | child i =>
    show j.lib.getString (Kind.id j.lib (if _ then _ else _) h.children[i]?) =
      (h.children[i]?).bind _
    cases h.children[i]? with
    | none => rfl
    | some c =>
      rw [Option.bind_some, Option.bind_some]
      unfold ownId
      split_ifs <;> rfl

/-- The error that is found for an id is the first one that names it. -/
theorem spanErrorOf_eq (hsent : jaegerizeTrace j h.trans h.children = .ok (some h.sending))
    (id : Bytes) : spanErrorOf h id = h.children.find? fun c => parentOf j c = some id := by
  have hlookup := lookup_spanErrors (spanErrors_of_sent hsent) id
  have hempty : (∅ : Lmdb.Db ℕ).lookup id = none := rfl
  rw [hempty, Option.none_or] at hlookup
  unfold spanErrorOf
  rw [hlookup]
  cases hfind : h.children.findIdx? fun c => parentOf j c = some id with
  | none =>
    rw [Option.map_none, Option.bind_none]
    exact (List.find?_eq_none.2 fun c hc => by
      simpa using List.findIdx?_eq_none_iff.1 hfind c hc).symm
  | some i =>
    rw [Option.map_some, Option.bind_some, Nat.zero_add]
    obtain ⟨hi, hparent, hbefore⟩ := List.findIdx?_eq_some_iff_getElem.1 hfind
    rw [List.getElem?_eq_getElem hi]
    symm
    rw [List.find?_eq_some_iff_getElem]
    refine ⟨hparent, i, hi, rfl, fun k hk => ?_⟩
    simpa using hbefore k hk

/-- **Errors.**  In every trace that is handed over, a call sends the span that it would send
without errors, with the log of the first error of the trace that names its document; there is a log
if and only if there is such an error and it has the members for it. -/
theorem errors_on_their_spans (o : ByteOrder) (acc : Accessors) {s s' : Store} {now : ℕ}
    {a : JaegerAnswers} {report : JaegerReport} {n : ℕ}
    (hok : tmTransactionStoreProcessJaeger j s now a = .ok (s', report, n))
    (hmem : h ∈ report.handed) (post : Post) (span : Span) :
    sendPost o acc j h (spanErrorOf h) post = .ok (some span) ↔
      ∃ plain log, sendPost o acc j h (fun _ => none) post = .ok (some plain) ∧
        foundLog j.lib acc (errorFor j h post.document) = .ok log ∧
        (log.isSome ↔ ∃ e, errorFor j h post.document = some e ∧ Recordable e) ∧
        span = plain.record log := by
  have hsent := sent_of_handed hok h hmem
  have herror : (j.lib.getString ((kindOf j h post.document).id j.lib
      (documentOf h post.document))).bind (spanErrorOf h) = errorFor j h post.document := by
    rw [getString_kindOf]
    exact Option.bind_congr fun id _ => spanErrorOf_eq hsent id
  unfold sendPost
  rw [send_eq_record, herror]
  constructor
  · rintro ⟨plain, log, hplain, hlog, rfl⟩
    exact ⟨plain, log, hplain, hlog, isSome_foundLog hlog, rfl⟩
  · rintro ⟨plain, log, hplain, hlog, -, rfl⟩
    exact ⟨plain, log, hplain, hlog, rfl⟩

/-- An error of a span. -/
def errorAt (parent message : Bytes) : Json := .obj [
  (cstr "processor", .obj [(cstr "event", .str (cstr "error"))]),
  (cstr "timestamp", .obj [(cstr "us", .int 1600000)]),
  (cstr "trace", .obj [(cstr "id", .str (cstr "1f"))]),
  (cstr "parent", .obj [(cstr "id", .str parent)]),
  (cstr "error", .obj [(cstr "id", .str message),
    (cstr "exception", .obj [(cstr "message", .str message)])])]

/-- A span with two errors. -/
def failedCall : List Json :=
  [callSpan, errorAt (cstr "01") (cstr "e1"), errorAt (cstr "01") (cstr "e2")]

set_option maxRecDepth 4000 in
/-- The trace is handed over as it is. -/
theorem handed_failedCall : ∃ s' count errors posts sent n,
    tmTransactionStoreProcessJaeger (parsing failedCall)
      (traceStore (fun _ => none) failedCall) 400000 allSucceeds = .ok (s', ⟨count,
        [⟨cstr "1f", rootTransaction, failedCall, ⟨cstr "a", errors, posts, sent⟩⟩], []⟩, n) :=
  ⟨_, _, _, _, _, _, rfl⟩

/-- The span has the log of the first of its two errors. -/
theorem errors_on_their_spans_twice : ∃ s' report n h plain log span,
    tmTransactionStoreProcessJaeger (parsing failedCall)
      (traceStore (fun _ => none) failedCall) 400000 allSucceeds = .ok (s', report, n) ∧
    h ∈ report.handed ∧
    sendPost .little plainAccessors (parsing failedCall) h (spanErrorOf h)
      ⟨.child 0, cstr "a:14250"⟩ = .ok (some span) ∧
    span = Span.record plain (some log) ∧ span.logs.length = 1 ∧
    log.fields = [.string (cstr "message") (cstr "e1")] := by
  obtain ⟨s', count, errors, posts, sent, n, hok⟩ := handed_failedCall
  have hmem := List.mem_singleton_self
    (⟨cstr "1f", rootTransaction, failedCall, ⟨cstr "a", errors, posts, sent⟩⟩ : Handed)
  have hplain : ∃ plain, sendPost .little plainAccessors (parsing failedCall)
      ⟨cstr "1f", rootTransaction, failedCall, ⟨cstr "a", errors, posts, sent⟩⟩ (fun _ => none)
      ⟨.child 0, cstr "a:14250"⟩ = .ok (some plain) ∧ plain.logs = [] := ⟨_, rfl, rfl⟩
  have hlog : ∃ log, foundLog reference plainAccessors
      (some (errorAt (cstr "01") (cstr "e1"))) = .ok (some log) ∧
      log.fields = [.string (cstr "message") (cstr "e1")] := ⟨_, rfl, rfl⟩
  obtain ⟨plain, hplain, hnone⟩ := hplain
  obtain ⟨log, hlog, hfields⟩ := hlog
  have hspan := (errors_on_their_spans .little plainAccessors hok hmem
    ⟨.child 0, cstr "a:14250"⟩ (plain.record (some log))).2 ⟨plain, some log, hplain, hlog,
      isSome_foundLog hlog, rfl⟩
  refine ⟨s', _, n, _, plain, log, _, hok, hmem, hspan, rfl, ?_, hfields⟩
  show (plain.logs ++ [log]).length = 1
  rw [hnone]
  rfl

end Tracemate.Jaeger.Proto
