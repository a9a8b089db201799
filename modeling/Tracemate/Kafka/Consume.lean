import Tracemate.Process.UrlMessage

/-!
# Consuming a topic

`tm_kafka.c`: the messages of a topic are read in batches, parsed, and handed to the function of
their event; a hook may drop a document, change it or add another one.

* `Message`, `Event`, `TopicStats`: the messages, their events and the counters of a topic;
* `Handlers`: what the loop calls: the parser, the hook and the functions of the events;
* `handleMessage`, `processMessage`, `consumeMessages`: the functions;
* `Poison`, `consumed_accounts`: what no batch survives, and what the counters say after any
  batches.
-/

namespace Tracemate.Kafka

open CStr COutcome Outcome JsonC

/-! ### Messages and counters -/

/-- The fields of a `rd_kafka_message_t` that are read; `len` is the length of the payload. -/
structure Message where
  err : ℤ
  payload : Option Bytes
  offset : ℤ

/-- The events that have a function. -/
inductive Event
  | metric
  | transaction
  | span
  | error
  | aggregate
  | url
  | regex
  deriving DecidableEq

/-- The comparisons of `tm_kafka_handle_message`. -/
def eventOf (event : Bytes) : Option Event :=
  if event = cstr "metric" then some .metric
  else if event = cstr "transaction" then some .transaction
  else if event = cstr "span" then some .span
  else if event = cstr "error" then some .error
  else if event = cstr "aggregate" then some .aggregate
  else if event = cstr "url" then some .url
  else if event = cstr "regex" then some .regex
  else none

/-- The fields of a `topic_stats_t` that are written. -/
structure TopicStats where
  messagesSeen : ℕ
  messagesFiltered : ℕ
  messagesProcessed : ℕ
  messagesErrored : ℕ
  kafkaOffset : ℕ
  messageProcessLatency : List ℕ

/-- An `int64_t` as a `uint64_t`. -/
def toUint64 (z : ℤ) : ℕ := (z % 2 ^ 64).toNat

/-- A message that is handled: the readings of the clock before and after it, and what the
functions find outside. -/
structure Delivery (τ : Type) where
  message : Message
  startUs : ℕ
  endUs : ℕ
  turn : τ

/-- The state of a reader: what the functions share, the counters, and the documents and tokeners
that are not freed. -/
structure Consumer (σ : Type) where
  shared : σ
  stats : TopicStats
  documents : ℕ
  tokeners : ℕ

/-! ### What is called -/

/-- What a function of an event leaves behind: the state, what it has added to the counters, and
whether it keeps the document. -/
structure Reply (σ : Type) where
  shared : σ
  errored : ℕ
  filtered : ℕ
  keep : Bool

/-- What `elastic_apm_document_hook_invoke` leaves behind. -/
structure HookReply where
  abort : Bool
  top : Json
  result : Option Json
  ttl : ℤ

/-- No module has a hook. -/
def HookReply.none (top : Json) : HookReply := ⟨false, top, .none, 600⟩

structure Handlers (σ τ : Type) where
  lib : Conversions
  parse : Bytes → Option Json
  hook : τ → Json → HookReply
  process : Event → τ → Json → ℤ → σ → Outcome (Reply σ)
  otelProcessJaegerSpan : τ → Message → σ → Outcome (σ × Bool)

variable {σ τ : Type}

/-- No function keeps a document. -/
def Handlers.NeverKeeps (h : Handlers σ τ) : Prop :=
  ∀ e turn top ttl s r, h.process e turn top ttl s = .ok r → r.keep = false

/-! ### The functions -/

section Functions

variable (h : Handlers σ τ)

/-- The field `event` of the object `processor`. -/
def eventText (processor : Json) : Option Bytes :=
  cString h.lib (Json.get (cstr "event") (some processor))

/-- `tm_kafka_handle_message`. -/
def handleMessage (turn : τ) (event : Option Bytes) (top : Json) (ttl : ℤ) (c : Consumer σ) :
    Outcome (Consumer σ × Bool) := do
  -- `strcmp` reads the pointer
  let event ← nonNull event
  match eventOf event with
  | some e => do
    let r ← h.process e turn top ttl c.shared
    return ({ c with
      shared := r.shared
      stats := { c.stats with
        messagesErrored := c.stats.messagesErrored + r.errored
        messagesFiltered := c.stats.messagesFiltered + r.filtered } }, r.keep)
  | none =>
    return ({ c with stats :=
      { c.stats with messagesErrored := c.stats.messagesErrored + 1 } }, false)

/-- `mtev_json_object_put`, unless the document is kept. -/
def Consumer.put (c : Consumer σ) (keep : Bool) : Consumer σ :=
  if keep then c else { c with documents := c.documents - 1 }

/-- The document of the hook. -/
def processResult (turn : τ) (result : Option Json) (ttl : ℤ) (c : Consumer σ) :
    Outcome (Consumer σ) :=
  match result with
  | none => .ok c
  | some result =>
    let c := { c with documents := c.documents + 1 }
    match Json.get (cstr "processor") (some result) with
    -- nothing puts it
    | none => .ok c
    | some processor => do
      let (c, keep) ← handleMessage h turn (eventText h processor) result ttl c
      return c.put keep

/-- The document of a message that has a processor, up to the label `skip` and the `put` behind
it. -/
def processDocument (turn : τ) (event : Option Bytes) (r : HookReply) (c : Consumer σ) :
    Outcome (Consumer σ) :=
  if r.abort then
    .ok (({ c with stats :=
      { c.stats with messagesFiltered := c.stats.messagesFiltered + 1 } } : Consumer σ).put false)
  else do
    let (c, keep) ← handleMessage h turn event r.top r.ttl c
    return c.put keep

/-- The branch for a parsed message. -/
def processTop (d : Delivery τ) (top : Json) (c : Consumer σ) : Outcome (Consumer σ × Bool) :=
  let c := { c with
    stats := { c.stats with
      kafkaOffset := toUint64 d.message.offset
      messagesProcessed := c.stats.messagesProcessed + 1 }
    documents := c.documents + 1 }
  match Json.get (cstr "processor") (some top) with
  | none =>
    .ok (({ c with stats :=
      { c.stats with messagesErrored := c.stats.messagesErrored + 1 } } : Consumer σ).put false,
        true)
  | some processor => do
    let r := h.hook d.turn top
    let c ← processDocument h d.turn (eventText h processor) r c
    let c ← processResult h d.turn r.result r.ttl c
    return ({ c with stats := { c.stats with
      messageProcessLatency := toUint64 (d.endUs - d.startUs) :: c.stats.messageProcessLatency } },
      true)

/-- `tm_kafka_process_message`. -/
def processMessage (topic : Bytes) (d : Delivery τ) (c : Consumer σ) :
    Outcome (Consumer σ × Bool) :=
  if d.message.err = 0 then
    let c := { c with stats := { c.stats with messagesSeen := c.stats.messagesSeen + 1 } }
    if topic = cstr "otlp_spans" then do
      let (shared, rval) ← h.otelProcessJaegerSpan d.turn d.message c.shared
      return ({ c with shared }, rval)
    else
      match d.message.payload with
      -- the tokener is freed in the other branch only
      | none => .ok ({ c with tokeners := c.tokeners + 1 }, false)
      | some json =>
        match h.parse json with
        | none => .ok (c, false)
        | some top => processTop h d top c
  else do
    -- `strcmp` reads the pointer
    let text ← nonNull d.message.payload
    if strAt text = cstr "Broker: No more messages" then return (c, false)
    else
      return ({ c with stats :=
        { c.stats with messagesErrored := c.stats.messagesErrored + 1 } }, false)

/-- The loop of `tm_kafka_consume_messages`. -/
def consumeFrom (topic : Bytes) (offset : ℕ) (c : Consumer σ) :
    List (Delivery τ) → Outcome (Consumer σ × ℕ)
  | [] => .ok (c, offset)
  | d :: ds => do
    let (c, _) ← processMessage h topic d c
    let o := toUint64 d.message.offset
    consumeFrom topic (if offset < o then o else offset) c ds

/-- `tm_kafka_consume_messages`: the reader after a batch, and what is returned. -/
def consumeMessages (topic : Bytes) (c : Consumer σ) (batch : List (Delivery τ)) :
    Outcome (Consumer σ × ℕ) :=
  consumeFrom h topic 0 c batch

/-- The reads of a topic, one batch after another: the reader after them, and what they return. -/
def consumeBatches (topic : Bytes) (c : Consumer σ) :
    List (List (Delivery τ)) → Outcome (Consumer σ × List ℕ)
  | [] => .ok (c, [])
  | batch :: batches => do
    let (c, offset) ← consumeMessages h topic c batch
    let (c, offsets) ← consumeBatches topic c batches
    return (c, offset :: offsets)

/-! ### What becomes of a message -/

/-- What a message that is no error is parsed to. -/
def topOf (topic : Bytes) (d : Delivery τ) : Option Json :=
  if d.message.err = 0 ∧ topic ≠ cstr "otlp_spans" then d.message.payload.bind h.parse else none

/-- The processor of a document, and what the hook makes of the document. -/
def hooked (topic : Bytes) (d : Delivery τ) : Option (Json × HookReply) :=
  (topOf h topic d).bind fun top =>
    (Json.get (cstr "processor") (some top)).map fun processor => (processor, h.hook d.turn top)

/-- The processor of the document that the hook adds. -/
def HookReply.resultProcessor (r : HookReply) : Option Json :=
  r.result.bind fun result => Json.get (cstr "processor") (some result)

/-- The strings that are compared with the names of the events. -/
def comparedEvents (topic : Bytes) (d : Delivery τ) : List (Option Bytes) :=
  match hooked h topic d with
  | none => []
  | some (processor, r) =>
    (if r.abort then [] else [eventText h processor]) ++ r.resultProcessor.toList.map (eventText h)

/-- The message is an error without a text, or one of the compared strings is missing. -/
def Poison (topic : Bytes) (d : Delivery τ) : Prop :=
  (d.message.err ≠ 0 ∧ d.message.payload = none) ∨ none ∈ comparedEvents h topic d

/-- An event without a function. -/
def isUnknown (event : Option Bytes) : Bool := (event.bind eventOf).isNone

/-- How often the loop itself counts an error for a message. -/
def failures (topic : Bytes) (d : Delivery τ) : ℕ :=
  if d.message.err ≠ 0 then
    if d.message.payload.map strAt = some (cstr "Broker: No more messages") then 0 else 1
  else if (topOf h topic d).isSome ∧ (hooked h topic d).isNone then 1
  else (comparedEvents h topic d).countP isUnknown

/-- The hook drops the document. -/
def isDropped (topic : Bytes) (d : Delivery τ) : Bool :=
  (hooked h topic d).any fun e => e.2.abort

/-- The hook adds a document without a processor. -/
def isStray (topic : Bytes) (d : Delivery τ) : Bool :=
  (hooked h topic d).any fun e => e.2.result.isSome && e.2.resultProcessor.isNone

/-- A message without a payload. -/
def isTombstone (topic : Bytes) (d : Delivery τ) : Bool :=
  d.message.err = 0 ∧ topic ≠ cstr "otlp_spans" ∧ d.message.payload = none

/-- The largest offset of a batch. -/
def largestOffset (batch : List (Delivery τ)) : ℕ :=
  batch.foldl (fun o d => max o (toUint64 d.message.offset)) 0

end Functions

/-- No function counts an error. -/
def Handlers.Quiet (h : Handlers σ τ) : Prop :=
  ∀ e turn top ttl s r, h.process e turn top ttl s = .ok r → r.errored = 0

/-- What the counters say of the messages `ds`, read between `c` and `c'`. -/
structure Accounts (h : Handlers σ τ) (topic : Bytes) (ds : List (Delivery τ))
    (c c' : Consumer σ) : Prop where
  seen : c'.stats.messagesSeen =
    c.stats.messagesSeen + ds.countP fun d => d.message.err = 0
  processed : c'.stats.messagesProcessed =
    c.stats.messagesProcessed + ds.countP fun d => (topOf h topic d).isSome
  timed : c'.stats.messageProcessLatency.length =
    c.stats.messageProcessLatency.length + ds.countP fun d => (hooked h topic d).isSome
  errored : c.stats.messagesErrored + (ds.map (failures h topic)).sum ≤ c'.stats.messagesErrored
  errored_eq : h.Quiet →
    c'.stats.messagesErrored = c.stats.messagesErrored + (ds.map (failures h topic)).sum
  filtered : c.stats.messagesFiltered + ds.countP (isDropped h topic) ≤ c'.stats.messagesFiltered
  offset : c'.stats.kafkaOffset = ((ds.filter fun d => (topOf h topic d).isSome).getLast?).elim
    c.stats.kafkaOffset fun d => toUint64 d.message.offset
  documents : h.NeverKeeps → c'.documents = c.documents + ds.countP (isStray h topic)
  tokeners : c'.tokeners = c.tokeners + ds.countP (isTombstone topic)

/-! ### One message -/

variable {h : Handlers σ τ} {topic : Bytes} {d : Delivery τ} {ds : List (Delivery τ)}
  {c c' c'' : Consumer σ}

/-- The functions of the events `events` have been called, or counted as unknown. -/
structure Handled (h : Handlers σ τ) (events : List (Option Bytes)) (c c' : Consumer σ) : Prop where
  present : none ∉ events
  seen : c'.stats.messagesSeen = c.stats.messagesSeen
  processed : c'.stats.messagesProcessed = c.stats.messagesProcessed
  timed : c'.stats.messageProcessLatency = c.stats.messageProcessLatency
  offset : c'.stats.kafkaOffset = c.stats.kafkaOffset
  tokeners : c'.tokeners = c.tokeners
  errored : c.stats.messagesErrored + events.countP isUnknown ≤ c'.stats.messagesErrored
  errored_eq : h.Quiet →
    c'.stats.messagesErrored = c.stats.messagesErrored + events.countP isUnknown
  filtered : c.stats.messagesFiltered ≤ c'.stats.messagesFiltered

theorem Handled.nil {stats : TopicStats} {shared : σ} {documents tokeners documents' : ℕ} :
    Handled h [] ⟨shared, stats, documents, tokeners⟩ ⟨shared, stats, documents', tokeners⟩ :=
  ⟨List.not_mem_nil, rfl, rfl, rfl, rfl, rfl, Nat.le_refl _, fun _ => rfl, Nat.le_refl _⟩

theorem Handled.append {es es' : List (Option Bytes)} (ha : Handled h es c c')
    (hb : Handled h es' c' c'') : Handled h (es ++ es') c c'' where
  present := fun hmem => (List.mem_append.1 hmem).elim ha.present hb.present
  seen := hb.seen.trans ha.seen
  processed := hb.processed.trans ha.processed
  timed := hb.timed.trans ha.timed
  offset := hb.offset.trans ha.offset
  tokeners := hb.tokeners.trans ha.tokeners
  errored := by
    have ha := ha.errored
    have hb := hb.errored
    rw [List.countP_append]
    omega
  errored_eq := fun hquiet => by
    rw [hb.errored_eq hquiet, ha.errored_eq hquiet, List.countP_append, Nat.add_assoc]
  filtered := ha.filtered.trans hb.filtered

/-- The number of documents is no part of it. -/
theorem Handled.put {es : List (Option Bytes)} (ha : Handled h es c c') (keep : Bool) :
    Handled h es c (c'.put keep) := by
  unfold Consumer.put
  split_ifs
  · exact ha
  · exact ⟨ha.present, ha.seen, ha.processed, ha.timed, ha.offset, ha.tokeners, ha.errored,
      ha.errored_eq, ha.filtered⟩

theorem documents_put (c : Consumer σ) : (c.put false).documents = c.documents - 1 := rfl

theorem handled_handleMessage {turn : τ} {event : Option Bytes} {top : Json} {ttl : ℤ} {keep : Bool}
    (hm : handleMessage h turn event top ttl c = .ok (c', keep)) :
    Handled h [event] c c' ∧ c'.documents = c.documents ∧ (h.NeverKeeps → keep = false) := by
  obtain ⟨text, htext, hrest⟩ := bind_eq_ok.1 hm
  obtain rfl := nonNull_eq_ok.1 htext
  have hpresent : none ∉ [some text] := by simp
  cases hevent : eventOf text with
  | some e =>
    rw [hevent] at hrest
    obtain ⟨r, hr, hrest⟩ := bind_eq_ok.1 hrest
    obtain ⟨rfl, rfl⟩ := Prod.mk.inj (Except.ok.inj hrest)
    have hknown : [some text].countP isUnknown = 0 := by simp [isUnknown, hevent]
    refine ⟨⟨hpresent, rfl, rfl, rfl, rfl, rfl, ?_, fun hquiet => ?_, Nat.le_add_right _ _⟩, rfl,
      fun hkeeps => hkeeps _ _ _ _ _ _ hr⟩
    · rw [hknown]
      exact Nat.le_add_right _ _
    · rw [hknown, ← hquiet _ _ _ _ _ _ hr]
  | none =>
    rw [hevent] at hrest
    obtain ⟨rfl, rfl⟩ := Prod.mk.inj (Except.ok.inj hrest)
    have hunknown : [some text].countP isUnknown = 1 := by simp [isUnknown, hevent]
    refine ⟨⟨hpresent, rfl, rfl, rfl, rfl, rfl, ?_, fun _ => ?_, Nat.le_refl _⟩, rfl, fun _ => rfl⟩
    · rw [hunknown]
    · rw [hunknown]

theorem handled_processDocument {turn : τ} {event : Option Bytes} {r : HookReply}
    (hm : processDocument h turn event r c = .ok c') :
    Handled h (if r.abort then [] else [event]) c c' ∧
      c.stats.messagesFiltered + (if r.abort then 1 else 0) ≤ c'.stats.messagesFiltered ∧
      (h.NeverKeeps → c'.documents = c.documents - 1) := by
  unfold processDocument at hm
  split_ifs at hm ⊢ with habort
  · obtain rfl := Except.ok.inj hm
    exact ⟨⟨List.not_mem_nil, rfl, rfl, rfl, rfl, rfl, Nat.le_refl _, fun _ => rfl,
      Nat.le_add_right _ _⟩, Nat.le_refl _, fun _ => rfl⟩
  · obtain ⟨⟨c₁, keep⟩, hc₁, hm⟩ := bind_eq_ok.1 hm
    obtain rfl := Except.ok.inj hm
    obtain ⟨hhandled, hdocuments, hkeep⟩ := handled_handleMessage hc₁
    have hput := hhandled.put keep
    refine ⟨hput, hput.filtered, fun hkeeps => ?_⟩
    rw [hkeep hkeeps, documents_put, hdocuments]

theorem handled_processResult {turn : τ} {r : HookReply}
    (hm : processResult h turn r.result r.ttl c = .ok c') :
    Handled h (r.resultProcessor.toList.map (eventText h)) c c' ∧
      (h.NeverKeeps → c'.documents =
        c.documents + (r.result.isSome && r.resultProcessor.isNone).toNat) := by
  obtain ⟨abort, top, result, ttl⟩ := r
  unfold processResult at hm
  unfold HookReply.resultProcessor
  cases result with
  | none =>
    obtain rfl := Except.ok.inj hm
    exact ⟨.nil, fun _ => rfl⟩
  | some result =>
    dsimp only [Option.bind_some] at hm ⊢
    cases hprocessor : Json.get (cstr "processor") (some result) with
    | none =>
      rw [hprocessor] at hm
      obtain rfl := Except.ok.inj hm
      exact ⟨.nil, fun _ => rfl⟩
    | some processor =>
      rw [hprocessor] at hm
      obtain ⟨⟨c₁, keep⟩, hc₁, hm⟩ := bind_eq_ok.1 hm
      obtain rfl := Except.ok.inj hm
      obtain ⟨hhandled, hdocuments, hkeep⟩ := handled_handleMessage hc₁
      refine ⟨(Handled.append .nil hhandled).put keep, fun hkeeps => ?_⟩
      rw [hkeep hkeeps, documents_put, hdocuments]
      rfl

theorem accounts_nil : Accounts h topic [] c c :=
  ⟨rfl, rfl, rfl, Nat.le_refl _, fun _ => rfl, Nat.le_refl _, rfl, fun _ => rfl, rfl⟩

theorem elim_getLast?_append {α β : Type} (xs ys : List α) (b : β) (f : α → β) :
    (xs ++ ys).getLast?.elim b f = ys.getLast?.elim (xs.getLast?.elim b f) f := by
  rw [List.getLast?_append]
  cases ys.getLast? <;> rfl

theorem Accounts.append {ds' : List (Delivery τ)} (ha : Accounts h topic ds c c')
    (hb : Accounts h topic ds' c' c'') : Accounts h topic (ds ++ ds') c c'' where
  seen := by rw [hb.seen, ha.seen, List.countP_append, Nat.add_assoc]
  processed := by rw [hb.processed, ha.processed, List.countP_append, Nat.add_assoc]
  timed := by rw [hb.timed, ha.timed, List.countP_append, Nat.add_assoc]
  errored := by
    have ha := ha.errored
    have hb := hb.errored
    rw [List.map_append, List.sum_append]
    omega
  errored_eq := fun hquiet => by
    rw [hb.errored_eq hquiet, ha.errored_eq hquiet, List.map_append, List.sum_append, Nat.add_assoc]
  filtered := by
    have ha := ha.filtered
    have hb := hb.filtered
    rw [List.countP_append]
    omega
  offset := by rw [hb.offset, ha.offset, List.filter_append, elim_getLast?_append]
  documents := fun hkeeps => by
    rw [hb.documents hkeeps, ha.documents hkeeps, List.countP_append, Nat.add_assoc]
  tokeners := by rw [hb.tokeners, ha.tokeners, List.countP_append, Nat.add_assoc]

/-- A message that is not parsed: nothing but the number of seen messages, of errors and of
tokeners changes. -/
theorem accounts_unparsed (seen errored tokeners : ℕ) {shared : σ} (htop : topOf h topic d = none)
    (hseen : seen = if d.message.err = 0 then 1 else 0) (herrored : errored = failures h topic d)
    (htokeners : tokeners = (isTombstone topic d).toNat) :
    Accounts h topic [d] c { c with
      shared
      stats := { c.stats with
        messagesSeen := c.stats.messagesSeen + seen
        messagesErrored := c.stats.messagesErrored + errored }
      tokeners := c.tokeners + tokeners } := by
  have hhooked : hooked h topic d = none := by
    rw [hooked, htop]
    rfl
  subst hseen herrored htokeners
  refine ⟨?_, ?_, ?_, ?_, fun _ => ?_, ?_, ?_, fun _ => ?_, ?_⟩
  · simp [List.countP_singleton]
  · simp [htop]
  · simp [hhooked]
  · simp
  · simp
  · simp [isDropped, hhooked]
  · simp [htop]
  · simp [isStray, hhooked]
  · cases htomb : isTombstone topic d <;> simp [htomb]

/-- A message with a payload that is parsed is no tombstone. -/
theorem not_isTombstone {top : Json} (htop : topOf h topic d = some top) :
    isTombstone topic d = false := by
  rw [isTombstone, decide_eq_false_iff_not]
  rintro ⟨-, -, hpayload⟩
  unfold topOf at htop
  split_ifs at htop
  rw [hpayload] at htop
  cases htop

/-- A parsed message without a processor. -/
theorem accounts_withoutProcessor {top : Json} {rval : Bool} (htop : topOf h topic d = some top)
    (herr : d.message.err = 0) (hprocessor : Json.get (cstr "processor") (some top) = none)
    (hm : processTop h d top { c with
      stats := { c.stats with messagesSeen := c.stats.messagesSeen + 1 } } = .ok (c', rval)) :
    none ∉ comparedEvents h topic d ∧ Accounts h topic [d] c c' := by
  have htomb := not_isTombstone htop
  unfold processTop at hm
  rw [hprocessor] at hm
  obtain ⟨rfl, -⟩ := Prod.mk.inj (Except.ok.inj hm)
  have hhooked : hooked h topic d = none := by
    rw [hooked, htop, Option.bind_some, hprocessor]
    rfl
  have hfailures : failures h topic d = 1 := by
    simp [failures, herr, htop, hhooked]
  have hcompared : comparedEvents h topic d = [] := by rw [comparedEvents, hhooked]
  refine ⟨hcompared ▸ List.not_mem_nil, ?_, ?_, ?_, ?_, fun _ => ?_, ?_, ?_, fun _ => ?_, ?_⟩
  · simp [Consumer.put, herr]
  · simp [Consumer.put, htop]
  · simp [Consumer.put, hhooked]
  · simp [Consumer.put, hfailures]
  · simp [Consumer.put, hfailures]
  · simp [Consumer.put, isDropped, hhooked]
  · simp [Consumer.put, htop]
  · simp [Consumer.put, isStray, hhooked]
  · simp [Consumer.put, htomb]

/-- A parsed message with a processor: its document, and then that of the hook. -/
theorem accounts_withProcessor {top processor : Json} {rval : Bool}
    (htop : topOf h topic d = some top) (herr : d.message.err = 0)
    (hprocessor : Json.get (cstr "processor") (some top) = some processor)
    (hm : processTop h d top { c with
      stats := { c.stats with messagesSeen := c.stats.messagesSeen + 1 } } = .ok (c', rval)) :
    none ∉ comparedEvents h topic d ∧ Accounts h topic [d] c c' := by
  have htomb := not_isTombstone htop
  unfold processTop at hm
  rw [hprocessor] at hm
  obtain ⟨c₁, hc₁, hm⟩ := bind_eq_ok.1 hm
  obtain ⟨c₂, hc₂, hm⟩ := bind_eq_ok.1 hm
  obtain ⟨rfl, -⟩ := Prod.mk.inj (Except.ok.inj hm)
  have hhooked : hooked h topic d = some (processor, h.hook d.turn top) := by
    rw [hooked, htop, Option.bind_some, hprocessor]
    rfl
  obtain ⟨hfirst, hfiltered, hdocuments₁⟩ := handled_processDocument hc₁
  obtain ⟨hsecond, hdocuments₂⟩ := handled_processResult hc₂
  have hall := hfirst.append hsecond
  have hfailures : failures h topic d = (comparedEvents h topic d).countP isUnknown := by
    simp [failures, herr, htop, hhooked]
  have hcompared : comparedEvents h topic d = (if (h.hook d.turn top).abort then []
      else [eventText h processor]) ++
        (h.hook d.turn top).resultProcessor.toList.map (eventText h) := by
    rw [comparedEvents, hhooked]
  rw [← hcompared] at hall
  refine ⟨hall.present, ?_, ?_, ?_, ?_, fun hquiet => ?_, ?_, ?_, fun hkeeps => ?_, ?_⟩
  · simpa [herr] using hall.seen
  · simpa [htop] using hall.processed
  · simpa [hhooked] using congrArg List.length hall.timed
  · simpa [hfailures] using hall.errored
  · simpa [hfailures] using hall.errored_eq hquiet
  · have hmono := hfiltered.trans hsecond.filtered
    cases habort : (h.hook d.turn top).abort with
    | true => simpa [isDropped, hhooked, habort] using hmono
    | false => simpa [isDropped, hhooked, habort] using hmono
  · simpa [htop] using hall.offset
  · dsimp only
    rw [hdocuments₂ hkeeps, hdocuments₁ hkeeps]
    cases hstray : (h.hook d.turn top).result.isSome &&
        (h.hook d.turn top).resultProcessor.isNone <;> simp [isStray, hhooked, hstray]
  · simpa [htomb] using hall.tokeners

/-- A parsed message. -/
theorem accounts_processTop {top : Json} {rval : Bool} (htop : topOf h topic d = some top)
    (herr : d.message.err = 0)
    (hm : processTop h d top { c with
      stats := { c.stats with messagesSeen := c.stats.messagesSeen + 1 } } = .ok (c', rval)) :
    none ∉ comparedEvents h topic d ∧ Accounts h topic [d] c c' := by
  cases hprocessor : Json.get (cstr "processor") (some top) with
  | none => exact accounts_withoutProcessor htop herr hprocessor hm
  | some processor => exact accounts_withProcessor htop herr hprocessor hm

theorem not_poison_of_unparsed (htop : topOf h topic d = none)
    (hpresent : d.message.err = 0 ∨ d.message.payload ≠ none) : ¬ Poison h topic d := by
  have hcompared : comparedEvents h topic d = [] := by simp [comparedEvents, hooked, htop]
  rintro (⟨herr, hpayload⟩ | hmem)
  · exact hpresent.elim herr fun hne => hne hpayload
  · rw [hcompared] at hmem
    exact List.not_mem_nil hmem

/-- One message. -/
theorem accounts_processMessage {rval : Bool}
    (hm : processMessage h topic d c = .ok (c', rval)) :
    ¬ Poison h topic d ∧ Accounts h topic [d] c c' := by
  have hfailures : d.message.err = 0 → topOf h topic d = none → failures h topic d = 0 :=
    fun herr htop => by simp [failures, herr, htop, comparedEvents, hooked]
  unfold processMessage at hm
  split_ifs at hm with herr htopic
  · have htop : topOf h topic d = none := if_neg fun hcond => hcond.2 htopic
    obtain ⟨⟨shared, rval'⟩, -, hm⟩ := bind_eq_ok.1 hm
    obtain ⟨rfl, -⟩ := Prod.mk.inj (Except.ok.inj hm)
    exact ⟨not_poison_of_unparsed htop (.inl herr), accounts_unparsed 1 0 0 htop (if_pos herr).symm
      (hfailures herr htop).symm (by simp [isTombstone, htopic])⟩
  · have htop : topOf h topic d = d.message.payload.bind h.parse := if_pos ⟨herr, htopic⟩
    cases hpayload : d.message.payload with
    | none =>
      rw [hpayload] at hm htop
      obtain ⟨rfl, -⟩ := Prod.mk.inj (Except.ok.inj hm)
      exact ⟨not_poison_of_unparsed htop (.inl herr), accounts_unparsed 1 0 1 htop (if_pos herr).symm
        (hfailures herr htop).symm (by simp [isTombstone, herr, htopic, hpayload])⟩
    | some json =>
      rw [hpayload] at hm htop
      dsimp only [Option.bind_some] at hm htop
      cases hparse : h.parse json with
      | none =>
        rw [hparse] at hm htop
        obtain ⟨rfl, -⟩ := Prod.mk.inj (Except.ok.inj hm)
        exact ⟨not_poison_of_unparsed htop (.inl herr), accounts_unparsed 1 0 0 htop (if_pos herr).symm
          (hfailures herr htop).symm (by simp [isTombstone, hpayload])⟩
      | some top =>
        rw [hparse] at hm htop
        obtain ⟨hpresent, haccounts⟩ := accounts_processTop htop herr hm
        exact ⟨fun hpoison => hpoison.elim (fun hp => hp.1 herr) hpresent, haccounts⟩
  · have htop : topOf h topic d = none := if_neg fun hcond => herr hcond.1
    obtain ⟨text, htext, hm⟩ := bind_eq_ok.1 hm
    have hpayload := nonNull_eq_ok.1 htext
    have hpoison : ¬ Poison h topic d :=
      not_poison_of_unparsed htop (.inr (by rw [hpayload]; exact Option.some_ne_none _))
    have htomb : isTombstone topic d = false := by simp [isTombstone, herr]
    split_ifs at hm with hmore
    · obtain ⟨rfl, -⟩ := Prod.mk.inj (Except.ok.inj hm)
      exact ⟨hpoison, accounts_unparsed 0 0 0 htop (if_neg herr).symm
        (by simp [failures, herr, hpayload, hmore]) (by simp [htomb])⟩
    · obtain ⟨rfl, -⟩ := Prod.mk.inj (Except.ok.inj hm)
      exact ⟨hpoison, accounts_unparsed 0 1 0 htop (if_neg herr).symm
        (by simp [failures, herr, hpayload, hmore]) (by simp [htomb])⟩

/-! ### Batches -/

/-- The loop over a batch. -/
theorem accounts_consumeFrom {offset offset' : ℕ}
    (hm : consumeFrom h topic offset c ds = .ok (c', offset')) :
    (∀ d ∈ ds, ¬ Poison h topic d) ∧ Accounts h topic ds c c' ∧
      offset' = ds.foldl (fun o d => max o (toUint64 d.message.offset)) offset := by
  induction ds generalizing offset c with
  | nil =>
    obtain ⟨rfl, rfl⟩ := Prod.mk.inj (Except.ok.inj hm)
    exact ⟨fun _ hd => absurd hd List.not_mem_nil, accounts_nil, rfl⟩
  | cons d ds ih =>
    obtain ⟨⟨c₁, rval⟩, hc₁, hm⟩ := bind_eq_ok.1 hm
    obtain ⟨hpoison, hfirst⟩ := accounts_processMessage hc₁
    obtain ⟨hpoisons, hrest, hoffset⟩ := ih hm
    refine ⟨List.forall_mem_cons.2 ⟨hpoison, hpoisons⟩, hfirst.append hrest, ?_⟩
    have hmax : max offset (toUint64 d.message.offset) = if offset < toUint64 d.message.offset then
        toUint64 d.message.offset else offset := by
      split_ifs <;> omega
    rw [hoffset, List.foldl_cons, hmax]

/-- All reads. -/
theorem accounts_consumeBatches {batches : List (List (Delivery τ))} {offsets : List ℕ}
    (hm : consumeBatches h topic c batches = .ok (c', offsets)) :
    (∀ d ∈ batches.flatten, ¬ Poison h topic d) ∧ Accounts h topic batches.flatten c c' ∧
      offsets = batches.map largestOffset := by
  induction batches generalizing c offsets with
  | nil =>
    obtain ⟨rfl, rfl⟩ := Prod.mk.inj (Except.ok.inj hm)
    exact ⟨fun _ hd => absurd hd List.not_mem_nil, accounts_nil, rfl⟩
  | cons batch batches ih =>
    obtain ⟨⟨c₁, offset⟩, hbatch, hm⟩ := bind_eq_ok.1 hm
    obtain ⟨⟨c₂, rest⟩, hrest, hm⟩ := bind_eq_ok.1 hm
    obtain ⟨rfl, rfl⟩ := Prod.mk.inj (Except.ok.inj hm)
    obtain ⟨hfirst, hfirstAccounts, hoffset⟩ := accounts_consumeFrom hbatch
    obtain ⟨hothers, haccounts, hoffsets⟩ := ih hrest
    refine ⟨fun d hd => ?_, hfirstAccounts.append haccounts, ?_⟩
    · rcases List.mem_append.1 (List.flatten_cons ▸ hd) with hd | hd
      · exact hfirst d hd
      · exact hothers d hd
    · rw [hoffset, hoffsets]
      rfl

/-! ### Messages of an event -/

/-- The reader after a message whose function has been called. -/
def Consumer.after (c : Consumer σ) (d : Delivery τ) (r : Reply σ) : Consumer σ where
  shared := r.shared
  stats :=
    { messagesSeen := c.stats.messagesSeen + 1
      messagesFiltered := c.stats.messagesFiltered + r.filtered
      messagesProcessed := c.stats.messagesProcessed + 1
      messagesErrored := c.stats.messagesErrored + r.errored
      kafkaOffset := toUint64 d.message.offset
      messageProcessLatency := toUint64 (d.endUs - d.startUs) :: c.stats.messageProcessLatency }
  documents := if r.keep then c.documents + 1 else c.documents
  tokeners := c.tokeners

/-- Without a hook, the message of an event is what its function makes of it. -/
theorem processMessage_of_event {json text : Bytes} {top processor : Json} {e : Event}
    (herr : d.message.err = 0) (htopic : topic ≠ cstr "otlp_spans")
    (hpayload : d.message.payload = some json) (hparse : h.parse json = some top)
    (hget : Json.get (cstr "processor") (some top) = some processor)
    (hhook : h.hook d.turn top = HookReply.none top) (htext : eventText h processor = some text)
    (hevent : eventOf text = some e) (c : Consumer σ) :
    processMessage h topic d c =
      (h.process e d.turn top 600 c.shared).map fun r => (c.after d r, true) := by
  unfold processMessage
  rw [if_pos herr, if_neg htopic, hpayload]
  dsimp only
  rw [hparse]
  dsimp only [processTop]
  rw [hget]
  dsimp only [processDocument, HookReply.none]
  rw [hhook, htext]
  dsimp only [HookReply.none, handleMessage, nonNull, bind, Except.bind]
  simp only [Bool.false_eq_true, if_false, hevent]
  cases h.process e d.turn top 600 c.shared with
  | error fault => rfl
  | ok r =>
    obtain ⟨shared, errored, filtered, keep⟩ := r
    cases keep <;> rfl

/-! ### Messages that nothing survives -/

/-- The functions of the events do not fault. -/
structure Handlers.Faultless (h : Handlers σ τ) : Prop where
  process : ∀ e turn top ttl s, ∃ r, h.process e turn top ttl s = .ok r
  otel : ∀ turn m s, ∃ r, h.otelProcessJaegerSpan turn m s = .ok r

theorem exists_handleMessage (hh : h.Faultless) (turn : τ) {event : Option Bytes}
    (hevent : event ≠ none) (top : Json) (ttl : ℤ) (c : Consumer σ) :
    ∃ r, handleMessage h turn event top ttl c = .ok r := by
  obtain ⟨text, rfl⟩ := Option.ne_none_iff_exists'.1 hevent
  refine exists_bind ⟨text, rfl⟩ fun text => ?_
  cases eventOf text with
  | none => exact ⟨_, rfl⟩
  | some e => exact exists_bind (hh.process e turn top ttl c.shared) fun r => ⟨_, rfl⟩

theorem exists_processDocument (hh : h.Faultless) (turn : τ) {event : Option Bytes} {r : HookReply}
    (hevent : none ∉ if r.abort then [] else [event]) (c : Consumer σ) :
    ∃ c', processDocument h turn event r c = .ok c' := by
  unfold processDocument
  split_ifs at hevent ⊢
  · exact ⟨_, rfl⟩
  · have hne : event ≠ none := fun hnone => hevent (hnone ▸ List.mem_singleton_self _)
    exact exists_bind (exists_handleMessage hh turn hne _ _ c) fun r => ⟨_, rfl⟩

theorem exists_processResult (hh : h.Faultless) (turn : τ) {r : HookReply}
    (hevent : none ∉ r.resultProcessor.toList.map (eventText h)) (c : Consumer σ) :
    ∃ c', processResult h turn r.result r.ttl c = .ok c' := by
  obtain ⟨abort, top, result, ttl⟩ := r
  unfold processResult
  cases result with
  | none => exact ⟨_, rfl⟩
  | some result =>
    dsimp only [HookReply.resultProcessor, Option.bind_some] at hevent ⊢
    cases hprocessor : Json.get (cstr "processor") (some result) with
    | none => exact ⟨_, rfl⟩
    | some processor =>
      rw [hprocessor] at hevent
      have hne : eventText h processor ≠ none :=
        fun hnone => hevent (hnone ▸ List.mem_singleton_self _)
      exact exists_bind (exists_handleMessage hh turn hne _ _ _) fun r => ⟨_, rfl⟩

theorem exists_processTop (hh : h.Faultless) {top : Json} (htop : topOf h topic d = some top)
    (hpresent : none ∉ comparedEvents h topic d) (c : Consumer σ) :
    ∃ r, processTop h d top c = .ok r := by
  unfold processTop
  cases hprocessor : Json.get (cstr "processor") (some top) with
  | none => exact ⟨_, rfl⟩
  | some processor =>
    have hcompared : comparedEvents h topic d = (if (h.hook d.turn top).abort then []
        else [eventText h processor]) ++
          (h.hook d.turn top).resultProcessor.toList.map (eventText h) := by
      rw [comparedEvents, hooked, htop, Option.bind_some, hprocessor]
      rfl
    rw [hcompared, List.mem_append, not_or] at hpresent
    exact exists_bind (exists_processDocument hh d.turn hpresent.1 _) fun c₁ =>
      exists_bind (exists_processResult hh d.turn hpresent.2 c₁) fun c₂ => ⟨_, rfl⟩

theorem exists_processMessage (hh : h.Faultless) (hpoison : ¬ Poison h topic d) (c : Consumer σ) :
    ∃ r, processMessage h topic d c = .ok r := by
  obtain ⟨herror, hpresent⟩ := not_or.1 hpoison
  unfold processMessage
  split_ifs with herr htopic
  · exact exists_bind (hh.otel d.turn d.message c.shared) fun r => ⟨_, rfl⟩
  · have htop : topOf h topic d = d.message.payload.bind h.parse := if_pos ⟨herr, htopic⟩
    cases hpayload : d.message.payload with
    | none => exact ⟨_, rfl⟩
    | some json =>
      rw [hpayload, Option.bind_some] at htop
      dsimp only
      cases hparse : h.parse json with
      | none => exact ⟨_, rfl⟩
      | some top => exact exists_processTop hh (htop.trans hparse) hpresent _
  · obtain ⟨text, htext⟩ := Option.ne_none_iff_exists'.1 fun hnone => herror ⟨herr, hnone⟩
    refine exists_bind ⟨text, nonNull_eq_ok.2 htext⟩ fun text => ?_
    split_ifs
    · exact ⟨_, rfl⟩
    · exact ⟨_, rfl⟩

theorem exists_consumeFrom (hh : h.Faultless) (hpoison : ∀ d ∈ ds, ¬ Poison h topic d)
    (offset : ℕ) (c : Consumer σ) : ∃ r, consumeFrom h topic offset c ds = .ok r := by
  induction ds generalizing offset c with
  | nil => exact ⟨_, rfl⟩
  | cons d ds ih =>
    obtain ⟨hfirst, hrest⟩ := List.forall_mem_cons.1 hpoison
    exact exists_bind (exists_processMessage hh hfirst c) fun r => ih hrest _ r.1

theorem exists_consumeBatches (hh : h.Faultless) {batches : List (List (Delivery τ))}
    (hpoison : ∀ d ∈ batches.flatten, ¬ Poison h topic d) (c : Consumer σ) :
    ∃ r, consumeBatches h topic c batches = .ok r := by
  induction batches generalizing c with
  | nil => exact ⟨_, rfl⟩
  | cons batch batches ih =>
    refine exists_bind
      (exists_consumeFrom hh (fun d hd => hpoison d (List.mem_append_left _ hd)) 0 c) fun r => ?_
    exact exists_bind (ih (fun d hd => hpoison d (List.mem_append_right _ hd)) r.1)
      fun r' => ⟨_, rfl⟩

/-- The document of a span, with another member. -/
def spanDocument (name : Bytes) : Json :=
  .obj [(cstr "processor", .obj [(cstr "event", .str (cstr "span"))]), (name, .int 1)]

/-- Functions that count their calls, and a hook that drops the documents with a mark and adds an
empty document to the other ones; the parser knows two texts. -/
def counting : Handlers ℕ Unit where
  lib := reference
  parse text :=
    if text = cstr "kept" then some (spanDocument (cstr "id"))
    else if text = cstr "dropped" then some (spanDocument (cstr "drop"))
    else none
  hook _ top :=
    if (Json.get (cstr "drop") (some top)).isSome then ⟨true, top, none, 600⟩
    else ⟨false, top, some (.obj []), 600⟩
  process := fun _ _ _ _ calls => .ok ⟨calls + 1, 0, 0, false⟩
  otelProcessJaegerSpan := fun _ _ calls => .ok (calls, false)

/-- A reader that has read nothing. -/
def Consumer.start {σ : Type} (s : σ) : Consumer σ := ⟨s, ⟨0, 0, 0, 0, 0, []⟩, 0, 0⟩

/-- A message without a payload, a span that is handled, a span that is dropped, and the end of the
partition. -/
def fourMessages : List (List (Delivery Unit)) :=
  [[⟨⟨0, none, 7⟩, 0, 0, ()⟩, ⟨⟨0, some (cstr "kept"), 8⟩, 20, 25, ()⟩],
    [⟨⟨0, some (cstr "dropped"), 9⟩, 30, 31, ()⟩,
      ⟨⟨-191, some (cstr "Broker: No more messages"), 10⟩, 0, 0, ()⟩]]

end Tracemate.Kafka
