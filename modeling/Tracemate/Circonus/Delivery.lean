import Tracemate.Circonus.SendThread
import Tracemate.Lib.Base64
import Tracemate.Process.RegexMessage

/-!
# From the journal to Circonus, byte by byte

`journal_output_metrics` wraps a document into a journal message, and `send_thread` takes it out
again and uploads it.

* `wrapperText`, `Submission.message`: what is written for a call of `journal_output_metrics`;
* `readWrapper`: the URL and the data that `send_thread` finds in a message;
* `sendMetricInput`, `upload`: the callback that curl reads the document from;
* `Outbox`, `Outbox.Step`: the journal with the calls and the uploads so far;
* `Outbox.journal_step`: without the bytes, its steps are those of `SendThread`;
* `posts_faithful`: in every run, what is uploaded is what was submitted.
-/

namespace Tracemate.Circonus

open CStr JsonC Runs

/-! ### Messages -/

/-- The message of a document for a URL. -/
def wrapperText (url json : Bytes) : Bytes :=
  cstr "\x7b\"url\":\"" ++ url ++ cstr "\",\"data\":\"" ++ Base64.encode json ++ cstr "\"\x7d"

/-- The arguments of a call of `journal_output_metrics`. -/
structure Submission where
  json : Bytes
  count : ℤ
  url : Bytes
  deriving DecidableEq

/-- What a call of `journal_output_metrics` hands to `jlog_ctx_write`, if anything. -/
def Submission.message (c : Submission) : Option Bytes :=
  if c.json.length < 3 ∨ c.count = 0 then none else some (wrapperText c.url c.json)

/-- The wrapper that is parsed from a message. -/
def readWrapper (lib : Conversions) (message : Bytes) : Option Wrapper :=
  (parseJson message).map fun j =>
    ⟨cString lib (Json.get (cstr "url") (some j)), cString lib (Json.get (cstr "data") (some j))⟩

/-! ### The upload -/

/-- A `struct send_data`; `len` is the length of `json`. -/
structure SendData where
  json : Bytes
  sent : ℕ
  deriving DecidableEq

/-- `send_metric_input`, for a buffer of `size * nitems` bytes. -/
def sendMetricInput (sd : SendData) (size : ℕ) : Bytes × SendData :=
  let remaining := sd.json.length - sd.sent
  if remaining = 0 then ([], sd)
  else
    let send := min size remaining
    ((sd.json.drop sd.sent).take send, { sd with sent := sd.sent + send })

/-- What curl gets in buffers of these sizes, one call after the other. -/
def upload (sd : SendData) : List ℕ → Bytes
  | [] => []
  | size :: sizes => (sendMetricInput sd size).1 ++ upload (sendMetricInput sd size).2 sizes

/-- One call goes on where the last one has stopped. -/
theorem sendMetricInput_eq (sd : SendData) (size : ℕ) :
    sendMetricInput sd size = ((sd.json.drop sd.sent).take size,
      ⟨sd.json, sd.sent + min size (sd.json.length - sd.sent)⟩) := by
  unfold sendMetricInput
  dsimp only
  split_ifs with h
  · have hdrop : sd.json.drop sd.sent = [] := List.drop_eq_nil_of_le (by omega)
    rw [hdrop, h]
    simp
  · have htake : (sd.json.drop sd.sent).take (min size (sd.json.length - sd.sent)) =
        (sd.json.drop sd.sent).take size := by
      rw [← List.length_drop, ← List.take_take, List.take_length]
    rw [htake]

/-- Together the calls give as much of the document as fits the buffers. -/
theorem upload_eq (sd : SendData) (sizes : List ℕ) :
    upload sd sizes = (sd.json.drop sd.sent).take sizes.sum := by
  induction sizes generalizing sd with
  | nil => simp [upload]
  | cons size sizes ih =>
    rw [upload, sendMetricInput_eq, ih, List.sum_cons, List.take_add, List.drop_drop]
    dsimp only
    congr 1
    rcases Nat.le_total size (sd.json.length - sd.sent) with h | h
    · rw [Nat.min_eq_left h]
    · rw [Nat.min_eq_right h, List.drop_eq_nil_of_le (by omega), List.drop_eq_nil_of_le (by omega)]

/-! ### The journal with its bytes -/

/-- What the environment answers for one message of an interval: `Answer` without the wrapper, and
with the sizes of the buffers that curl has filled. -/
structure Reply where
  readOk : Bool
  sizes : List ℕ
  polls : List Poll
  msgs : List CurlMsg
  accepted : Bool
  deriving DecidableEq

/-- The answer for a message, with the wrapper that is parsed from it. -/
def answer (lib : Conversions) (message : Bytes) (r : Reply) : Answer :=
  ⟨r.readOk, readWrapper lib message, r.polls, r.msgs, r.accepted⟩

/-- An upload: the id of its message, the URL, the number of bytes that curl has asked for and the
bytes that it has got, and how it ended. -/
structure Post where
  id : ℕ
  url : Bytes
  asked : ℕ
  body : Bytes
  attempt : Attempt
  deriving DecidableEq

/-- The upload that is made for a message, if one is made. -/
def post (lib : Conversions) (id : ℕ) (message : Bytes) (r : Reply) : Option Post :=
  if r.readOk then
    match readWrapper lib message with
    | some ⟨some url, some data⟩ =>
      let json := (Base64.decode data).getD []
      some ⟨id, url, r.sizes.sum, upload ⟨json, 0⟩ r.sizes, .transfer r.polls r.msgs⟩
    | _ => none
  else none

/-- The uploads of an interval that starts at `begin`. -/
def posts (lib : Conversions) : ℕ → List Bytes → List Reply → List Post
  | begin, message :: messages, r :: rs =>
    (post lib begin message r).toList ++ posts lib (begin + 1) messages rs
  | _, _, _ => []

/-- The journal, the calls whose messages are in it, and the uploads so far. -/
structure Outbox where
  journal : Journal
  submissions : List Submission
  posts : List Post

/-- Before the first call. -/
def Outbox.start : Outbox := ⟨.start, [], []⟩

/-- A call of `journal_output_metrics`, for which `jlog_ctx_write` returns `0` or not, or a round of
`send_thread`. -/
inductive OutboxAction
  | submit (c : Submission) (written : Bool)
  | interval (replies : List Reply)

/-- The answers of a round. -/
def Outbox.answers (s : Outbox) (lib : Conversions) (replies : List Reply) : List Answer :=
  List.zipWith (answer lib) (s.journal.entries.drop s.journal.checkpoint) replies

/-- One step. -/
inductive Outbox.Step (lib : Conversions) : Outbox → OutboxAction → Outbox → Prop
  | skip {s : Outbox} {c : Submission} {written : Bool} :
      (c.message = none ∨ written = false) → Outbox.Step lib s (.submit c written) s
  | write {s : Outbox} {c : Submission} {message : Bytes} :
      c.message = some message →
      Outbox.Step lib s (.submit c true) { s with
        journal := { s.journal with entries := s.journal.entries ++ [message] }
        submissions := s.submissions ++ [c] }
  | interval {s : Outbox} {replies : List Reply} :
      s.journal.checkpoint + replies.length ≤ s.journal.entries.length →
      Outbox.Step lib s (.interval replies) { s with
        journal := s.journal.readMessages s.journal.checkpoint (s.answers lib replies)
        posts := s.posts ++ Circonus.posts lib s.journal.checkpoint
          (s.journal.entries.drop s.journal.checkpoint) replies }

/-! ### The way back -/

section Wrapper

variable {lib : Conversions} {url json : Bytes}

theorem base64_plain (s : Bytes) : ∀ c ∈ Base64.encode s, needsEscape c = false := by
  have hall : ∀ c ∈ Base64.characters, needsEscape c = false := plain_of_all (by decide)
  exact fun c hc => hall c (Base64.mem_characters_of_mem_encode c hc)

theorem cstr_openWrapper : cstr "\x7b\"url\":\"" = 123 :: 34 :: (cstr "url" ++ [34, 58, 34]) := by
  decide

theorem cstr_dataName : cstr "\",\"data\":\"" = 34 :: 44 :: 34 :: (cstr "data" ++ [34, 58, 34]) := by
  decide

theorem cstr_closeWrapper : cstr "\"\x7d" = [34, 125] := by decide

/-- What the parser makes of a message, if its URL has to be escaped nowhere. -/
theorem parse_wrapperText (hurl : ∀ c ∈ url, needsEscape c = false) :
    parseJson (wrapperText url json) = some (.obj [(cstr "data", .str (Base64.encode json)),
      (cstr "url", .str url)]) := by
  have hurlName := decodeString_of_plain (s := cstr "url") (plain_of_all (by decide))
  have hdataName := decodeString_of_plain (s := cstr "data") (plain_of_all (by decide))
  rw [parseJson, wrapperText, cstr_openWrapper, cstr_dataName, cstr_closeWrapper]
  simp only [List.append_assoc, List.cons_append, List.nil_append]
  rw [run_openObject, run_firstName hurlName, run_quote,
    run_memberString (decodeString_of_plain hurl), run_nextName hdataName, run_quote,
    run_memberString (decodeString_of_plain (base64_plain json)), run_closeLast]
  rfl

/-- The wrapper has the URL and the encoded document. -/
theorem readWrapper_wrapperText (lib : Conversions) (json : Bytes)
    (hurl : ∀ c ∈ url, needsEscape c = false) :
    readWrapper lib (wrapperText url json) = some ⟨some url, some (Base64.encode json)⟩ := by
  have hne : cstr "url" ≠ cstr "data" := by decide
  rw [readWrapper, parse_wrapperText hurl, Option.map_some, get_cons_ne hne, get_cons_self _ rfl,
    get_cons_self _ rfl]
  show some (Wrapper.mk (some (strAt url)) (some (strAt (Base64.encode json)))) = _
  rw [strAt_of_plain hurl, strAt_of_plain (base64_plain json)]

/-- The upload that is made for a message. -/
theorem post_wrapperText {id : ℕ} {r : Reply} {p : Post}
    (hurl : ∀ c ∈ url, needsEscape c = false) :
    post lib id (wrapperText url json) r = some p ↔
      r.readOk = true ∧
        p = ⟨id, url, r.sizes.sum, json.take r.sizes.sum, .transfer r.polls r.msgs⟩ := by
  unfold post
  rw [readWrapper_wrapperText lib json hurl]
  dsimp only
  rw [Base64.decode_encode, upload_eq]
  split_ifs with hread
  · simp [hread, eq_comm]
  · simp [hread]

/-- The attempt at a message. -/
theorem attempt_wrapperText (r : Reply) (hurl : ∀ c ∈ url, needsEscape c = false) :
    (answer lib (wrapperText url json) r).attempt =
      if r.readOk then .transfer r.polls r.msgs else .readFailed := by
  unfold answer Answer.attempt
  rw [readWrapper_wrapperText lib json hurl]
  cases r.readOk <;> rfl

end Wrapper

/-! ### Intervals -/

section Intervals

variable {lib : Conversions} {s t : Outbox} {a : OutboxAction}

theorem mem_posts {begin : ℕ} {messages : List Bytes} {replies : List Reply} {p : Post} :
    p ∈ posts lib begin messages replies ↔ ∃ j message r, messages[j]? = some message ∧
      replies[j]? = some r ∧ post lib (begin + j) message r = some p := by
  induction messages generalizing begin replies with
  | nil => simp [posts]
  | cons message messages ih =>
    cases replies with
    | nil => simp [posts]
    | cons r replies =>
      rw [posts, List.mem_append, Option.mem_toList, ih]
      constructor
      · rintro (h | ⟨j, message', r', hmessage, hr, h⟩)
        · exact ⟨0, message, r, rfl, rfl, h⟩
        · refine ⟨j + 1, message', r', hmessage, hr, ?_⟩
          rwa [Nat.add_right_comm] at h
      · rintro ⟨j, message', r', hmessage, hr, h⟩
        cases j with
        | zero =>
          obtain rfl := Option.some.inj hmessage
          obtain rfl := Option.some.inj hr
          exact .inl h
        | succ j =>
          refine .inr ⟨j, message', r', hmessage, hr, ?_⟩
          rwa [Nat.add_right_comm]

/-- The upload is of the call whose message has its id: it has the URL of the call, and as many bytes
of its document as curl has asked for. -/
def Post.Faithful (p : Post) (submissions : List Submission) : Prop :=
  ∃ c, submissions[p.id]? = some c ∧ p.url = c.url ∧ p.body = c.json.take p.asked

/-- The messages in the journal are those of the calls, the uploads are faithful, and each
successful attempt is an upload. -/
structure Outbox.Faithful (s : Outbox) : Prop where
  plain : ∀ c ∈ s.submissions, ∀ b ∈ c.url, needsEscape b = false
  entries : s.journal.entries = s.submissions.map fun c => wrapperText c.url c.json
  posts : ∀ p ∈ s.posts, p.Faithful s.submissions
  settled : ∀ i b, (i, b) ∈ s.journal.attempts → b.Settles →
    ∃ p ∈ s.posts, p.id = i ∧ p.attempt = b

/-- The URL of a call can be printed into a JSON text as it is. -/
def OutboxAction.PlainUrl : OutboxAction → Prop
  | .submit c _ => ∀ b ∈ c.url, needsEscape b = false
  | .interval _ => True

theorem Outbox.faithful_start : Outbox.start.Faithful :=
  ⟨by simp [start], rfl, by simp [start], by simp [start, Journal.start]⟩

theorem Submission.message_eq {c : Submission} {message : Bytes} (h : c.message = some message) :
    message = wrapperText c.url c.json := by
  unfold Submission.message at h
  split_ifs at h
  exact (Option.some.inj h).symm

/-- The message at a position behind the checkpoint, and its call. -/
theorem Outbox.Faithful.entry (h : s.Faithful) {j : ℕ} {message : Bytes}
    (hj : (s.journal.entries.drop s.journal.checkpoint)[j]? = some message) :
    ∃ c, s.submissions[s.journal.checkpoint + j]? = some c ∧
      message = wrapperText c.url c.json := by
  rw [List.getElem?_drop, h.entries, List.getElem?_map] at hj
  obtain ⟨c, hc, rfl⟩ := Option.map_eq_some_iff.1 hj
  exact ⟨c, hc, rfl⟩

/-- A step keeps the outbox faithful. -/
theorem Outbox.faithful_step (h : s.Faithful) (ha : a.PlainUrl) (hs : Outbox.Step lib s a t) :
    t.Faithful := by
  cases hs with
  | skip => exact h
  | @write c message hc =>
    have hgrow : ∀ {i : ℕ} {d : Submission}, s.submissions[i]? = some d →
        (s.submissions ++ [c])[i]? = some d := fun hd => by
      rw [List.getElem?_append_left (List.getElem?_eq_some_iff.1 hd).1, hd]
    refine ⟨?_, ?_, ?_, h.settled⟩
    · intro d hd
      rcases List.mem_append.1 hd with hd | hd
      · exact h.plain d hd
      · rw [List.mem_singleton.1 hd]
        exact ha
    · dsimp only
      rw [h.entries, Submission.message_eq hc, List.map_append, List.map_singleton]
    · intro p hp
      obtain ⟨d, hd, hrest⟩ := h.posts p hp
      exact ⟨d, hgrow hd, hrest⟩
  | @interval replies hlen =>
    refine ⟨h.plain, ?_, ?_, ?_⟩
    · dsimp only
      rw [Journal.readMessages_entries, h.entries]
    · intro p hp
      rcases List.mem_append.1 hp with hp | hp
      · exact h.posts p hp
      obtain ⟨j, message, r, hj, hr, hpost⟩ := mem_posts.1 hp
      obtain ⟨c, hc, rfl⟩ := h.entry hj
      have hurl := h.plain c (List.mem_of_getElem? hc)
      obtain ⟨-, rfl⟩ := (post_wrapperText hurl).1 hpost
      exact ⟨c, hc, rfl, rfl⟩
    · intro i b hb hsettles
      rcases (s.journal.mem_attempts_readMessages _ _ i b).1 hb with hb | ⟨j, d, hj, rfl, hd⟩
      · obtain ⟨p, hp, hpb⟩ := h.settled i b hb hsettles
        exact ⟨p, List.mem_append_left _ hp, hpb⟩
      unfold Outbox.answers at hj
      obtain ⟨message, r, hmessage, hr, rfl⟩ := List.getElem?_zipWith_eq_some.1 hj
      obtain ⟨c, hc, rfl⟩ := h.entry hmessage
      have hurl := h.plain c (List.mem_of_getElem? hc)
      rw [attempt_wrapperText r hurl] at hd
      split_ifs at hd with hok
      · refine ⟨_, List.mem_append_right _ (mem_posts.2 ⟨j, _, r, hmessage, hr,
          (post_wrapperText hurl).2 ⟨hok, rfl⟩⟩), rfl, hd⟩
      · rw [← hd] at hsettles
        exact hsettles.elim

/-- No message of a round is checkpointed behind one that is still unsettled. -/
def Outbox.NoneSkipped (lib : Conversions) (s : Outbox) : OutboxAction → Prop
  | .submit _ _ => True
  | .interval replies => Circonus.NoneSkipped s.journal (.interval (s.answers lib replies))

/-- Without the bytes, a step is one of `SendThread`, or none. -/
theorem Outbox.journal_step (hs : Outbox.Step lib s a t) :
    t.journal = s.journal ∨ ∃ b, step s.journal b t.journal ∧
      (s.NoneSkipped lib a → Circonus.NoneSkipped s.journal b) := by
  cases hs with
  | skip => exact .inl rfl
  | @write c message hc => exact .inr ⟨.write message, rfl, fun _ => trivial⟩
  | @interval replies hlen =>
    refine .inr ⟨.interval (s.answers lib replies), ⟨?_, rfl⟩, id⟩
    have hzip : (s.answers lib replies).length ≤ replies.length := by
      unfold Outbox.answers
      rw [List.length_zipWith]
      exact Nat.min_le_right _ _
    omega

end Intervals

/-- **From the journal to Circonus.**  In every run whose URLs need no escape, each upload has the
URL of a submitted document, and as many bytes of this document as curl has asked for.  If no round
skips a message, each document before the checkpoint has had an upload that ended without an error,
and in full if curl has asked for as many bytes as it has. -/
theorem posts_faithful (lib : Conversions) {tr : List (Event Outbox OutboxAction)} {s : Outbox}
    (h : Run (Outbox.Step lib) .start tr s) (hurls : ∀ e ∈ tr, e.label.PlainUrl) :
    (∀ p ∈ s.posts, p.Faithful s.submissions) ∧
      ((∀ e ∈ tr, e.before.NoneSkipped lib e.label) → ∀ i < s.journal.checkpoint,
        ∃ c p, s.submissions[i]? = some c ∧ p ∈ s.posts ∧ p.url = c.url ∧ p.attempt.Settles ∧
          p.body = c.json.take p.asked ∧ (c.json.length ≤ p.asked → p.body = c.json)) := by
  have hfaithful : s.Faithful :=
    (h.guarded Outbox.Faithful (fun _ a => a.PlainUrl) Outbox.faithful_start
      (fun _ _ _ hu ha => Outbox.faithful_step hu ha) hurls).2
  refine ⟨hfaithful.posts, fun hskip i hi => ?_⟩
  have hpassed : s.journal.NeverPassed :=
    (h.guarded (fun s => s.journal.NeverPassed) (fun s a => s.NoneSkipped lib a)
      (fun i hi => absurd hi (Nat.not_lt_zero i)) (fun u a v hu hskip hs => by
        rcases Outbox.journal_step hs with hsame | ⟨b, hb, hguard⟩
        · rw [hsame]
          exact hu
        · exact (neverPassed_step hu hb).2 (hguard hskip)) hskip).2
  obtain ⟨b, hb, hsettles⟩ := hpassed i hi
  obtain ⟨p, hp, rfl, rfl⟩ := hfaithful.settled i b hb hsettles
  obtain ⟨c, hc, hurl, hbody⟩ := hfaithful.posts p hp
  exact ⟨c, p, hc, hp, hurl, hsettles, hbody,
    fun hasked => hbody.trans (List.take_of_length_le hasked)⟩

/-- A document of one metric. -/
def oneMetric : Submission := ⟨cstr "\x7b\"a\":1\x7d", 1, cstr "https://trap"⟩

/-- The document, read in two buffers and uploaded without an error. -/
def uploaded : Reply := ⟨true, [4, 16384], [⟨true, 1, false⟩], [⟨true, true⟩], true⟩

theorem posts_faithful_oneMetric :
    ∃ (tr : List (Event Outbox OutboxAction)) (s : Outbox),
      Run (Outbox.Step reference) .start tr s ∧ s.submissions = [oneMetric] ∧
        s.journal.checkpoint = 1 ∧
        ∃ p ∈ s.posts, p.url = cstr "https://trap" ∧ p.body = cstr "\x7b\"a\":1\x7d" := by
  have hurl : ∀ c ∈ oneMetric.url, needsEscape c = false := plain_of_all (by decide)
  have hmessage : oneMetric.message = some (wrapperText oneMetric.url oneMetric.json) := rfl
  have h₁ := (Run.nil : Run (Outbox.Step reference) .start [] .start).snoc (.write hmessage)
  have h₂ := h₁.snoc (@Outbox.Step.interval reference _ [uploaded] (by decide))
  have hcheckpoint : ((Journal.mk [wrapperText oneMetric.url oneMetric.json] 0 []).readMessages 0
      [answer reference (wrapperText oneMetric.url oneMetric.json) uploaded]).checkpoint = 1 := by
    rw [Journal.readMessages, Journal.readMessages, Journal.readMessage,
      attempt_wrapperText uploaded hurl]
    rfl
  refine ⟨_, _, h₂, rfl, hcheckpoint, ?_⟩
  obtain ⟨-, hdelivered⟩ := posts_faithful reference h₂ fun e he => by
    rcases List.mem_append.1 he with he | he
    · rw [List.mem_singleton.1 he]
      exact hurl
    · rw [List.mem_singleton.1 he]
      trivial
  obtain ⟨c, p, hc, hp, hpurl, -, -, hbody⟩ := hdelivered (fun e he => by
    rcases List.mem_append.1 he with he | he
    · rw [List.mem_singleton.1 he]
      trivial
    · rw [List.mem_singleton.1 he]
      intro j a hj _ _ i b hi
      obtain rfl : j = 0 := by
        have := (List.getElem?_eq_some_iff.1 hj).1
        simp [Outbox.answers] at this
        omega
      omega) 0 (hcheckpoint ▸ Nat.zero_lt_one)
  obtain rfl : oneMetric = c := Option.some.inj hc
  -- curl has asked for more bytes than the document has
  obtain ⟨j, message, r, hmessage', hr, hpost⟩ := mem_posts.1
    ((List.mem_append.1 hp).resolve_left List.not_mem_nil)
  have hj : j = 0 := by
    have := (List.getElem?_eq_some_iff.1 hr).1
    rw [List.length_singleton] at this
    omega
  subst hj
  obtain rfl : uploaded = r := Option.some.inj hr
  simp only [Outbox.start, Journal.start, List.nil_append, List.drop_zero,
    List.getElem?_cons_zero, Option.some.injEq] at hmessage'
  subst hmessage'
  obtain ⟨-, rfl⟩ := (post_wrapperText hurl).1 hpost
  exact ⟨_, hp, hpurl, hbody (by decide)⟩

end Tracemate.Circonus
