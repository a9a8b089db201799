import Mathlib.Tactic
import Tracemate.Lib.Runs

/-!
# The journal reader: `send_thread` of `tm_circonus.c`

Metric documents are appended to a jlog by `journal_output_metrics`; `send_thread` reads them in
intervals, sends each to the submission URL its wrapper names and moves the read checkpoint.

* `Attempt`: how the handling of one message of an interval ended (`jlog_ctx_read_message`
  failed, the wrapper did not parse, it lacks `url` or `data`, it was handed to curl);
* `Attempt.doCheckpoint`: the value of `do_checkpoint` at the label `checkpoint`;
* `readMessages`: the `for` loop over one interval;
* `step`: a write to the journal, or one round of the `while(true)` loop.

Of jlog it is used that a read interval starts right after the checkpoint and that
`jlog_ctx_read_checkpoint(id)` marks `id` and everything before it as consumed.  An id is the
position of its message in the journal; the checkpoint is the number of consumed messages.
-/

namespace Tracemate.Circonus

open Runs

/-- One pass of the loop around `curl_multi_perform` and `curl_multi_wait`: whether both
returned `CURLM_OK`, and the two counters they report. -/
structure Poll where
  ok : Bool
  numfds : ℕ
  stillRunning : Bool
  deriving DecidableEq

/-- A message of `curl_multi_info_read`: whether it is `CURLMSG_DONE`, and whether its result
is `CURLE_OK`. -/
structure CurlMsg where
  done : Bool
  ok : Bool
  deriving DecidableEq

/-- The `do … while(still_running)` loop, from a value of `repeats` on; `true` when it is left
by `goto after_response`, on the thousandth pass in a row without a file descriptor. -/
def timedOut : ℕ → List Poll → Bool
  | _, [] => false
  | repeats, p :: rest =>
    if !p.ok then false
    else if p.numfds = 0 then
      if 1000 ≤ repeats + 1 then true
      else if p.stillRunning then timedOut (repeats + 1) rest else false
    else if p.stillRunning then timedOut 0 rest else false

/-- How the handling of one message of an interval ended. -/
inductive Attempt
  | readFailed
  | unparseable
  | badWrapper
  | transfer (polls : List Poll) (msgs : List CurlMsg)
  deriving DecidableEq

/-- The value of `do_checkpoint` after one message. -/
def Attempt.doCheckpoint : Attempt → Bool
  | .readFailed => false
  | .unparseable => false
  | .badWrapper => true
  | .transfer polls msgs =>
    if timedOut 0 polls then false else msgs.any fun m => m.done && m.ok

/-- The entry has received a successful response, or has been recognised as a wrapper that
lacks `url` or `data`. -/
def Attempt.Settles : Attempt → Prop
  | .badWrapper => True
  | .transfer polls msgs => timedOut 0 polls = false ∧ ∃ m ∈ msgs, m.done = true ∧ m.ok = true
  | _ => False

@[simp] theorem Attempt.doCheckpoint_iff (a : Attempt) : a.doCheckpoint = true ↔ a.Settles := by
  cases a with
  | transfer polls msgs => simp [doCheckpoint, Settles]
  | _ => simp [doCheckpoint, Settles]

/-- The parsed wrapper of a journal message, with the two members that are looked up in it. -/
structure Wrapper where
  url : Option (List UInt8)
  data : Option (List UInt8)
  deriving DecidableEq

/-- What the environment answers for one message of an interval: whether
`jlog_ctx_read_message` returns `0`, what the tokener makes of the message (`none` is `NULL`),
what curl reports of the transfer, and whether a `jlog_ctx_read_checkpoint` that follows
returns `0`. -/
structure Answer where
  readOk : Bool
  wrapper : Option Wrapper
  polls : List Poll
  msgs : List CurlMsg
  accepted : Bool
  deriving DecidableEq

/-- The branches of the loop body up to the label `checkpoint`. -/
def Answer.attempt (a : Answer) : Attempt :=
  if !a.readOk then .readFailed
  else match a.wrapper with
    | none => .unparseable
    | some w =>
      if w.url.isNone || w.data.isNone then .badWrapper else .transfer a.polls a.msgs

/-- The journal, its read checkpoint and the attempts made so far (entry, attempt). -/
structure Journal where
  entries : List (List UInt8)
  checkpoint : ℕ
  attempts : List (ℕ × Attempt)
  deriving DecidableEq

/-- The journal before the first write. -/
def Journal.start : Journal := ⟨[], 0, []⟩

/-- The body of the loop for the message with id `begin`; `end = begin`, so a checkpoint
consumes this message and everything before it. -/
def Journal.readMessage (s : Journal) (begin : ℕ) (a : Answer) : Journal :=
  { s with
    attempts := s.attempts ++ [(begin, a.attempt)]
    checkpoint := if a.attempt.doCheckpoint && a.accepted then begin + 1 else s.checkpoint }

/-- The `for` loop over an interval that starts at `begin`. -/
def Journal.readMessages (s : Journal) : ℕ → List Answer → Journal
  | _, [] => s
  | begin, a :: rest => (s.readMessage begin a).readMessages (begin + 1) rest

/-- A write of `journal_output_metrics`, or a round of `send_thread` with the answers for the
messages of its interval (none when `msg_count` is `0` or `-1`). -/
inductive Action
  | write (message : List UInt8)
  | interval (answers : List Answer)
  deriving DecidableEq

/-- One step.  A read interval starts right after the checkpoint and ends within the journal. -/
def step (s : Journal) : Action → Journal → Prop
  | .write message, t => t = { s with entries := s.entries ++ [message] }
  | .interval answers, t =>
    s.checkpoint + answers.length ≤ s.entries.length ∧
      t = s.readMessages s.checkpoint answers

instance (s : Journal) (a : Action) (t : Journal) : Decidable (step s a t) := by
  cases a <;> unfold step <;> infer_instance

/-! ### Delivery -/

/-- Some attempt at the entry has settled it. -/
def Journal.Settled (s : Journal) (i : ℕ) : Prop := ∃ a, (i, a) ∈ s.attempts ∧ a.Settles

/-- The checkpoint has not moved past an entry that is not settled. -/
def Journal.NeverPassed (s : Journal) : Prop := ∀ i < s.checkpoint, s.Settled i

/-- Some read interval of this state contains the entry. -/
def Journal.Offers (s : Journal) (i : ℕ) : Prop :=
  ∃ count, s.checkpoint + count ≤ s.entries.length ∧ s.checkpoint ≤ i ∧ i < s.checkpoint + count

/-- The delivery law: the checkpoint never passes an unsettled entry, and an entry whose
attempts have all failed can be offered again. -/
def Journal.Delivers (s : Journal) : Prop :=
  s.NeverPassed ∧ ∀ i a, (i, a) ∈ s.attempts → ¬ s.Settled i → s.Offers i

/-- Every attempt was made at an entry of the journal, and the checkpoint lies within it. -/
def Journal.InRange (s : Journal) : Prop :=
  s.checkpoint ≤ s.entries.length ∧ ∀ i a, (i, a) ∈ s.attempts → i < s.entries.length

theorem Journal.delivers_iff {s : Journal} (h : s.InRange) : s.Delivers ↔ s.NeverPassed := by
  refine ⟨fun hd => hd.1, fun hp => ⟨hp, fun i a hi hns => ?_⟩⟩
  have hlt : i < s.entries.length := h.2 i a hi
  have hge : s.checkpoint ≤ i := by
    by_contra hlt'
    exact hns (hp i (by omega))
  exact ⟨s.entries.length - s.checkpoint, by omega, hge, by omega⟩

/-! ### The loop over an interval -/

@[simp] theorem Journal.readMessages_entries (s : Journal) (begin : ℕ) (answers : List Answer) :
    (s.readMessages begin answers).entries = s.entries := by
  induction answers generalizing s begin with
  | nil => rfl
  | cons a rest ih => rw [readMessages, ih]; rfl

/-- The attempts of an interval are recorded one by one, at consecutive ids. -/
theorem Journal.mem_attempts_readMessages (s : Journal) (begin : ℕ) (answers : List Answer)
    (i : ℕ) (b : Attempt) :
    (i, b) ∈ (s.readMessages begin answers).attempts ↔
      (i, b) ∈ s.attempts ∨ ∃ j a, answers[j]? = some a ∧ i = begin + j ∧ a.attempt = b := by
  induction answers generalizing s begin with
  | nil => simp [readMessages]
  | cons a rest ih =>
    rw [readMessages, ih]
    simp only [readMessage, List.mem_append, List.mem_singleton, Prod.mk.injEq]
    constructor
    · rintro ((h | ⟨rfl, rfl⟩) | ⟨j, c, hj, rfl, rfl⟩)
      · exact .inl h
      · exact .inr ⟨0, a, rfl, rfl, rfl⟩
      · exact .inr ⟨j + 1, c, by simpa using hj, by omega, rfl⟩
    · rintro (h | ⟨j, c, hj, rfl, rfl⟩)
      · exact .inl (.inl h)
      · cases j with
        | zero =>
          obtain rfl : a = c := by simpa using hj
          exact .inl (.inr ⟨rfl, rfl⟩)
        | succ j => exact .inr ⟨j, c, by simpa using hj, by omega, rfl⟩

theorem Journal.settled_readMessages (s : Journal) (begin : ℕ) (answers : List Answer) (i : ℕ) :
    (s.readMessages begin answers).Settled i ↔
      s.Settled i ∨ ∃ j a, answers[j]? = some a ∧ i = begin + j ∧ a.attempt.Settles := by
  simp only [Settled, mem_attempts_readMessages]
  constructor
  · rintro ⟨b, hb | ⟨j, a, hj, hi, rfl⟩, hs⟩
    · exact .inl ⟨b, hb, hs⟩
    · exact .inr ⟨j, a, hj, hi, hs⟩
  · rintro (⟨b, hb, hs⟩ | ⟨j, a, hj, hi, hs⟩)
    · exact ⟨b, .inl hb, hs⟩
    · exact ⟨a.attempt, .inr ⟨j, a, hj, hi, rfl⟩, hs⟩

/-- The checkpoint is cumulative: an id lies before it after the loop exactly if it did before,
or some settled message of the interval at or after it had its checkpoint accepted. -/
theorem Journal.lt_checkpoint_readMessages (s : Journal) (begin : ℕ) (answers : List Answer)
    (h : s.checkpoint ≤ begin) (i : ℕ) :
    i < (s.readMessages begin answers).checkpoint ↔
      i < s.checkpoint ∨ ∃ j a, answers[j]? = some a ∧ a.attempt.Settles ∧
        a.accepted = true ∧ i ≤ begin + j := by
  induction answers generalizing s begin with
  | nil => simp [readMessages]
  | cons a rest ih =>
    have hstep : i < (s.readMessage begin a).checkpoint ↔
        i < s.checkpoint ∨ (a.attempt.Settles ∧ a.accepted = true ∧ i ≤ begin) := by
      simp only [readMessage]
      split_ifs with hc <;> rw [Bool.and_eq_true, Attempt.doCheckpoint_iff] at hc
      · simp only [hc.1, hc.2, true_and]; omega
      · constructor
        · exact .inl
        · rintro (h | ⟨h1, h2, -⟩)
          · exact h
          · exact absurd ⟨h1, h2⟩ hc
    have hle : (s.readMessage begin a).checkpoint ≤ begin + 1 := by
      simp only [readMessage]; split_ifs <;> omega
    rw [readMessages, ih _ _ hle, hstep]
    constructor
    · rintro ((h | ⟨h1, h2, h3⟩) | ⟨j, c, hj, h1, h2, h3⟩)
      · exact .inl h
      · exact .inr ⟨0, a, rfl, h1, h2, h3⟩
      · exact .inr ⟨j + 1, c, by simpa using hj, h1, h2, by omega⟩
    · rintro (h | ⟨j, c, hj, h1, h2, h3⟩)
      · exact .inl (.inl h)
      · cases j with
        | zero =>
          obtain rfl : a = c := by simpa using hj
          exact .inl (.inr ⟨h1, h2, h3⟩)
        | succ j => exact .inr ⟨j, c, by simpa using hj, h1, h2, by omega⟩

/-! ### Runs -/

/-- No message of the interval is checkpointed behind one that is still unsettled: each entry
before a settled one whose checkpoint is accepted settles as well, in this interval or in an
earlier one. -/
def NoneSkipped (s : Journal) : Action → Prop
  | .write _ => True
  | .interval answers =>
    ∀ j a, answers[j]? = some a → a.attempt.Settles → a.accepted = true →
      ∀ i b, i < j → answers[i]? = some b → s.Settled (s.checkpoint + i) ∨ b.attempt.Settles

theorem inRange_step {s t : Journal} {a : Action} (h : s.InRange) (hs : step s a t) :
    t.InRange := by
  obtain ⟨hc, ha⟩ := h
  cases a with
  | write message =>
    obtain rfl : t = _ := hs
    refine ⟨by simp only [List.length_append]; omega, fun i b hi => ?_⟩
    have := ha i b hi
    simp only [List.length_append]; omega
  | interval answers =>
    obtain ⟨hlen, rfl⟩ := hs
    constructor
    · rw [Journal.readMessages_entries]
      by_contra hlt
      rcases (s.lt_checkpoint_readMessages _ answers le_rfl s.entries.length).1 (by omega) with
        h | ⟨j, a, hj, -, -, hle⟩
      · omega
      · have := (List.getElem?_eq_some_iff.1 hj).1
        omega
    · intro i b hi
      rw [Journal.readMessages_entries]
      rcases (s.mem_attempts_readMessages _ answers i b).1 hi with h | ⟨j, a, hj, rfl, -⟩
      · exact ha i b h
      · have := (List.getElem?_eq_some_iff.1 hj).1
        omega

/-- One step keeps the checkpoint behind the unsettled entries exactly if it skips none. -/
theorem neverPassed_step {s t : Journal} {a : Action} (h : s.NeverPassed) (hs : step s a t) :
    t.NeverPassed ↔ NoneSkipped s a := by
  cases a with
  | write message =>
    obtain rfl : t = _ := hs
    exact ⟨fun _ => trivial, fun _ => h⟩
  | interval answers =>
    obtain ⟨-, rfl⟩ := hs
    simp only [Journal.NeverPassed, Journal.settled_readMessages,
      s.lt_checkpoint_readMessages _ answers le_rfl]
    constructor
    · intro hp j a hj hset hacc i b hij hi
      rcases hp (s.checkpoint + i) (.inr ⟨j, a, hj, hset, hacc, by omega⟩) with
        h' | ⟨k, c, hk, hki, hc⟩
      · exact .inl h'
      · obtain rfl : i = k := by omega
        obtain rfl : b = c := by simpa [hi] using hk
        exact .inr hc
    · rintro hns n (hn | ⟨j, a, hj, hset, hacc, hn⟩)
      · exact .inl (h n hn)
      · by_cases hlt : n < s.checkpoint
        · exact .inl (h n hlt)
        · obtain ⟨i, rfl⟩ := Nat.exists_eq_add_of_le (Nat.le_of_not_lt hlt)
          rcases Nat.eq_or_lt_of_le (show i ≤ j by omega) with rfl | hij
          · exact .inr ⟨i, a, hj, rfl, hset⟩
          · have hlen := (List.getElem?_eq_some_iff.1 hj).1
            obtain ⟨b, hi⟩ : ∃ b, answers[i]? = some b :=
              ⟨_, List.getElem?_eq_getElem (by omega)⟩
            rcases hns j a hj hset hacc i b hij hi with h' | h'
            · exact .inl h'
            · exact .inr ⟨i, b, hi, rfl, h'⟩

theorem inRange_start : Journal.start.InRange := ⟨Nat.le_refl 0, fun _ _ h => by cases h⟩

/-- **Delivery over whole runs.**  In every run the delivery law holds in all states reached
exactly if no round checkpoints a message behind one that is still unsettled. -/
theorem delivers_iff_noneSkipped {tr : List (Event Journal Action)} {s : Journal}
    (h : Run step Journal.start tr s) :
    (∀ e ∈ tr, e.after.Delivers) ↔ ∀ e ∈ tr, NoneSkipped e.before e.label := by
  have hrange := (h.invariant Journal.InRange inRange_start
    fun u a v => inRange_step (s := u) (t := v)).1
  rw [← h.forall_iff Journal.NeverPassed NoneSkipped
    (fun i hi => absurd hi (Nat.not_lt_zero i)) fun u a v hu hs => neverPassed_step hu hs]
  exact forall₂_congr fun e he => Journal.delivers_iff (hrange e he).2

/-- A complete wrapper whose transfer curl reports as done, with `CURLE_OK` or an error; the
checkpoint that may follow is accepted. -/
def transferDone (ok : Bool) : Answer :=
  ⟨true, some ⟨some [104], some [101]⟩, [⟨true, 1, false⟩], [⟨true, ok⟩], true⟩

/-- Two entries, both attempted in one interval: the first transfer ends with `first`, the
second with the other outcome. -/
def afterTwo (checkpoint : ℕ) (first : Bool) : Journal :=
  ⟨[[1], [2]], checkpoint,
    [(0, (transferDone first).attempt), (1, (transferDone !first).attempt)]⟩

/-- Two entries, one interval in which the first is sent successfully and the second fails. -/
theorem delivers_of_prefix :
    ∃ tr s, Run step Journal.start tr s ∧ tr.length = 3 ∧ ∀ e ∈ tr, e.after.Delivers := by
  have h : Run step Journal.start _ _ :=
    ((Run.single (t := ⟨[[1]], 0, []⟩) (a := .write [1]) (by decide)).snoc
      (a := .write [2]) (u := ⟨[[1], [2]], 0, []⟩) (by decide)).snoc
      (a := .interval [transferDone true, transferDone false])
      (u := afterTwo 1 true) (by decide)
  refine ⟨_, _, h, rfl, (delivers_iff_noneSkipped h).2 fun e he => ?_⟩
  simp only [List.cons_append, List.nil_append, List.mem_cons, List.not_mem_nil, or_false] at he
  rcases he with rfl | rfl | rfl
  · trivial
  · trivial
  · rintro j a hj hset - i b hij -
    match j, hj with
    | 0, _ => omega
    | 1, hj =>
      obtain rfl : _ = a := by simpa using hj
      exact absurd hset (by rw [← Attempt.doCheckpoint_iff]; decide)

/-- Two entries in one interval, the first fails and the second is sent: the checkpoint moves
past the first, which no later interval offers. -/
theorem failed_entry_passed :
    ∃ tr s, Run step Journal.start tr s ∧ (0, (transferDone false).attempt) ∈ s.attempts ∧
      ¬ s.Settled 0 ∧ s.checkpoint = 2 ∧ ¬ s.Offers 0 ∧ ¬ s.Delivers := by
  have h : Run step Journal.start _ _ :=
    ((Run.single (t := ⟨[[1]], 0, []⟩) (a := .write [1]) (by decide)).snoc
      (a := .write [2]) (u := ⟨[[1], [2]], 0, []⟩) (by decide)).snoc
      (a := .interval [transferDone false, transferDone true])
      (u := afterTwo 2 false) (by decide)
  have hns : ¬ (afterTwo 2 false).Settled 0 := by
    rintro ⟨a, ha, hset⟩
    obtain rfl : a = (transferDone false).attempt := by simpa [afterTwo] using ha
    exact absurd hset (by rw [← Attempt.doCheckpoint_iff]; decide)
  refine ⟨_, _, h, by simp [afterTwo], hns, rfl, ?_, fun hd => hns (hd.1 0 (by decide))⟩
  rintro ⟨count, -, hle, -⟩
  simp [afterTwo] at hle

end Tracemate.Circonus
