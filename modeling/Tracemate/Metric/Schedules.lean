import Mathlib.Data.List.SplitLengths
import Mathlib.Tactic.FieldSimp
import Mathlib.Tactic.Linarith
import Tracemate.Metric.Updates

/-!
# Reported numbers and the flush schedule

The values of `update_numeric` and `update_average` for one aggregate key travel in messages: an
instance sends its entry and resets it, and the owner of the key merges the messages.  Numbers
are exact here; the rounding of `%g` is left out.

* `Batch`, `sends`: the calls between two sends, and the messages of an instance;
* `Schedule`: the batches of all instances, and the messages as the owner reads them;
* `Schedule.report_eq`: the reported number is the sum of the values over the sum of the weights
  of the batches;
* `scheduleFree_iff`: when it is the same for all schedules.
-/

namespace Tracemate.Metric

/-! ### Producers -/

/-- The two updates whose entry is a number. -/
inductive NumberKind
  | numeric
  | average
  deriving DecidableEq

/-- The call of `update_numeric` or `update_average` with a value. -/
def NumberKind.update : NumberKind → ℚ → Update
  | numeric => .numeric
  | average => .average

/-- The calls for one key between two sends of its entry, each with the reading of the clock:
an entry that has not been updated since is not sent.  `removed` says that the entry is removed
from the table afterwards. -/
structure Batch where
  calls : List (ℕ × ℚ)
  nonempty : calls ≠ []
  removed : Bool

/-- The values of a batch. -/
def Batch.values (b : Batch) : List ℚ := b.calls.map Prod.snd

/-- The entry after some calls. -/
def entryAfter (kind : NumberKind) (owner : BitVec 32) (e : Option MetricValue)
    (calls : List (ℕ × ℚ)) : Option MetricValue :=
  calls.foldl (fun e call => (kind.update call.2).apply owner call.1 e) e

/-- The members `_value` and `_count` of the message that is sent of an entry. -/
def exactMessage (v : MetricValue) : Option (ℚ × BitVec 32) :=
  match v.metric with
  | .number number => some (number, v.count)
  | _ => none

/-- But for the rounding of `%g` these are what `metric_to_json` prints. -/
theorem jsonValue_of_exactMessage {v : MetricValue} {number : ℚ} {count : BitVec 32}
    (h : exactMessage v = some (number, count)) :
    jsonValue v false = .number (printfG number) (some count) := by
  obtain ⟨metric, c, _, _, _, _⟩ := v
  cases metric with
  | number d =>
    obtain ⟨rfl, rfl⟩ := Prod.mk.inj (Option.some.inj h)
    rfl
  | text str => cases h
  | histogram h' => cases h
  | integer i => cases h

/-- The messages of an instance with its owner id: after each batch the entry is sent, and reset
or removed. -/
def sends (kind : NumberKind) (owner : BitVec 32) :
    Option MetricValue → List Batch → List (ℚ × BitVec 32)
  | _, [] => []
  | e, b :: bs =>
    let e := entryAfter kind owner e b.calls
    (e.bind exactMessage).toList ++
      sends kind owner (if b.removed then none else e.map resetValue) bs

/-! ### The owner -/

/-- The entry of the owner after the messages, each read at a reading of the clock. -/
def consume (owner : BitVec 32) (reads : List (ℕ × ℚ × BitVec 32)) : Option MetricValue :=
  reads.foldl (fun e r => (Update.mergeNumber r.2.1 r.2.2).apply owner r.1 e) none

/-- The divisor of `metric_to_json` for a count. -/
def divisor (count : BitVec 32) : ℚ := max (count.toInt : ℚ) 1

/-- The number that is reported of an entry. -/
def resolved (v : MetricValue) : Option ℚ :=
  match v.metric with
  | .number number => some (number / divisor v.count)
  | _ => none

/-- But for the rounding of `%g` this is what `metric_to_json` prints. -/
theorem jsonValue_of_resolved {v : MetricValue} {number : ℚ} (h : resolved v = some number) :
    jsonValue v true = .number (printfG number) none := by
  obtain ⟨metric, c, _, _, _, _⟩ := v
  cases metric with
  | number d =>
    obtain rfl : d / divisor c = number := Option.some.inj h
    rfl
  | text str => cases h
  | histogram h' => cases h
  | integer i => cases h

/-- How the updates of a key are split over instances and batches, and in which order the owner
reads the messages: each exactly once. -/
structure Schedule (kind : NumberKind) where
  instances : List (BitVec 32 × List Batch)
  owner : BitVec 32
  reads : List (ℕ × ℚ × BitVec 32)
  readsAll : (reads.map Prod.snd).Perm (instances.flatMap fun i => sends kind i.1 none i.2)

namespace Schedule

variable {kind : NumberKind}

/-- All batches. -/
def batches (s : Schedule kind) : List Batch := s.instances.flatMap Prod.snd

/-- All values of the updates. -/
def values (s : Schedule kind) : List ℚ := s.batches.flatMap Batch.values

/-- The number that the owner finally reports. -/
def report (s : Schedule kind) : Option ℚ := (consume s.owner s.reads).bind resolved

end Schedule

/-- The reported number is the same however the updates are split. -/
def ScheduleFree (kind : NumberKind) (values : List ℚ) : Prop :=
  ∀ s s' : Schedule kind, s.values.Perm values → s'.values.Perm values → s.report = s'.report

/-! ### What one batch contributes -/

/-- The count that the owner reads: `0` stands for `1`. -/
def readCount (count : BitVec 32) : BitVec 32 := if count = 0 then 1 else count

/-- What a batch of a given size adds to the count of the owner. -/
def weight : NumberKind → ℕ → BitVec 32
  | .numeric, _ => 1
  | .average, size => readCount (.ofNat 32 size)

/-- The entry is a number with a count. -/
def IsNumber (e : Option MetricValue) (number : ℚ) (count : BitVec 32) : Prop :=
  ∃ v, e = some v ∧ v.metric = .number number ∧ v.count = count

/-- The entry at the start of a batch: missing, or reset. -/
def Fresh (e : Option MetricValue) : Prop := e = none ∨ IsNumber e 0 0

/-- What one call adds to the count of an entry. -/
def NumberKind.step : NumberKind → BitVec 32
  | numeric => 0
  | average => 1

section OneBatch

variable {kind : NumberKind} {owner : BitVec 32} {e : Option MetricValue}

theorem isNumber_apply {number value : ℚ} {count : BitVec 32} (h : IsNumber e number count)
    (now : ℕ) :
    IsNumber ((kind.update value).apply owner now e) (number + value) (count + kind.step) := by
  obtain ⟨v, rfl, hmetric, rfl⟩ := h
  cases kind with
  | numeric =>
    refine ⟨{ v with metric := .number (number + value), lastSeen := now }, ?_, rfl, ?_⟩
    · simp [NumberKind.update, Update.apply, Update.change, hmetric]
    · simp [NumberKind.step]
  | average =>
    refine ⟨{ v with metric := .number (number + value), count := v.count + 1, lastSeen := now },
      ?_, rfl, rfl⟩
    simp [NumberKind.update, Update.apply, Update.change, hmetric]

theorem isNumber_entryAfter {number : ℚ} {count : BitVec 32} (h : IsNumber e number count)
    (calls : List (ℕ × ℚ)) :
    IsNumber (entryAfter kind owner e calls) (number + (calls.map Prod.snd).sum)
      (count + calls.length * kind.step) := by
  induction calls generalizing e number count with
  | nil => simpa [entryAfter] using h
  | cons call calls ih =>
    have hcall : IsNumber ((kind.update call.2).apply owner call.1 e) (number + call.2)
        (count + kind.step) := isNumber_apply h call.1
    have hcount : count + ((call :: calls).length : BitVec 32) * kind.step =
        count + kind.step + (calls.length : BitVec 32) * kind.step := by
      rw [List.length_cons, Nat.cast_succ]
      ring
    rw [List.map_cons, List.sum_cons, ← add_assoc, hcount]
    exact ih hcall

/-- The message of a batch: its values, and a count that the owner reads as its weight. -/
theorem entryAfter_fresh (he : Fresh e) {calls : List (ℕ × ℚ)} (hcalls : calls ≠ []) :
    ∃ count, IsNumber (entryAfter kind owner e calls) (calls.map Prod.snd).sum count ∧
      readCount count = weight kind calls.length := by
  obtain ⟨call, rest, rfl⟩ := List.exists_cons_of_ne_nil hcalls
  rcases he with rfl | he
  · have hnew : IsNumber ((kind.update call.2).apply owner call.1 none) call.2 1 := by
      cases kind <;> exact ⟨_, rfl, rfl, rfl⟩
    refine ⟨_, isNumber_entryAfter hnew rest, ?_⟩
    cases kind with
    | numeric => simp [NumberKind.step, weight, readCount]
    | average =>
      have : (1 : BitVec 32) + rest.length * 1 = BitVec.ofNat 32 (rest.length + 1) := by
        rw [mul_one, add_comm]
        simp [BitVec.ofNat_add]
      rw [NumberKind.step, this, weight, List.length_cons]
  · have hall : IsNumber (entryAfter kind owner e (call :: rest)) _ _ :=
      isNumber_entryAfter he (call :: rest)
    rw [zero_add, zero_add] at hall
    refine ⟨_, hall, ?_⟩
    cases kind with
    | numeric => simp [NumberKind.step, weight, readCount]
    | average =>
      rw [NumberKind.step, mul_one, weight]
      rfl

theorem fresh_reset {number : ℚ} {count : BitVec 32} (h : IsNumber e number count)
    (removed : Bool) : Fresh (if removed then none else e.map resetValue) := by
  obtain ⟨v, rfl, hmetric, -⟩ := h
  cases removed with
  | true => exact .inl rfl
  | false =>
    refine .inr ⟨resetValue v, rfl, ?_, rfl⟩
    simp [resetValue, hmetric]

/-- The messages of an instance, as the owner reads them. -/
theorem sends_spec (he : Fresh e) (bs : List Batch) :
    (sends kind owner e bs).map (fun m => (m.1, readCount m.2)) =
      bs.map fun b => (b.values.sum, weight kind b.calls.length) := by
  induction bs generalizing e with
  | nil => rfl
  | cons b bs ih =>
    obtain ⟨count, hentry, hcount⟩ : ∃ count,
        IsNumber (entryAfter kind owner e b.calls) b.values.sum count ∧
          readCount count = weight kind b.calls.length := entryAfter_fresh he b.nonempty
    have hrest := ih (fresh_reset hentry b.removed)
    obtain ⟨v, hv, hmetric, rfl⟩ := hentry
    have hmessage : exactMessage v = some (b.values.sum, v.count) := by
      simp [exactMessage, hmetric, Batch.values]
    rw [hv] at hrest
    rw [sends, hv, Option.bind_some, hmessage, List.map_cons, List.map_append]
    exact congrArg₂ (· ++ ·) (congrArg (fun c => [(b.values.sum, c)]) hcount) hrest

end OneBatch

/-! ### What is reported -/

section Report

variable {owner : BitVec 32}

theorem isNumber_mergeNumber {e : Option MetricValue} {number value : ℚ} {count c : BitVec 32}
    (h : IsNumber e number count) (now : ℕ) :
    IsNumber ((Update.mergeNumber value c).apply owner now e) (number + value)
      (count + readCount c) := by
  obtain ⟨v, rfl, hmetric, rfl⟩ := h
  refine ⟨{ v with metric := .number (number + value), count := v.count + readCount c,
                   lastSeen := now }, ?_, rfl, rfl⟩
  simp [Update.apply, Update.change, hmetric, readCount]

theorem isNumber_foldl {e : Option MetricValue} {number : ℚ} {count : BitVec 32}
    (h : IsNumber e number count) (reads : List (ℕ × ℚ × BitVec 32)) :
    IsNumber (reads.foldl (fun e r => (Update.mergeNumber r.2.1 r.2.2).apply owner r.1 e) e)
      (number + (reads.map fun r => r.2.1).sum)
      (count + (reads.map fun r => readCount r.2.2).sum) := by
  induction reads generalizing e number count with
  | nil => simpa using h
  | cons r reads ih =>
    have hread : IsNumber ((Update.mergeNumber r.2.1 r.2.2).apply owner r.1 e) (number + r.2.1)
        (count + readCount r.2.2) := isNumber_mergeNumber h r.1
    rw [List.map_cons, List.sum_cons, List.map_cons, List.sum_cons, ← add_assoc, ← add_assoc]
    exact ih hread

/-- The owner's entry holds the sum of all messages. -/
theorem consume_spec {reads : List (ℕ × ℚ × BitVec 32)} (h : reads ≠ []) :
    IsNumber (consume owner reads) (reads.map fun r => r.2.1).sum
      (reads.map fun r => readCount r.2.2).sum := by
  obtain ⟨r, rest, rfl⟩ := List.exists_cons_of_ne_nil h
  have hnew : IsNumber ((Update.mergeNumber r.2.1 r.2.2).apply owner r.1 none) r.2.1
      (readCount r.2.2) := ⟨_, rfl, rfl, rfl⟩
  exact isNumber_foldl hnew rest

end Report

namespace Schedule

variable {kind : NumberKind}

/-- The count of the owner's entry: the weights of the batches. -/
def weights (s : Schedule kind) : BitVec 32 :=
  (s.batches.map fun b => weight kind b.calls.length).sum

/-- The messages of all instances, as the owner reads them. -/
theorem map_reads_perm (s : Schedule kind) :
    (s.reads.map fun r => (r.2.1, readCount r.2.2)).Perm
      (s.batches.map fun b => (b.values.sum, weight kind b.calls.length)) := by
  have hread := s.readsAll.map fun m => (m.1, readCount m.2)
  rw [List.map_map, List.map_flatMap] at hread
  rw [batches, List.map_flatMap]
  simp only [sends_spec (Or.inl rfl)] at hread
  exact hread

theorem sum_values (s : Schedule kind) :
    (s.batches.map fun b => b.values.sum).sum = s.values.sum := by
  unfold values
  induction s.batches with
  | nil => rfl
  | cons b bs ih => simp [ih]

theorem values_eq_nil_iff (s : Schedule kind) : s.values = [] ↔ s.batches = [] := by
  unfold values
  cases s.batches with
  | nil => simp
  | cons b bs => simp [Batch.values, b.nonempty]

/-- The reported number is the sum of the values over the sum of the weights. -/
theorem report_eq (s : Schedule kind) :
    s.report = if s.values = [] then none else some (s.values.sum / divisor s.weights) := by
  have hperm := s.map_reads_perm
  have hnil : s.reads = [] ↔ s.values = [] := by
    rw [values_eq_nil_iff, ← List.length_eq_zero_iff, ← List.length_eq_zero_iff]
    have := hperm.length_eq
    simp only [List.length_map] at this
    rw [this]
  split_ifs with h
  · rw [report, hnil.2 h]
    rfl
  · obtain ⟨v, hv, hmetric, hcount⟩ : IsNumber (consume s.owner s.reads) _ _ :=
      consume_spec (mt hnil.1 h)
    have hnumber : (s.reads.map fun r => r.2.1).sum = s.values.sum := by
      have := (hperm.map Prod.fst).sum_eq
      rw [List.map_map, List.map_map] at this
      exact this.trans s.sum_values
    have hweights : (s.reads.map fun r => readCount r.2.2).sum = s.weights := by
      have := (hperm.map Prod.snd).sum_eq
      rw [List.map_map, List.map_map] at this
      exact this
    rw [report, hv]
    simp [resolved, hmetric, hcount, hnumber, hweights]

end Schedule

/-! ### When the schedule does not matter -/

/-- Every split of `n` updates into batches gives the same divisor. -/
def SameDivisor : NumberKind → ℕ → Prop
  | .numeric, n => n ≤ 1
  -- a batch whose size is a multiple of `2 ^ 32` counts one more than it should
  | .average, n => ∀ k ≤ n / 2 ^ 32, divisor (.ofNat 32 (n + k)) = divisor (.ofNat 32 n)

theorem sum_weight_numeric (sizes : List ℕ) :
    (sizes.map (weight .numeric)).sum = BitVec.ofNat 32 sizes.length := by
  induction sizes with
  | nil => rfl
  | cons n sizes ih =>
    rw [List.map_cons, List.sum_cons, ih, List.length_cons, Nat.add_comm, BitVec.ofNat_add]
    rfl

theorem sum_weight_average (sizes : List ℕ) (hpos : ∀ n ∈ sizes, 0 < n) :
    ∃ k, k * 2 ^ 32 ≤ sizes.sum ∧
      (sizes.map (weight .average)).sum = BitVec.ofNat 32 (sizes.sum + k) := by
  induction sizes with
  | nil => exact ⟨0, le_rfl, rfl⟩
  | cons n sizes ih =>
    obtain ⟨k, hk, hsum⟩ := ih fun m hm => hpos m (List.mem_cons_of_mem _ hm)
    have hn : 0 < n := hpos n List.mem_cons_self
    rw [List.map_cons, List.sum_cons, List.sum_cons, hsum, weight, readCount]
    by_cases h0 : BitVec.ofNat 32 n = 0
    · have hmod : n % 2 ^ 32 = 0 := by simpa using congrArg BitVec.toNat h0
      have hle : 2 ^ 32 ≤ n := Nat.le_of_dvd hn (Nat.dvd_of_mod_eq_zero hmod)
      have hadd : n + sizes.sum + (k + 1) = n + (1 + (sizes.sum + k)) := by omega
      refine ⟨k + 1, ?_, ?_⟩
      · rw [add_mul, one_mul, add_comm]
        exact Nat.add_le_add hle hk
      · rw [if_pos h0, hadd, BitVec.ofNat_add n, BitVec.ofNat_add 1, h0, zero_add]
        rfl
    · refine ⟨k, hk.trans (Nat.le_add_left _ _), ?_⟩
      rw [if_neg h0, add_assoc, BitVec.ofNat_add n]

/-- Batches that count for one each: single updates, and batches whose count wraps to `0`. -/
theorem sum_weight_ones {sizes : List ℕ} (h : ∀ n ∈ sizes, weight .average n = 1) :
    (sizes.map (weight .average)).sum = BitVec.ofNat 32 sizes.length := by
  rw [← sum_weight_numeric]
  exact congrArg List.sum (List.map_congr_left h)

/-- Batches of given sizes. -/
theorem exists_batches (sizes : List ℕ) (hpos : ∀ n ∈ sizes, 0 < n) (values : List ℚ)
    (hsum : sizes.sum = values.length) :
    ∃ bs : List Batch, bs.flatMap Batch.values = values ∧
      (bs.map fun b => b.calls.length) = sizes := by
  induction sizes generalizing values with
  | nil =>
    refine ⟨[], ?_, rfl⟩
    exact (List.length_eq_zero_iff.1 hsum.symm).symm
  | cons n sizes ih =>
    rw [List.sum_cons] at hsum
    have hn : 0 < n := hpos n List.mem_cons_self
    obtain ⟨bs, hvalues, hsizes⟩ := ih (fun m hm => hpos m (List.mem_cons_of_mem _ hm))
      (values.drop n) (by rw [List.length_drop]; omega)
    have hlen : ((values.take n).map fun x => ((0 : ℕ), x)).length = n := by
      rw [List.length_map, List.length_take]
      omega
    refine ⟨⟨(values.take n).map fun x => (0, x), ?_, false⟩ :: bs, ?_, ?_⟩
    · intro h
      rw [h] at hlen
      simp at hlen
      omega
    · rw [List.flatMap_cons, hvalues, Batch.values, List.map_map]
      simp [Function.comp_def]
    · rw [List.map_cons, hsizes, hlen]

namespace Schedule

variable {kind : NumberKind}

theorem length_values (s : Schedule kind) :
    (s.batches.map fun b => b.calls.length).sum = s.values.length := by
  unfold values
  rw [List.length_flatMap]
  simp [Batch.values]

theorem weights_eq (s : Schedule kind) :
    s.weights = ((s.batches.map fun b => b.calls.length).map (weight kind)).sum := by
  rw [List.map_map]
  rfl

/-- A schedule of one instance with batches of given sizes. -/
theorem exists_sizes (kind : NumberKind) (sizes : List ℕ) (hpos : ∀ n ∈ sizes, 0 < n)
    (values : List ℚ) (hsum : sizes.sum = values.length) :
    ∃ s : Schedule kind, s.values = values ∧ s.weights = (sizes.map (weight kind)).sum := by
  obtain ⟨bs, hvalues, hsizes⟩ := exists_batches sizes hpos values hsum
  let s : Schedule kind := ⟨[(0, bs)], 0, (sends kind 0 none bs).map fun m => (0, m), by
    simp [Function.comp_def]⟩
  have hbatches : s.batches = bs := by simp [s, batches]
  refine ⟨s, ?_, ?_⟩
  · rw [Schedule.values, hbatches, hvalues]
  · rw [weights_eq, hbatches, hsizes]

end Schedule

theorem divisor_one_ne_two : divisor (BitVec.ofNat 32 1) ≠ divisor (BitVec.ofNat 32 2) := by
  have h1 : divisor (BitVec.ofNat 32 1) = 1 := by simp [divisor]
  have h2 : divisor (BitVec.ofNat 32 2) = 2 := by simp [divisor]
  rw [h1, h2]
  norm_num

/-- Two splits of the same values, whose sum is not `0`, give the same divisor. -/
theorem ScheduleFree.divisor_eq {kind : NumberKind} {values : List ℚ}
    (h : ScheduleFree kind values) (hne : values.sum ≠ 0) (sizes sizes' : List ℕ)
    (hpos : ∀ n ∈ sizes, 0 < n) (hpos' : ∀ n ∈ sizes', 0 < n)
    (hsum : sizes.sum = values.length) (hsum' : sizes'.sum = values.length) :
    divisor (sizes.map (weight kind)).sum = divisor (sizes'.map (weight kind)).sum := by
  obtain ⟨s, hs, hw⟩ := Schedule.exists_sizes kind sizes hpos values hsum
  obtain ⟨s', hs', hw'⟩ := Schedule.exists_sizes kind sizes' hpos' values hsum'
  have hreport := h s s' (by rw [hs]) (by rw [hs'])
  have hnil : values ≠ [] := by
    rintro rfl
    exact hne rfl
  rw [s.report_eq, s'.report_eq, hs, hs', if_neg hnil, if_neg hnil, hw, hw'] at hreport
  have hpositive : ∀ c, (0 : ℚ) < divisor c := fun c => lt_max_of_lt_right one_pos
  have hquot := Option.some.inj hreport
  rw [div_eq_div_iff (hpositive _).ne' (hpositive _).ne'] at hquot
  exact (mul_left_cancel₀ hne hquot).symm

/-- A split of updates for which every split gives the same divisor. -/
theorem SameDivisor.divisor_eq {kind : NumberKind} {n : ℕ} (h : SameDivisor kind n)
    {s : Schedule kind} (hne : s.values ≠ []) (hlen : s.values.length = n) :
    divisor s.weights = divisor (.ofNat 32 n) := by
  have hsum := s.length_values.trans hlen
  have hpos : ∀ m ∈ s.batches.map fun b => b.calls.length, 0 < m := by
    intro m hm
    obtain ⟨b, -, rfl⟩ := List.mem_map.1 hm
    exact List.length_pos_of_ne_nil b.nonempty
  rw [Schedule.weights_eq]
  generalize hsizes : (s.batches.map fun b => b.calls.length) = sizes at hsum hpos
  cases kind with
  | numeric =>
    have hle : sizes.length ≤ sizes.sum := List.length_le_sum_of_one_le _ hpos
    have hone : n ≤ 1 := h
    have hbatches : sizes ≠ [] := by
      rw [← hsizes]
      simpa using mt s.values_eq_nil_iff.2 hne
    have := List.length_pos_of_ne_nil hbatches
    rw [sum_weight_numeric, show sizes.length = n by omega]
  | average =>
    obtain ⟨k, hk, hweights⟩ := sum_weight_average sizes hpos
    rw [hweights, hsum]
    exact h k ((Nat.le_div_iff_mul_le (by norm_num)).2 (hsum ▸ hk))

theorem ScheduleFree.of_sameDivisor {kind : NumberKind} {values : List ℚ}
    (h : values.sum = 0 ∨ SameDivisor kind values.length) : ScheduleFree kind values := by
  intro s s' hs hs'
  rw [s.report_eq, s'.report_eq, hs.sum_eq, hs'.sum_eq]
  have hnil : s.values = [] ↔ s'.values = [] := by
    rw [← List.length_eq_zero_iff, ← List.length_eq_zero_iff, hs.length_eq, hs'.length_eq]
  rcases h with hzero | hdiv
  · simp only [hzero, zero_div, hnil]
  · by_cases h : s.values = []
    · rw [if_pos h, if_pos (hnil.1 h)]
    · rw [if_neg h, if_neg (mt hnil.2 h), hdiv.divisor_eq h hs.length_eq,
        hdiv.divisor_eq (mt hnil.2 h) hs'.length_eq]

/-- The average of fewer than `2 ^ 32` values does not depend on the schedule. -/
theorem scheduleFree_average {values : List ℚ} (h : values.length < 2 ^ 32) :
    ScheduleFree .average values := by
  refine .of_sameDivisor (.inr fun k hk => ?_)
  rw [Nat.div_eq_of_lt h] at hk
  rw [Nat.le_zero.1 hk, Nat.add_zero]

/-- **Reported numbers and the schedule.**  For all schedules of the same updates the owner
reports the same number exactly if their values add up to `0`, or every split into batches gives
the same divisor. -/
theorem scheduleFree_iff (kind : NumberKind) (values : List ℚ) :
    ScheduleFree kind values ↔ values.sum = 0 ∨ SameDivisor kind values.length := by
  constructor
  · intro h
    by_contra hno
    obtain ⟨hne, hdiv⟩ := not_or.1 hno
    refine hdiv ?_
    cases kind with
    | numeric =>
      show values.length ≤ 1
      by_contra hlong
      have heq := h.divisor_eq hne [values.length] [1, values.length - 1]
        (by simp; omega) (by simp; omega) (by simp) (by simp; omega)
      rw [sum_weight_numeric, sum_weight_numeric] at heq
      exact divisor_one_ne_two heq
    | average =>
      intro k hk
      have hle : k * 2 ^ 32 ≤ values.length :=
        (Nat.mul_le_mul_right _ hk).trans (Nat.div_mul_le_self _ _)
      -- `k` batches whose count wraps to `0`, and single updates, against single updates
      let sizes := List.replicate k (2 ^ 32) ++ List.replicate (values.length - k * 2 ^ 32) 1
      have hsizes : ∀ n ∈ sizes, n = 2 ^ 32 ∨ n = 1 := fun n hn =>
        (List.mem_append.1 hn).imp List.eq_of_mem_replicate List.eq_of_mem_replicate
      have hones : ∀ n ∈ List.replicate values.length 1, n = 1 := fun n => List.eq_of_mem_replicate
      have hpos : ∀ n ∈ sizes, 0 < n := by
        intro n hn
        rcases hsizes n hn with rfl | rfl <;> norm_num
      have hsum : sizes.sum = values.length := by
        rw [List.sum_append, List.sum_replicate, List.sum_replicate, smul_eq_mul, smul_eq_mul,
          mul_one, Nat.add_sub_cancel' hle]
      have heq := h.divisor_eq hne sizes (List.replicate values.length 1) hpos
        (fun n hn => by rw [hones n hn]; exact one_pos) hsum (by simp)
      have hweight : ∀ n ∈ sizes, weight .average n = 1 := by
        intro n hn
        rcases hsizes n hn with rfl | rfl <;> rfl
      rw [sum_weight_ones hweight, sum_weight_ones fun n hn => by rw [hones n hn]; rfl] at heq
      simp only [sizes, List.length_append, List.length_replicate] at heq
      have hwrap : BitVec.ofNat 32 (k + (values.length - k * 2 ^ 32)) =
          BitVec.ofNat 32 (values.length + k) := by
        obtain ⟨m, hm⟩ := Nat.exists_eq_add_of_le hle
        have hk' : values.length + k = k + m + k * 2 ^ 32 := by omega
        apply BitVec.eq_of_toNat_eq
        rw [BitVec.toNat_ofNat, BitVec.toNat_ofNat, hk', Nat.add_mul_mod_self_right, hm,
          Nat.add_sub_cancel_left]
      rwa [hwrap] at heq
  · exact ScheduleFree.of_sameDivisor

/-- Two calls of `update_numeric`, with `5` and `7`: `12` is reported after one flush, and `6`
after two. -/
theorem numeric_depends_on_schedule : ¬ ScheduleFree .numeric [5, 7] := by
  intro h
  have heq := h.divisor_eq (by norm_num) [2] [1, 1] (by simp) (by simp) rfl rfl
  rw [sum_weight_numeric, sum_weight_numeric] at heq
  exact divisor_one_ne_two heq

end Tracemate.Metric
