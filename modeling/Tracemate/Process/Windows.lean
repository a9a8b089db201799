import Tracemate.Process.Tags

/-!
# Aggregation windows

An event is counted under the centre of its window, whose length is the flush frequency of its
service; `metric_to_json` prints this timestamp with a jitter of up to half a minute.

* `getMetricFlushFrequencyMs`: the frequency of a service;
* `windowStart`, `windowCenter`: the window of a time;
* `Emits`: the timestamps under which a metric that was aggregated is printed;
* `staysInWindow_iff`: when all of them are in the window.
-/

namespace Tracemate.Process

open CStr COutcome COutcome.Outcome Decimal Tracemate.Metric

/-! ### Flush frequencies -/

/-- The table `flushes_hash`, which the hook `metric_flush_frequency_fetch` fills. -/
abbrev FlushTable := AList fun _ : Bytes => Bytes

/-- `default_metric_flush_freq_ms`. -/
def defaultMetricFlushFreqMs : ℕ := 60 * 1000

/-- `get_metric_flush_frequency_ms`. -/
def getMetricFlushFrequencyMs (flushes : FlushTable) (serviceName : Option Bytes) : ℕ :=
  match serviceName with
  | none => defaultMetricFlushFreqMs
  | some serviceName =>
    match flushes.lookup serviceName with
    | some data => strtoull data
    | none => match flushes.lookup (cstr "default") with
      | some data => strtoull data
      | none => defaultMetricFlushFreqMs

/-- Frequencies have 64 bits. -/
theorem getMetricFlushFrequencyMs_lt (flushes : FlushTable) (serviceName : Option Bytes) :
    getMetricFlushFrequencyMs flushes serviceName < 2 ^ 64 := by
  have hdefault : defaultMetricFlushFreqMs < 2 ^ 64 := by decide
  unfold getMetricFlushFrequencyMs
  split
  · exact hdefault
  · split
    · exact strtoull_lt _
    · split
      · exact strtoull_lt _
      · exact hdefault

/-! ### Windows -/

/-- The start of the aggregation window of a time. -/
def windowStart (flushFreqMs ms : ℕ) : ℕ := ms - ms % flushFreqMs

/-- The centre of the aggregation window of a time. -/
def windowCenter (flushFreqMs ms : ℕ) : ℕ :=
  (windowStart flushFreqMs ms + flushFreqMs / 2) % 2 ^ 64

/-- The aggregation window of a time. -/
def window (flushFreqMs ms : ℕ) : Set ℕ :=
  Set.Ico (windowStart flushFreqMs ms) (windowStart flushFreqMs ms + flushFreqMs)

/-- `floor_timestamp`, which divides by the frequency. -/
def floorTimestamp (ms flushFreqMs : ℕ) : Outcome ℕ :=
  if flushFreqMs = 0 then .error .crash else .ok (windowStart flushFreqMs ms)

variable {flushFreqMs ms ts : ℕ}

/-- `center_timestamp` adds half of the frequency to `floor_timestamp`. -/
theorem centerTimestamp_eq (ms flushFreqMs : ℕ) :
    centerTimestamp ms flushFreqMs = floorTimestamp ms flushFreqMs >>= fun floor =>
      .ok ((floor + flushFreqMs / 2) % 2 ^ 64) := by
  unfold centerTimestamp floorTimestamp
  split_ifs <;> rfl

theorem centerTimestamp_eq_ok :
    centerTimestamp ms flushFreqMs = .ok ts ↔
      flushFreqMs ≠ 0 ∧ windowCenter flushFreqMs ms = ts := by
  rw [centerTimestamp_eq, bind_eq_ok]
  unfold floorTimestamp windowCenter
  split_ifs with h
  · simp [h]
  · simp [h]

/-- A timestamp a half window or less and a jitter behind the start stays in the window exactly if
the sum is neither behind the end nor wraps around. -/
theorem wrapped_mem_window_iff {d : ℕ} (hd : d < 2 ^ 64) :
    (windowStart flushFreqMs ms + d) % 2 ^ 64 ∈ window flushFreqMs ms ↔
      d < flushFreqMs ∧ windowStart flushFreqMs ms + d < 2 ^ 64 := by
  unfold window
  rw [Set.mem_Ico]
  generalize windowStart flushFreqMs ms = start
  constructor
  · rintro ⟨hstart, hend⟩
    have hlt : (start + d) % 2 ^ 64 < 2 ^ 64 := Nat.mod_lt _ (by omega)
    have hsum : start + d < 2 ^ 64 := by omega
    rw [Nat.mod_eq_of_lt hsum] at hend
    exact ⟨by omega, hsum⟩
  · rintro ⟨hd, hsum⟩
    rw [Nat.mod_eq_of_lt hsum]
    omega

/-! ### What is printed -/

theorem addJitter_of_lt (h : ts < 2 ^ 64) (jitter : ℕ) :
    addJitter ts jitter = (ts + jitter) % 2 ^ 64 := by
  unfold addJitter
  split_ifs with h0
  · rw [h0, Nat.add_zero, Nat.mod_eq_of_lt h]
  · rfl

/-- An event counted under `ts` can be printed under `emitted`: the entry of the aggregate is
printed into a message, and the entry that another instance makes of this message is printed, with
a value of `rand()`, into a document. -/
def Emits (ts emitted : ℕ) : Prop :=
  ∃ (aggregate key : MetricKey) (v v' : MetricValue) (rand : ℕ),
    aggregate.timestamp = ts ∧ key.timestamp = (metricToJson aggregate v false true 0).1.ts ∧
      emitted = (metricToJson key v' true false (rand % 30000)).1.ts

theorem emits_iff {emitted : ℕ} (hts : ts < 2 ^ 64) :
    Emits ts emitted ↔ ∃ jitter < 30000, emitted = (ts + jitter) % 2 ^ 64 := by
  constructor
  · rintro ⟨aggregate, key, v, v', rand, rfl, hkey, rfl⟩
    have hsame : key.timestamp = aggregate.timestamp := hkey
    refine ⟨rand % 30000, Nat.mod_lt _ (by omega), ?_⟩
    rw [← hsame] at hts ⊢
    exact addJitter_of_lt hts _
  · rintro ⟨jitter, hjitter, rfl⟩
    have v : MetricValue := makeNumericValue 0 0 0
    refine ⟨makeMetricKey [] ts, makeMetricKey [] ts, v, v, jitter, rfl, rfl, ?_⟩
    rw [Nat.mod_eq_of_lt hjitter]
    exact (addJitter_of_lt hts jitter).symm

/-- The timestamp of an event is defined, is in the window of the event, and so is all that is
printed of it. -/
def StaysInWindow (ms flushFreqMs : ℕ) : Prop :=
  ∃ ts, centerTimestamp ms flushFreqMs = .ok ts ∧ ts ∈ window flushFreqMs ms ∧
    ∀ emitted, Emits ts emitted → emitted ∈ window flushFreqMs ms

/-- **Timestamps stay in their window.**  This is so exactly if half of the frequency leaves room
for the jitter, and the largest timestamp fits 64 bits. -/
theorem staysInWindow_iff (flushes : FlushTable) (serviceName : Option Bytes) (ms : ℕ) :
    StaysInWindow ms (getMetricFlushFrequencyMs flushes serviceName) ↔
      59999 ≤ getMetricFlushFrequencyMs flushes serviceName ∧
        windowStart (getMetricFlushFrequencyMs flushes serviceName) ms +
          getMetricFlushFrequencyMs flushes serviceName / 2 + 29999 < 2 ^ 64 := by
  have hfreq := getMetricFlushFrequencyMs_lt flushes serviceName
  generalize getMetricFlushFrequencyMs flushes serviceName = freq at hfreq
  have hjitter : ∀ jitter < 30000, (windowCenter freq ms + jitter) % 2 ^ 64 ∈ window freq ms ↔
      freq / 2 + jitter < freq ∧ windowStart freq ms + (freq / 2 + jitter) < 2 ^ 64 := by
    intro jitter hj
    rw [windowCenter, Nat.mod_add_mod, Nat.add_assoc]
    exact wrapped_mem_window_iff (by omega)
  have hlt : windowCenter freq ms < 2 ^ 64 := Nat.mod_lt _ (by omega)
  constructor
  · rintro ⟨ts, hcenter, -, hemitted⟩
    obtain ⟨-, rfl⟩ := centerTimestamp_eq_ok.1 hcenter
    -- the largest jitter
    have hlast := hemitted _ ((emits_iff hlt).2 ⟨29999, by omega, rfl⟩)
    obtain ⟨hroom, hfits⟩ := (hjitter 29999 (by omega)).1 hlast
    rw [← Nat.add_assoc] at hfits
    exact ⟨by omega, hfits⟩
  · rintro ⟨hroom, hfits⟩
    have hcenter : windowCenter freq ms ∈ window freq ms :=
      (wrapped_mem_window_iff (by omega)).2 ⟨by omega, by omega⟩
    refine ⟨_, centerTimestamp_eq_ok.2 ⟨by omega, rfl⟩, hcenter, ?_⟩
    intro emitted hemits
    obtain ⟨jitter, hj, rfl⟩ := (emits_iff hlt).1 hemits
    exact (hjitter jitter hj).2 ⟨by omega, by omega⟩

/-- The frequency of the documentation of the hook is too small for the jitter. -/
theorem thirty_seconds_leave_window :
    ¬ ∀ (flushes : FlushTable) (serviceName : Option Bytes) (ms : ℕ), ms < 2 ^ 64 →
      StaysInWindow ms (getMetricFlushFrequencyMs flushes serviceName) := by
  intro h
  obtain ⟨ts, hcenter, -, hemitted⟩ :=
    h (AList.insert (cstr "default") (cstr "30000") ∅) (some (cstr "web-app")) 0 (by omega)
  have hfreq : getMetricFlushFrequencyMs (AList.insert (cstr "default") (cstr "30000") ∅)
      (some (cstr "web-app")) = 30000 := by
    decide
  rw [hfreq] at hcenter hemitted
  obtain rfl : 15000 = ts := Except.ok.inj hcenter
  have hlast := hemitted _ ((emits_iff (by omega)).2 ⟨29999, by omega, rfl⟩)
  simp [window, windowStart] at hlast

end Tracemate.Process
