import Mathlib.Data.Rat.Sqrt
import Tracemate.Lib.Runs
import Tracemate.Process.Types

/-!
# The rollups of a latency histogram

Each message with a histogram merges it into the entry of its key and stores the statistics of the
result under six other names; a statistic that is not normal is not stored.

* `lookup_storeRollups`: the entries after the calls of `store_numeric_rollup`;
* `Follows`: each rollup that is there is the statistic of the histogram;
* `KeepsUp`: no statistic that is not normal has a rollup already;
* `rollups_follow_iff`: in a run, the rollups follow the histogram exactly if all messages keep up.
-/

namespace Tracemate.Process

open CStr COutcome Outcome Runs Tracemate.Metric

variable {stats : HistStatistics} {owner : BitVec 32} {now timestamp : ℕ} {t t' : MetricTable}
  {key word word' name : Bytes}

/-! ### The names of rollups -/

/-- The text before `- latency`, if it is there, leaves room for what tells the rollups apart. -/
def RollupRoom (key : Bytes) : Prop :=
  ∀ pos, strstr (cstr "- latency") key = some pos → key.length - pos.length < 4091

/-- What tells the names of the rollups apart, and from the name of the histogram. -/
theorem take_rollupWords :
    (∀ word ∈ rollupWords, 5 ≤ word.length ∧ word.take 5 ≠ (cstr "- latency").take 5) ∧
      ∀ word ∈ rollupWords, ∀ word' ∈ rollupWords, word.take 5 = word'.take 5 → word = word' := by
  decide

/-- The start of the name of a rollup. -/
theorem take_rollupKey (hroom : RollupRoom key) (hword : 5 ≤ word.length)
    (h : buildRollupKey key word = .ok (some name)) :
    ∃ start, key.take (start.length + 5) = start ++ (cstr "- latency").take 5 ∧
      name.take (start.length + 5) = start ++ word.take 5 ∧
      ∃ pos, strstr (cstr "- latency") key = some pos ∧
        start = key.take (key.length - pos.length) := by
  unfold buildRollupKey at h
  cases hpos : strstr (cstr "- latency") key with
  | none =>
    rw [hpos] at h
    cases h
  | some pos =>
    rw [hpos] at h
    obtain ⟨start, hstart, h⟩ := bind_eq_ok.1 h
    obtain ⟨-, rfl⟩ := fitting_eq_ok.1 hstart
    obtain rfl := Option.some.inj (Except.ok.inj h)
    obtain ⟨⟨rest, hrest⟩, ⟨start, hkey⟩⟩ := strstr_spec hpos
    have hlen : key.length - pos.length = start.length := by
      rw [← hkey, List.length_append, Nat.add_sub_cancel]
    have htake : key.take (key.length - pos.length) = start := by
      rw [hlen, ← hkey, List.take_left]
    have hshort : start.length < 4091 := hlen ▸ hroom pos hpos
    rw [htake]
    refine ⟨start, ?_, ?_, pos, rfl, htake.symm⟩
    · rw [← hkey, ← hrest, List.take_length_add_append]
      congr 1
    · rw [List.take_take, min_eq_left (by omega), List.append_assoc,
        List.take_length_add_append, List.take_append_of_le_length hword]

/-- The rollups have different names. -/
theorem rollupKey_inj (hroom : RollupRoom key) (hword : word ∈ rollupWords)
    (hword' : word' ∈ rollupWords) (h : buildRollupKey key word = .ok (some name))
    (h' : buildRollupKey key word' = .ok (some name)) : word = word' := by
  obtain ⟨start, -, hname, pos, hpos, hstart⟩ :=
    take_rollupKey hroom (take_rollupWords.1 word hword).1 h
  obtain ⟨start', -, hname', pos', hpos', hstart'⟩ :=
    take_rollupKey hroom (take_rollupWords.1 word' hword').1 h'
  obtain rfl := Option.some.inj (hpos.symm.trans hpos')
  rw [← hstart] at hstart'
  subst hstart'
  exact take_rollupWords.2 word hword word' hword'
    (List.append_cancel_left (hname.symm.trans hname'))

/-- No rollup has the name of the histogram. -/
theorem rollupKey_ne (hroom : RollupRoom key) (hword : word ∈ rollupWords)
    (h : buildRollupKey key word = .ok (some name)) : name ≠ key := by
  rintro rfl
  obtain ⟨start, hkey, hname, -⟩ := take_rollupKey hroom (take_rollupWords.1 word hword).1 h
  exact (take_rollupWords.1 word hword).2 (List.append_cancel_left (hname.symm.trans hkey))

/-! ### Storing rollups -/

/-- The key of a rollup. -/
def RollupKey (key : Bytes) (timestamp : ℕ) (word : Bytes) (k : MetricKey) : Prop :=
  ∃ name, buildRollupKey key word = .ok (some name) ∧ k = makeMetricKey name timestamp

theorem RollupKey.word_eq {k : MetricKey} (hroom : RollupRoom key) (hword : word ∈ rollupWords)
    (hword' : word' ∈ rollupWords) (h : RollupKey key timestamp word k)
    (h' : RollupKey key timestamp word' k) : word = word' := by
  obtain ⟨name, hname, rfl⟩ := h
  obtain ⟨name', hname', heq⟩ := h'
  obtain rfl : name = name' := congrArg MetricKey.metricName heq
  exact rollupKey_inj hroom hword hword' hname hname'

theorem RollupKey.ne {k : MetricKey} (hroom : RollupRoom key) (hword : word ∈ rollupWords)
    (h : RollupKey key timestamp word k) : k ≠ makeMetricKey key timestamp := by
  obtain ⟨name, hname, rfl⟩ := h
  exact fun heq => rollupKey_ne hroom hword hname (congrArg MetricKey.metricName heq)

/-- A rollup that is stored is a number. -/
theorem metric_of_rollup {q : ℚ} {e : Option MetricValue} {v : MetricValue}
    (h : (Update.rollup q).apply owner now e = some v) : v.metric = .number q := by
  cases e with
  | none =>
    obtain rfl : makeNumericValue owner now q = v := Option.some.inj h
    rfl
  | some v₀ =>
    obtain ⟨w, hw, rfl⟩ := Option.map_eq_some_iff.1 h
    simp only [Update.change] at hw
    split at hw
    · rw [← Option.some.inj hw]
    · cases hw

/-- `store_numeric_rollup` stores a normal statistic under the key of the rollup, and nothing
else. -/
theorem storeNumericRollup_cases {value : Statistic}
    (h : storeNumericRollup owner now key word value timestamp t = .ok t') :
    (t' = t ∧ ∀ k, RollupKey key timestamp word k → ¬ value.Normal) ∨
      ∃ k v, RollupKey key timestamp word k ∧ value.Normal ∧ v.metric = .number value.value ∧
        t' = t.insert k v := by
  unfold storeNumericRollup at h
  split_ifs at h with hnormal
  · obtain ⟨rollupName, hname, h⟩ := bind_eq_ok.1 h
    cases rollupName with
    | none =>
      obtain rfl := Except.ok.inj h
      refine .inl ⟨rfl, ?_⟩
      rintro k ⟨name, hname', -⟩
      rw [hname] at hname'
      cases hname'
    | some name =>
      right
      dsimp only at h
      cases hupdate : updateEntry owner now t (makeMetricKey name timestamp)
          (.rollup value.value) with
      | none =>
        rw [hupdate] at h
        cases h
      | some t₁ =>
        rw [hupdate] at h
        obtain rfl := Except.ok.inj h
        obtain ⟨v, hv, rfl⟩ := Option.map_eq_some_iff.1 hupdate
        exact ⟨_, v, ⟨name, hname, rfl⟩, hnormal, metric_of_rollup hv, rfl⟩
  · obtain rfl := Except.ok.inj h
    exact .inl ⟨rfl, fun _ _ => hnormal⟩

/-- The key of a rollup determines its name. -/
theorem RollupKey.unique {k k' : MetricKey} (h : RollupKey key timestamp word k)
    (h' : RollupKey key timestamp word k') : k = k' := by
  obtain ⟨name, hname, rfl⟩ := h
  obtain ⟨name', hname', rfl⟩ := h'
  rw [hname] at hname'
  obtain rfl := Option.some.inj (Except.ok.inj hname')
  rfl

/-- Entries under other keys stay. -/
theorem lookup_storeRollups_of_other {l : List (Bytes × Statistic)}
    (h : storeRollups owner now key timestamp l t = .ok t') {k : MetricKey}
    (hk : ∀ e ∈ l, ¬ RollupKey key timestamp e.1 k) : t'.lookup k = t.lookup k := by
  induction l generalizing t with
  | nil =>
    obtain rfl := Except.ok.inj h
    rfl
  | cons e l ih =>
    rw [List.forall_mem_cons] at hk
    obtain ⟨t₁, ht₁, hrest⟩ := bind_eq_ok.1 h
    rw [ih hrest hk.2]
    rcases storeNumericRollup_cases ht₁ with ⟨rfl, -⟩ | ⟨k', v, hk', -, -, rfl⟩
    · rfl
    · exact AList.lookup_insert_ne fun heq => hk.1 (heq ▸ hk')

/-- The entries of rollups: the normal ones are stored, the others stay. -/
theorem lookup_storeRollups (hroom : RollupRoom key) {l : List (Bytes × Statistic)}
    (hwords : ∀ e ∈ l, e.1 ∈ rollupWords) (hdistinct : (l.map Prod.fst).Nodup)
    (h : storeRollups owner now key timestamp l t = .ok t') :
    ∀ e ∈ l, ∀ k, RollupKey key timestamp e.1 k →
      (e.2.Normal → ∃ v, t'.lookup k = some v ∧ v.metric = .number e.2.value) ∧
        (¬ e.2.Normal → t'.lookup k = t.lookup k) := by
  induction l generalizing t with
  | nil => simp
  | cons e l ih =>
    rw [List.map_cons, List.nodup_cons] at hdistinct
    rw [List.forall_mem_cons] at hwords
    obtain ⟨t₁, ht₁, hrest⟩ := bind_eq_ok.1 h
    -- the calls that follow are for other keys
    have hother : ∀ k, RollupKey key timestamp e.1 k →
        ∀ e' ∈ l, ¬ RollupKey key timestamp e'.1 k :=
      fun k hk e' he' hk' => hdistinct.1 (RollupKey.word_eq hroom hwords.1 (hwords.2 e' he') hk hk' ▸
        List.mem_map_of_mem he')
    rw [List.forall_mem_cons]
    constructor
    · intro k hk
      rw [lookup_storeRollups_of_other hrest (hother k hk)]
      rcases storeNumericRollup_cases ht₁ with ⟨rfl, hnormal⟩ | ⟨k', v, hk', hnormal, hv, rfl⟩
      · exact ⟨fun hn => absurd hn (hnormal k hk), fun _ => rfl⟩
      · obtain rfl := hk'.unique hk
        exact ⟨fun _ => ⟨v, AList.lookup_insert t, hv⟩, fun hn => absurd hnormal hn⟩
    · intro e' he' k hk
      obtain ⟨hstored, hkept⟩ := ih hwords.2 hdistinct.2 hrest e' he' k hk
      refine ⟨hstored, fun hn => (hkept hn).trans ?_⟩
      rcases storeNumericRollup_cases ht₁ with ⟨rfl, -⟩ | ⟨k', v, hk', -, -, rfl⟩
      · rfl
      · exact AList.lookup_insert_ne fun heq => hother k' hk' e' he' (heq ▸ hk)

/-! ### One message -/

/-- Each rollup that is in the table is the statistic of the histogram of its key. -/
def Follows (stats : HistStatistics) (key : Bytes) (timestamp : ℕ) (t : MetricTable) : Prop :=
  ∀ e ∈ rollups stats (histogramOf (t.lookup (makeMetricKey key timestamp))),
    ∀ k, RollupKey key timestamp e.1 k → ∀ v, t.lookup k = some v →
      ∃ q, e.2 = .finite q ∧ v.metric = .number q

/-- The rollups that are in the table are normal numbers. -/
def NormalRollups (key : Bytes) (timestamp : ℕ) (t : MetricTable) : Prop :=
  ∀ word ∈ rollupWords, ∀ k, RollupKey key timestamp word k → ∀ v, t.lookup k = some v →
    ∃ q, (Statistic.finite q).Normal ∧ v.metric = .number q

/-- With the histogram `h` merged, each statistic is normal, or its rollup is not in the table. -/
def KeepsUp (stats : HistStatistics) (key : Bytes) (timestamp : ℕ) (t : MetricTable)
    (h : Multiset ℕ) : Prop :=
  ∀ e ∈ rollups stats (histogramOf (t.lookup (makeMetricKey key timestamp)) + h),
    ∀ k, RollupKey key timestamp e.1 k → e.2.Normal ∨ t.lookup k = none

theorem Statistic.Normal.eq_finite {s : Statistic} (h : s.Normal) : s = .finite s.value := by
  cases s with
  | finite q => rfl
  | infinite => exact h.elim
  | nan => exact h.elim

/-- The entry of the histogram after the merge. -/
theorem metric_of_merge {e : Option MetricValue} {h : Multiset ℕ} {v : MetricValue}
    (hv : (Update.mergeHistogram h).apply owner now e = some v) :
    v.metric = .histogram (histogramOf e + h) := by
  cases e with
  | none =>
    obtain rfl : makeValue owner now (.histogram h) = v := Option.some.inj hv
    exact congrArg Payload.histogram (zero_add h).symm
  | some v₀ =>
    obtain ⟨w, hw, rfl⟩ := Option.map_eq_some_iff.1 hv
    obtain ⟨metric, _, _, _, _, _⟩ := v₀
    cases metric with
    | histogram h₀ =>
      obtain rfl := Option.some.inj hw
      rfl
    | _ => cases hw

theorem histogramOf_eq {v : MetricValue} {h : Multiset ℕ} (hv : v.metric = .histogram h) :
    histogramOf (some v) = h := by
  unfold histogramOf
  rw [Option.map_some, hv]

/-- The table after a message: the histogram is merged, the normal statistics of the result are
stored, and the other rollups stay. -/
theorem applyAggregate_histogram (hroom : RollupRoom key) {h : Multiset ℕ}
    (hs : applyAggregate stats owner now key timestamp (.histogram h) t = .ok t') :
    (∃ v, t'.lookup (makeMetricKey key timestamp) = some v ∧
        v.metric = .histogram (histogramOf (t.lookup (makeMetricKey key timestamp)) + h)) ∧
      ∀ e ∈ rollups stats (histogramOf (t.lookup (makeMetricKey key timestamp)) + h),
        ∀ k, RollupKey key timestamp e.1 k →
          (e.2.Normal → ∃ v, t'.lookup k = some v ∧ v.metric = .number e.2.value) ∧
            (¬ e.2.Normal → t'.lookup k = t.lookup k) := by
  obtain ⟨t₁, ht₁, hrest⟩ := bind_eq_ok.1 hs
  cases hupdate : updateEntry owner now t (makeMetricKey key timestamp) (.mergeHistogram h) with
  | none =>
    rw [hupdate] at ht₁
    cases ht₁
  | some t₂ =>
    rw [hupdate] at ht₁
    obtain rfl := Except.ok.inj ht₁
    obtain ⟨v, hv, rfl⟩ := Option.map_eq_some_iff.1 hupdate
    have hmetric := metric_of_merge hv
    rw [AList.lookup_insert, histogramOf_eq hmetric] at hrest
    have hnodup : rollupWords.Nodup := by decide
    constructor
    · rw [lookup_storeRollups_of_other hrest fun e he hk =>
        hk.ne hroom (mem_rollupWords_of_mem he) rfl]
      exact ⟨v, AList.lookup_insert t, hmetric⟩
    · intro e he k hk
      have hstored := lookup_storeRollups hroom (fun _ => mem_rollupWords_of_mem) hnodup hrest e he
        k hk
      rwa [AList.lookup_insert_ne (hk.ne hroom (mem_rollupWords_of_mem he))] at hstored

/-- A rollup in the table after a message was stored by it, or was there before. -/
theorem lookup_rollup_cases (hroom : RollupRoom key) {h : Multiset ℕ} {k : MetricKey}
    {v : MetricValue} (hs : applyAggregate stats owner now key timestamp (.histogram h) t = .ok t')
    (hword : word ∈ rollupWords) (hk : RollupKey key timestamp word k)
    (hv : t'.lookup k = some v) :
    (∃ s : Statistic, s.Normal ∧ v.metric = .number s.value) ∨ t.lookup k = some v := by
  obtain ⟨-, hlookup⟩ := applyAggregate_histogram hroom hs
  obtain ⟨e, he, rfl⟩ := exists_mem_rollups stats
    (histogramOf (t.lookup (makeMetricKey key timestamp)) + h) hword
  obtain ⟨hstored, hkept⟩ := hlookup e he k hk
  by_cases hnormal : e.2.Normal
  · obtain ⟨v', hv', hmetric⟩ := hstored hnormal
    obtain rfl := Option.some.inj (hv.symm.trans hv')
    exact .inl ⟨e.2, hnormal, hmetric⟩
  · exact .inr ((hkept hnormal).symm.trans hv)

/-- After a message the rollups are normal again. -/
theorem NormalRollups.applyAggregate (hroom : RollupRoom key) (hn : NormalRollups key timestamp t)
    {h : Multiset ℕ}
    (hs : applyAggregate stats owner now key timestamp (.histogram h) t = .ok t') :
    NormalRollups key timestamp t' := by
  intro word hword k hk v hv
  rcases lookup_rollup_cases hroom hs hword hk hv with ⟨s, hnormal, hmetric⟩ | hv'
  · exact ⟨s.value, hnormal.eq_finite ▸ hnormal, hmetric⟩
  · exact hn word hword k hk v hv'

/-- After a message the rollups follow the histogram exactly if the message keeps up. -/
theorem follows_applyAggregate_iff (hroom : RollupRoom key) (hn : NormalRollups key timestamp t)
    {h : Multiset ℕ}
    (hs : applyAggregate stats owner now key timestamp (.histogram h) t = .ok t') :
    Follows stats key timestamp t' ↔ KeepsUp stats key timestamp t h := by
  obtain ⟨⟨v, hv, hmetric⟩, hlookup⟩ := applyAggregate_histogram hroom hs
  unfold Follows KeepsUp
  rw [hv, histogramOf_eq hmetric]
  constructor
  · intro hf e he k hk
    by_contra hnot
    obtain ⟨hnormal, hpresent⟩ := not_or.1 hnot
    obtain ⟨v, hv⟩ := Option.ne_none_iff_exists'.1 hpresent
    -- the rollup that is left was normal, so it is not the statistic
    obtain ⟨q, hq, hmetric⟩ := hn e.1 (mem_rollupWords_of_mem he) k hk v hv
    have hv' : t'.lookup k = some v := ((hlookup e he k hk).2 hnormal).trans hv
    obtain ⟨q', hstat, hmetric'⟩ := hf e he k hk v hv'
    obtain rfl := Payload.number.inj (hmetric.symm.trans hmetric')
    exact hnormal (hstat ▸ hq)
  · intro hkeeps e he k hk v hv
    obtain ⟨hstored, hkept⟩ := hlookup e he k hk
    by_cases hnormal : e.2.Normal
    · obtain ⟨v', hv', hmetric⟩ := hstored hnormal
      obtain rfl := Option.some.inj (hv.symm.trans hv')
      exact ⟨e.2.value, hnormal.eq_finite, hmetric⟩
    · have hnone := (hkeeps e he k hk).resolve_left hnormal
      rw [hkept hnormal, hnone] at hv
      cases hv

/-! ### No message is misread -/

/-- The entry of the key, if it is there, is a histogram, and its rollups are numbers. -/
structure Readable (key : Bytes) (timestamp : ℕ) (t : MetricTable) : Prop where
  histogram : ∀ v, t.lookup (makeMetricKey key timestamp) = some v → ∃ h, v.metric = .histogram h
  rollup : ∀ word ∈ rollupWords, ∀ k, RollupKey key timestamp word k → ∀ v, t.lookup k = some v →
    ∃ q, v.metric = .number q

theorem buildRollupKey_isOk (hroom : RollupRoom key) (word : Bytes) :
    ∃ o, buildRollupKey key word = .ok o := by
  unfold buildRollupKey
  cases hpos : strstr (cstr "- latency") key with
  | none => exact ⟨none, rfl⟩
  | some pos =>
    have hlen : (key.take (key.length - pos.length)).length < 4096 := by
      have := hroom pos hpos
      rw [List.length_take]
      omega
    exact ⟨_, bind_eq_ok.2 ⟨_, if_pos hlen, rfl⟩⟩

/-- A call of `store_numeric_rollup` for an entry that is a number, if it is there. -/
theorem storeNumericRollup_isOk (hroom : RollupRoom key) (owner : BitVec 32) (now : ℕ)
    (value : Statistic)
    (hnumber : ∀ k, RollupKey key timestamp word k → ∀ v, t.lookup k = some v →
      ∃ q, v.metric = .number q) :
    ∃ t', storeNumericRollup owner now key word value timestamp t = .ok t' := by
  unfold storeNumericRollup
  split_ifs with hnormal
  · obtain ⟨rollupName, hname⟩ := buildRollupKey_isOk hroom word
    rw [hname]
    cases rollupName with
    | none => exact ⟨t, rfl⟩
    | some name =>
      have happly : ∃ v, (Update.rollup value.value).apply owner now
          (t.lookup (makeMetricKey name timestamp)) = some v := by
        cases hlookup : t.lookup (makeMetricKey name timestamp) with
        | none => exact ⟨_, rfl⟩
        | some v =>
          obtain ⟨q, hq⟩ := hnumber _ ⟨name, hname, rfl⟩ v hlookup
          simp [Update.apply, Update.change, hq]
      obtain ⟨v, hv⟩ := happly
      have hupdate : updateEntry owner now t (makeMetricKey name timestamp)
          (.rollup value.value) = some _ := Option.map_eq_some_iff.2 ⟨v, hv, rfl⟩
      exact ⟨_, bind_eq_ok.2 ⟨_, rfl, congrArg written hupdate⟩⟩
  · exact ⟨t, rfl⟩

theorem storeRollups_isOk (hroom : RollupRoom key) (owner : BitVec 32) (now : ℕ)
    {l : List (Bytes × Statistic)}
    (hnumber : ∀ e ∈ l, ∀ k, RollupKey key timestamp e.1 k → ∀ v, t.lookup k = some v →
      ∃ q, v.metric = .number q) :
    ∃ t', storeRollups owner now key timestamp l t = .ok t' := by
  induction l generalizing t with
  | nil => exact ⟨t, rfl⟩
  | cons e l ih =>
    rw [List.forall_mem_cons] at hnumber
    obtain ⟨t₁, ht₁⟩ := storeNumericRollup_isOk hroom owner now e.2 hnumber.1
    have hrest : ∀ e ∈ l, ∀ k, RollupKey key timestamp e.1 k → ∀ v, t₁.lookup k = some v →
        ∃ q, v.metric = .number q := by
      intro e' he' k hk v hv
      rcases storeNumericRollup_cases ht₁ with ⟨rfl, -⟩ | ⟨k', v', -, -, hv', rfl⟩
      · exact hnumber.2 e' he' k hk v hv
      · by_cases hkk : k = k'
        · rw [hkk, AList.lookup_insert] at hv
          obtain rfl := Option.some.inj hv
          exact ⟨_, hv'⟩
        · rw [AList.lookup_insert_ne hkk] at hv
          exact hnumber.2 e' he' k hk v hv
    obtain ⟨t', ht'⟩ := ih hrest
    exact ⟨t', bind_eq_ok.2 ⟨t₁, ht₁, ht'⟩⟩

/-- A readable table takes every message, and is readable afterwards. -/
theorem Readable.applyAggregate (hroom : RollupRoom key) (hr : Readable key timestamp t)
    (stats : HistStatistics) (owner : BitVec 32) (now : ℕ) (h : Multiset ℕ) :
    ∃ t', applyAggregate stats owner now key timestamp (.histogram h) t = .ok t' ∧
      Readable key timestamp t' := by
  have hmerge : ∃ v, (Update.mergeHistogram h).apply owner now
      (t.lookup (makeMetricKey key timestamp)) = some v := by
    cases hlookup : t.lookup (makeMetricKey key timestamp) with
    | none => exact ⟨_, rfl⟩
    | some v =>
      obtain ⟨h₀, hv⟩ := hr.histogram v hlookup
      simp [Update.apply, Update.change, hv]
  obtain ⟨v, hv⟩ := hmerge
  have hupdate : updateEntry owner now t (makeMetricKey key timestamp) (.mergeHistogram h) =
      some _ := Option.map_eq_some_iff.2 ⟨v, hv, rfl⟩
  have hnumber : ∀ e ∈ rollups stats (histogramOf ((t.insert (makeMetricKey key timestamp) v).lookup
      (makeMetricKey key timestamp))), ∀ k, RollupKey key timestamp e.1 k → ∀ v',
      (t.insert (makeMetricKey key timestamp) v).lookup k = some v' →
        ∃ q, v'.metric = .number q := by
    intro e he k hk v' hv'
    have hword := mem_rollupWords_of_mem he
    rw [AList.lookup_insert_ne (hk.ne hroom hword)] at hv'
    exact hr.rollup e.1 hword k hk v' hv'
  obtain ⟨t', ht'⟩ := storeRollups_isOk hroom owner now hnumber
  have hok : Process.applyAggregate stats owner now key timestamp (.histogram h) t = .ok t' :=
    bind_eq_ok.2 ⟨_, congrArg written hupdate, ht'⟩
  obtain ⟨⟨w, hw, hmetric⟩, -⟩ := applyAggregate_histogram hroom hok
  refine ⟨t', hok, ⟨?_, ?_⟩⟩
  · intro w' hw'
    obtain rfl := Option.some.inj (hw.symm.trans hw')
    exact ⟨_, hmetric⟩
  · intro word hword k hk w' hw'
    rcases lookup_rollup_cases hroom hok hword hk hw' with ⟨s, -, hq⟩ | hv'
    · exact ⟨s.value, hq⟩
    · exact hr.rollup word hword k hk w' hv'

/-! ### Runs of messages -/

/-- What becomes of the table of each team when a message has one metric. -/
theorem processAggregateMessage_single {teams teams' : Teams} {value : JsonValue}
    (h : processAggregateMessage stats owner now .unwritten teams [(key, timestamp, value)] =
      .ok teams') (team : Bytes) :
    ((∃ s, parseKey key .unwritten = .ok (true, ⟨s, some team⟩)) ∧
        applyAggregate stats owner now key timestamp value (teams.hash team) =
          .ok (teams'.hash team)) ∨
      ((¬ ∃ s, parseKey key .unwritten = .ok (true, ⟨s, some team⟩)) ∧
        teams'.hash team = teams.hash team) := by
  rw [processAggregateMessage] at h
  obtain ⟨⟨accepted, ⟨s, b⟩⟩, hparse, h⟩ := bind_eq_ok.1 h
  rw [hparse]
  cases accepted with
  | false =>
    obtain rfl : teams = teams' := Except.ok.inj h
    exact .inr ⟨by simp, rfl⟩
  | true =>
    obtain ⟨own, hown, h⟩ := bind_eq_ok.1 h
    obtain rfl : b = some own := by
      cases b with
      | none => cases hown
      | some b => rw [Except.ok.inj hown]
    obtain ⟨hash, hhash, h⟩ := bind_eq_ok.1 h
    obtain rfl := Except.ok.inj h
    by_cases hteam : team = own
    · subst hteam
      refine .inl ⟨⟨s, rfl⟩, ?_⟩
      rw [Teams.hash_insert_self]
      exact hhash
    · refine .inr ⟨?_, ?_⟩
      · rintro ⟨_, heq⟩
        simp only [Except.ok.injEq, Prod.mk.injEq, KeyBuffers.mk.injEq, Option.some.injEq] at heq
        exact hteam heq.2.2.symm
      · rw [Teams.hash_insert_of_ne hteam]
        exact Teams.hash_getTeamData

/-- A message of type `h` and the reading of the clock. -/
structure HistogramMessage where
  now : ℕ
  histogram : Multiset ℕ

/-- The processing of a message for one key and window. -/
def histogramStep (stats : HistStatistics) (owner : BitVec 32) (key : Bytes) (timestamp : ℕ)
    (teams : Teams) (m : HistogramMessage) (teams' : Teams) : Prop :=
  processAggregateMessage stats owner m.now .unwritten teams
    [(key, timestamp, .histogram m.histogram)] = .ok teams'

/-- The message keeps up in the table of the team that the key is read as. -/
def MessageKeepsUp (stats : HistStatistics) (key : Bytes) (timestamp : ℕ) (teams : Teams)
    (m : HistogramMessage) : Prop :=
  ∀ s team, parseKey key .unwritten = .ok (true, ⟨s, some team⟩) →
    KeepsUp stats key timestamp (teams.hash team) m.histogram

theorem normalRollups_step (hroom : RollupRoom key) {teams teams' : Teams} {m : HistogramMessage}
    (hn : ∀ team, NormalRollups key timestamp (teams.hash team))
    (hs : histogramStep stats owner key timestamp teams m teams') :
    ∀ team, NormalRollups key timestamp (teams'.hash team) := by
  intro team
  rcases processAggregateMessage_single hs team with ⟨-, happly⟩ | ⟨-, hsame⟩
  · exact (hn team).applyAggregate hroom happly
  · rw [hsame]
    exact hn team

theorem follows_step_iff (hroom : RollupRoom key) {teams teams' : Teams} {m : HistogramMessage}
    (hn : ∀ team, NormalRollups key timestamp (teams.hash team))
    (hf : ∀ team, Follows stats key timestamp (teams.hash team))
    (hs : histogramStep stats owner key timestamp teams m teams') :
    (∀ team, Follows stats key timestamp (teams'.hash team)) ↔
      MessageKeepsUp stats key timestamp teams m := by
  constructor
  · intro h s team hparse
    rcases processAggregateMessage_single hs team with ⟨-, happly⟩ | ⟨hother, -⟩
    · exact (follows_applyAggregate_iff hroom (hn team) happly).1 (h team)
    · exact absurd ⟨s, hparse⟩ hother
  · intro h team
    rcases processAggregateMessage_single hs team with ⟨⟨s, hparse⟩, happly⟩ | ⟨-, hsame⟩
    · exact (follows_applyAggregate_iff hroom (hn team) happly).2 (h s team hparse)
    · rw [hsame]
      exact hf team

/-- A message for a key that is read as a team with a readable table is processed. -/
theorem histogramStep_isOk (hroom : RollupRoom key) {team : Bytes} {s : Option Bytes}
    (hparse : parseKey key .unwritten = .ok (true, ⟨s, some team⟩)) {teams : Teams}
    (hr : Readable key timestamp (teams.hash team)) (stats : HistStatistics) (owner : BitVec 32)
    (m : HistogramMessage) :
    ∃ teams', histogramStep stats owner key timestamp teams m teams' ∧
      Readable key timestamp (teams'.hash team) := by
  obtain ⟨hash, hhash, hr'⟩ := hr.applyAggregate hroom stats owner m.now m.histogram
  refine ⟨(teams.getTeamData team).2.insert team { (teams.getTeamData team).1 with hash }, ?_, ?_⟩
  · unfold histogramStep
    rw [processAggregateMessage]
    exact bind_eq_ok.2 ⟨_, hparse, bind_eq_ok.2 ⟨team, rfl, bind_eq_ok.2 ⟨hash, hhash, rfl⟩⟩⟩
  · rw [Teams.hash_insert_self]
    exact hr'

/-! ### The latencies of a service -/

/-- The statistics of the samples themselves. -/
def sampleStatistics : HistStatistics where
  approxMean h := if h = 0 then .nan else .finite (h.sum / h.card)
  approxStddev h := if h = 0 then .nan else
    .finite (Rat.sqrt (((h.map fun x => x ^ 2).sum : ℕ) / h.card - (h.sum / h.card) ^ 2))
  approxQuantile h q := if h = 0 then .nan else
    .finite ((h.filter fun x => q * h.card ≤ (h.filter fun y => y ≤ x).card).fold min h.sup : ℕ)

/-- The latencies of a service. -/
def latencyKey : Bytes := cstr "transaction - latency - all|ST[service:web-app]"

theorem parseKey_latencyKey :
    parseKey latencyKey .unwritten = .ok (true, ⟨some (cstr "web-app"), some (cstr "web")⟩) := by
  decide

theorem rollupKey_min : RollupKey latencyKey 30000 (cstr "- min_latency")
    (makeMetricKey (cstr "transaction - min_latency - all|ST[service:web-app]") 30000) :=
  ⟨_, by decide, rfl⟩

theorem rollupRoom_latencyKey : RollupRoom latencyKey := by
  intro pos _
  have hlen : latencyKey.length < 4091 := by decide
  omega

theorem readable_empty (key : Bytes) (timestamp : ℕ) : Readable key timestamp ∅ where
  histogram v hv := by cases hv
  rollup word hword k hk v hv := by cases hv

/-! ### Whole runs -/

/-- **Rollups follow their histogram.**  In a run of messages for one key and window, from tables
without its rollups, the rollups follow the histogram after each message exactly if each message
keeps up. -/
theorem rollups_follow_iff (hroom : RollupRoom key) {teams teams' : Teams}
    (hfresh : ∀ team, ∀ word ∈ rollupWords, ∀ k, RollupKey key timestamp word k →
      (teams.hash team).lookup k = none)
    {tr : List (Event Teams HistogramMessage)}
    (hrun : Run (histogramStep stats owner key timestamp) teams tr teams') :
    (∀ e ∈ tr, ∀ team, Follows stats key timestamp (e.after.hash team)) ↔
      ∀ e ∈ tr, MessageKeepsUp stats key timestamp e.before e.label := by
  have hnormal : ∀ team, NormalRollups key timestamp (teams.hash team) := by
    intro team word hword k hk v hv
    rw [hfresh team word hword k hk] at hv
    cases hv
  have hfollows : ∀ team, Follows stats key timestamp (teams.hash team) := by
    intro team e he k hk v hv
    rw [hfresh team e.1 (mem_rollupWords_of_mem he) k hk] at hv
    cases hv
  have hall := (hrun.invariant (fun teams => ∀ team, NormalRollups key timestamp (teams.hash team))
    hnormal fun _ _ _ hn hs => normalRollups_step hroom hn hs).1
  rw [← hrun.forall_iff (fun teams => (∀ team, NormalRollups key timestamp (teams.hash team)) ∧
    ∀ team, Follows stats key timestamp (teams.hash team)) _ ⟨hnormal, hfollows⟩]
  · exact ⟨fun h e he => ⟨(hall e he).2, h e he⟩, fun h e he => (h e he).2⟩
  · rintro u m v ⟨hn, hf⟩ hs
    rw [← follows_step_iff hroom hn hf hs]
    exact ⟨fun h => h.2, fun h => ⟨normalRollups_step hroom hn hs, h⟩⟩

/-- The histogram that a first message leaves in the table of the team. -/
theorem histogramOf_first {teams : Teams} {m : HistogramMessage}
    (h : histogramStep stats owner latencyKey 30000 ∅ m teams) :
    histogramOf ((teams.hash (cstr "web")).lookup (makeMetricKey latencyKey 30000)) =
      m.histogram := by
  have happly := ((processAggregateMessage_single h (cstr "web")).resolve_right
    fun hn => hn.1 ⟨_, parseKey_latencyKey⟩).2
  obtain ⟨⟨v, hv, hmetric⟩, -⟩ := applyAggregate_histogram rollupRoom_latencyKey happly
  rw [hv, histogramOf_eq hmetric]
  exact zero_add m.histogram

/-- A latency of `5` and then one of `7`: the second message finds the rollups of the first, and
all of its own statistics are normal. -/
theorem rollups_follow_twice :
    ∃ teams₁ teams₂, histogramStep sampleStatistics 1 latencyKey 30000 ∅ ⟨20000, {5}⟩ teams₁ ∧
      histogramStep sampleStatistics 1 latencyKey 30000 teams₁ ⟨21000, {7}⟩ teams₂ ∧
      ∀ team, Follows sampleStatistics latencyKey 30000 (teams₁.hash team) ∧
        Follows sampleStatistics latencyKey 30000 (teams₂.hash team) := by
  have hr : Readable latencyKey 30000 (Teams.hash ∅ (cstr "web")) := readable_empty _ _
  obtain ⟨teams₁, h₁, hr₁⟩ := histogramStep_isOk rollupRoom_latencyKey parseKey_latencyKey hr
    sampleStatistics 1 ⟨20000, {5}⟩
  obtain ⟨teams₂, h₂, -⟩ := histogramStep_isOk rollupRoom_latencyKey parseKey_latencyKey hr₁
    sampleStatistics 1 ⟨21000, {7}⟩
  have hfirst : MessageKeepsUp sampleStatistics latencyKey 30000 ∅ ⟨20000, {5}⟩ :=
    fun _ _ _ _ _ _ _ => .inr rfl
  have hsecond : MessageKeepsUp sampleStatistics latencyKey 30000 teams₁ ⟨21000, {7}⟩ := by
    intro s team hparse e he k _
    have hnormal : ∀ e ∈ rollups sampleStatistics ({5} + {7}), e.2.Normal := by decide +kernel
    obtain rfl : team = cstr "web" := by
      rw [parseKey_latencyKey] at hparse
      simp only [Except.ok.injEq, Prod.mk.injEq, KeyBuffers.mk.injEq, Option.some.injEq] at hparse
      exact hparse.2.2.symm
    rw [histogramOf_first h₁] at he
    exact .inl (hnormal e he)
  have hfollow := (rollups_follow_iff rollupRoom_latencyKey (fun _ _ _ _ _ => rfl)
    ((Run.single h₁).snoc h₂)).2 fun e he => by
      rcases List.mem_append.1 he with he | he
      · rw [List.mem_singleton.1 he]
        exact hfirst
      · rw [List.mem_singleton.1 he]
        exact hsecond
  exact ⟨teams₁, teams₂, h₁, h₂, fun team =>
    ⟨hfollow ⟨∅, ⟨20000, {5}⟩, teams₁⟩ (by simp) team,
      hfollow ⟨teams₁, ⟨21000, {7}⟩, teams₂⟩ (by simp) team⟩⟩

/-- A latency of `5` and then one of `0`: the rollup of the minimum stays at `5`. -/
theorem min_latency_stays :
    ¬ ∀ (stats : HistStatistics) (owner : BitVec 32) (key : Bytes) (timestamp : ℕ)
      (tr : List (Event Teams HistogramMessage)) (teams' : Teams),
      Run (histogramStep stats owner key timestamp) ∅ tr teams' →
        ∀ e ∈ tr, ∀ team, Follows stats key timestamp (e.after.hash team) := by
  intro h
  have hr : Readable latencyKey 30000 (Teams.hash ∅ (cstr "web")) := readable_empty _ _
  obtain ⟨teams₁, h₁, hr₁⟩ := histogramStep_isOk rollupRoom_latencyKey parseKey_latencyKey hr
    sampleStatistics 1 ⟨20000, {5}⟩
  obtain ⟨teams₂, h₂, -⟩ := histogramStep_isOk rollupRoom_latencyKey
    parseKey_latencyKey hr₁ sampleStatistics 1 ⟨20000, {0}⟩
  have hfollows := h _ _ _ _ _ _ ((Run.single h₁).snoc h₂) ⟨teams₁, ⟨20000, {0}⟩, teams₂⟩
    (by simp) (cstr "web")
  have hown : ∃ s, parseKey latencyKey .unwritten = .ok (true, ⟨s, some (cstr "web")⟩) :=
    ⟨_, parseKey_latencyKey⟩
  have happly₁ := ((processAggregateMessage_single h₁ (cstr "web")).resolve_right
    fun hn => hn.1 hown).2
  have happly₂ := ((processAggregateMessage_single h₂ (cstr "web")).resolve_right
    fun hn => hn.1 hown).2
  obtain ⟨⟨v₁, hv₁, hmetric₁⟩, hlookup₁⟩ := applyAggregate_histogram rollupRoom_latencyKey happly₁
  obtain ⟨⟨v₂, hv₂, hmetric₂⟩, hlookup₂⟩ := applyAggregate_histogram rollupRoom_latencyKey happly₂
  have hempty : histogramOf ((Teams.hash ∅ (cstr "web")).lookup (makeMetricKey latencyKey 30000)) =
      0 := rfl
  rw [hempty] at hmetric₁ hlookup₁
  rw [hv₁, histogramOf_eq hmetric₁] at hmetric₂ hlookup₂
  have hmem : ∀ g, (cstr "- min_latency", sampleStatistics.approxQuantile g 0) ∈
      rollups sampleStatistics g := fun g => by simp [rollups]
  have hfive : sampleStatistics.approxQuantile (0 + {5}) 0 = .finite 5 := by decide +kernel
  have hzero : sampleStatistics.approxQuantile (0 + {5} + {0}) 0 = .finite 0 := by decide +kernel
  obtain ⟨v, hv, hmetric⟩ := (hlookup₁ _ (hmem _) _ rollupKey_min).1 (by
    dsimp only
    rw [hfive]
    decide +kernel)
  have hkept := (hlookup₂ _ (hmem _) _ rollupKey_min).2 (by
    dsimp only
    rw [hzero]
    decide +kernel)
  unfold Follows at hfollows
  rw [hv₂, histogramOf_eq hmetric₂] at hfollows
  obtain ⟨q, hq, hmetric'⟩ := hfollows _ (hmem _) _ rollupKey_min v (hkept.trans hv)
  dsimp only at hq hmetric
  rw [hzero] at hq
  rw [hfive] at hmetric
  obtain rfl := Statistic.finite.inj hq
  exact absurd (Payload.number.inj (hmetric.symm.trans hmetric')) (by decide)

end Tracemate.Process
