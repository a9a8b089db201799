import Tracemate.Lib.Runs
import Tracemate.Metric.Documents

/-!
# A turn as a run

The turn of `flushTeam`, which computes the bytes of the documents, is a run of the steps of
`Flush` between which no other thread updates the table.

* `Tracks`, `Agrees`: the state of the steps beside the local variables of the turn;
* `Agrees.write`, `Agrees.cutOver`, `Agrees.visit`, `Agrees.loop`: the steps that each part of the
  turn makes;
* `flushTeam_reaches`: the whole turn, with its table and its documents.
-/

namespace Tracemate.Metric

open CStr Runs

/-- The bytes in the buffer with the texts of these metrics. -/
def bufferLength (p : Printing) (metrics : List MetricJson) : ℕ :=
  (cstr "\x7b" ++ (cstr ",").intercalate (metrics.map (metricText p))).length

/-- The documents that the journal of the steps has taken, as bytes. -/
def journalTexts (p : Printing) (journal : List (List MetricJson)) : List Bytes :=
  journal.map fun metrics => documentText (metrics.map (metricText p))

/-- The documents of a turn that the journal has taken, without the empty ones. -/
def journaledTexts (calls : List JournalCall) : List Bytes :=
  (calls.filter fun c => c.journaled && !c.expired.isEmpty).map JournalCall.json

/-- The table, the clock and the journal beside the table and the calls of the turn, which started
with the documents `before` in the journal. -/
structure Tracks (env : TurnEnv) (before : List Bytes) (st : Turn) (w : World) : Prop where
  table : ∀ k, w.table.lookup k = st.table.lookup k
  clock : ∀ i, st.calls.length ≤ i → w.clock ≤ env.nowMs i
  journal : journalTexts env.printing w.journal = before ++ journaledTexts st.calls

/-- The variables of the loop beside those of the turn, when the entries `visited` of the table
`t` have been visited. -/
structure Agrees (env : TurnEnv) (t : MetricTable) (before : List Bytes)
    (visited : List MetricKey) (st : Turn) (w : World) (s : Scan) : Prop
    extends Tracks env before st w where
  now : s.now = env.now
  original : s.original = t.keys
  visited : ∀ k, k ∈ s.visited ↔ k ∈ visited
  texts : s.json.map (metricText env.printing) = st.jsonExpired.map (rendering env t)
  jsonExpired : s.jsonExpired = st.jsonExpired
  kafkaExpired : s.kafkaExpired = st.kafkaExpired

/-- Where the steps stand after a visit: in the loop, or at the removal of the entries after a
write that has failed. -/
def Follows (env : TurnEnv) (t : MetricTable) (before : List Bytes) (visited : List MetricKey)
    (r : Turn × Bool) (w : World) : Prop :=
  (r.2 = true → ∃ s, w.phase = .scan s ∧ Agrees env t before visited r.1 w s) ∧
    (r.2 = false → w.phase = .delete r.1.kafkaExpired ∧ Tracks env before r.1 w)

variable {owner : BitVec 32} {env : TurnEnv} {t : MetricTable} {before : List Bytes}
  {order visited : List MetricKey} {st : Turn} {w : World} {s : Scan} {k : MetricKey}
  {v : MetricValue}

theorem journaledTexts_append (calls : List JournalCall) (c : JournalCall) :
    journaledTexts (calls ++ [c]) =
      journaledTexts calls ++ if c.journaled ∧ c.expired ≠ [] then [c.json] else [] := by
  unfold journaledTexts
  rw [List.filter_append, List.map_append]
  by_cases hc : c.journaled = true ∧ c.expired ≠ []
  · simp [hc]
  · rw [if_neg hc]
    have hfilter : (c.journaled && !c.expired.isEmpty) = false := by simpa using hc
    simp [hfilter]

/-- The buffer of the turn is as long as the steps take it to be. -/
theorem Agrees.bufferLength_eq (h : Agrees env t before visited st w s)
    (hacc : Accumulated env t visited st) : bufferLength env.printing s.json = st.json.length := by
  unfold bufferLength
  rw [h.texts, hacc.json]

/-! ### The stamps and the removals -/

/-- The entries of a document are stamped one by one. -/
theorem reaches_stamp (len : List MetricJson → ℕ) (final : Bool) (flushedMs : ℕ)
    (todo : List MetricKey) (hphase : w.phase = .stamp s final flushedMs todo) :
    Reaches (Step owner len) w { w with
      table := stampEntries w.table todo flushedMs, phase := .stamp s final flushedMs [] } := by
  induction todo generalizing w with
  | nil =>
    rw [← hphase]
    exact .refl w
  | cons key todo ih =>
    exact (Reaches.single (Step.stamp hphase)).trans (ih rfl)

/-- The expired entries are removed one by one. -/
theorem reaches_delete (len : List MetricJson → ℕ) (todo : List MetricKey)
    (hphase : w.phase = .delete todo) :
    Reaches (Step owner len) w { w with
      table := todo.foldl (fun t k => t.erase k) w.table, phase := .idle } := by
  induction todo generalizing w with
  | nil => exact .single (Step.deleted hphase)
  | cons key todo ih => exact (Reaches.single (Step.delete hphase)).trans (ih rfl)

/-- The label `next_team`. -/
theorem Tracks.nextTeam (h : Tracks env before st w) (owner : BitVec 32) (len : List MetricJson → ℕ)
    (hphase : w.phase = .delete st.kafkaExpired) :
    ∃ w', Reaches (Step owner len) w w' ∧ w'.phase = .idle ∧ Tracks env before st.nextTeam w' := by
  refine ⟨_, reaches_delete len _ hphase, rfl, ⟨fun k => ?_, h.clock, h.journal⟩⟩
  unfold Turn.nextTeam
  dsimp only
  rw [lookup_foldl_erase, lookup_foldl_erase, h.table]

/-! ### The write of a document -/

/-- The journal answers and, if the document was taken, the clock is read and the entries are
stamped. -/
theorem Agrees.write (h : Agrees env t before visited st w s)
    (hacc : Accumulated env t visited st) (hmono : Monotone env.nowMs) (owner : BitVec 32)
    (len : List MetricJson → ℕ) (final : Bool) (hphase : w.phase = .journal s final) :
    ∃ w', Reaches (Step owner len) w w' ∧ Tracks env before (st.write env).1 w' ∧
      w'.phase = if final then .publish s
        else if (st.write env).2 then .scan { s with json := [], jsonExpired := [] }
        else .delete s.kafkaExpired := by
  have hdocument :
      documentText (s.json.map (metricText env.printing)) = st.json ++ cstr "\x7d" := by
    unfold documentText
    rw [h.texts, hacc.json]
  have hcalls : (st.write env).1.calls = st.calls ++
      [⟨st.json ++ cstr "\x7d", st.jsonExpired, (st.write env).2, env.nowMs st.calls.length⟩] := rfl
  have htable : (st.write env).1.table = if (st.write env).2 = true then
      stampEntries st.table st.jsonExpired (env.nowMs st.calls.length) else st.table := rfl
  have hlater : ∀ i, (st.write env).1.calls.length ≤ i → st.calls.length ≤ i := by
    intro i hi
    rw [hcalls, List.length_append] at hi
    omega
  have hclock : w.clock ≤ env.nowMs st.calls.length := h.clock _ (Nat.le_refl _)
  by_cases hj : (st.write env).2 = true
  · have hreach : Reaches (Step owner len) w _ :=
      ((Reaches.single (.journaled hphase)).trans (.single (.readClock rfl hclock))).trans
        ((reaches_stamp len final _ s.jsonExpired rfl).trans (.single (.stamped rfl)))
    refine ⟨_, hreach, ⟨fun k => ?_, fun i hi => hmono (hlater i hi), ?_⟩, ?_⟩
    · dsimp only
      rw [htable, if_pos hj, lookup_stampEntries, lookup_stampEntries, h.table, h.jsonExpired]
    · dsimp only
      rw [hcalls, journaledTexts_append, ← List.append_assoc, ← h.journal, h.jsonExpired, hj]
      dsimp only
      by_cases hempty : st.jsonExpired = []
      · simp [hempty]
      · rw [if_neg hempty, if_pos ⟨rfl, hempty⟩, ← hdocument]
        exact List.map_append
    · rw [if_pos hj]
  · have hj' : (st.write env).2 = false := by simpa using hj
    refine ⟨_, .single (.notJournaled hphase), ⟨fun k => ?_, fun i hi => ?_, ?_⟩, ?_⟩
    · rw [htable, if_neg hj]
      exact h.table k
    · exact h.clock i (hlater i hi)
    · rw [hcalls, journaledTexts_append, hj']
      simpa using h.journal
    · dsimp only
      rw [if_neg hj]

/-- The end of the loop body. -/
theorem Agrees.cutOver (h : Agrees env t before visited st w s)
    (hacc : Accumulated env t visited st) (hmono : Monotone env.nowMs) (owner : BitVec 32)
    (hphase : w.phase = afterVisit (bufferLength env.printing) s) :
    ∃ w', Reaches (Step owner (bufferLength env.printing)) w w' ∧
      Follows env t before visited (st.cutOver env) w' := by
  unfold afterVisit at hphase
  unfold Turn.cutOver
  rw [h.bufferLength_eq hacc] at hphase
  split_ifs at hphase ⊢ with hlong
  · obtain ⟨w', hreach, htracks, hphase'⟩ :=
      h.write hacc hmono owner (bufferLength env.printing) false hphase
    have hkafka : (st.write env).1.kafkaExpired = st.kafkaExpired := rfl
    refine ⟨w', hreach, ?_⟩
    split
    · rename_i st' hwrite
      rw [hwrite] at htracks hphase' hkafka
      refine ⟨fun _ => ⟨_, hphase', ?_⟩, fun hfalse => by cases hfalse⟩
      exact {
        table := htracks.table
        clock := htracks.clock
        journal := htracks.journal
        now := h.now
        original := h.original
        visited := h.visited
        texts := rfl
        jsonExpired := rfl
        kafkaExpired := h.kafkaExpired.trans hkafka.symm }
    · rename_i st' hwrite
      rw [hwrite] at htracks hphase' hkafka
      refine ⟨fun htrue => absurd htrue Bool.false_ne_true, fun _ => ⟨?_, htracks⟩⟩
      rw [hphase', hkafka, ← h.kafkaExpired]
      rfl
  · exact ⟨w, .refl w, ⟨fun _ => ⟨s, hphase, h⟩, fun hfalse => by cases hfalse⟩⟩

/-! ### The loop over the entries -/

theorem Agrees.skip (h : Agrees env t before visited st w s) (k : MetricKey) :
    Agrees env t before (visited ++ [k]) st w { s with visited := k :: s.visited } where
  toTracks := h.toTracks
  now := h.now
  original := h.original
  visited k' := by
    rw [List.mem_cons, h.visited, List.mem_append, List.mem_singleton]
    exact or_comm
  texts := h.texts
  jsonExpired := h.jsonExpired
  kafkaExpired := h.kafkaExpired

/-- The steps put an entry back that the turn has left alone. -/
theorem lookup_insert_self {table table' : MetricTable}
    (h : ∀ k, table.lookup k = table'.lookup k) (hv : table'.lookup k = some v) (k' : MetricKey) :
    (table.insert k v).lookup k' = table'.lookup k' := by
  by_cases hkk : k' = k
  · subst hkk
    rw [AList.lookup_insert, hv]
  · rw [AList.lookup_insert_ne hkk, h]

theorem lookup_insert_congr {table table' : MetricTable}
    (h : ∀ k, table.lookup k = table'.lookup k) (k : MetricKey) (v : MetricValue)
    (k' : MetricKey) : (table.insert k v).lookup k' = (table'.insert k v).lookup k' := by
  by_cases hkk : k' = k
  · subst hkk
    rw [AList.lookup_insert, AList.lookup_insert]
  · rw [AList.lookup_insert_ne hkk, AList.lookup_insert_ne hkk, h]

/-- The visit of an entry that is left as it is. -/
theorem Agrees.refresh (h : Agrees env t before visited st w s) (hv : st.table.lookup k = some v)
    (phase : Phase) :
    Agrees env t before visited st { w with table := w.table.insert k v, phase } s :=
  { h with table := lookup_insert_self h.table hv }

theorem Agrees.insert (h : Agrees env t before visited st w s) (k : MetricKey) (v : MetricValue)
    (phase : Phase) :
    Agrees env t before visited { st with table := st.table.insert k v }
      { w with table := w.table.insert k v, phase } s :=
  { h with table := lookup_insert_congr h.table k v }

theorem Agrees.addMetric (h : Agrees env t before visited st w s) (hvt : t.lookup k = some v) :
    Agrees env t before visited (st.addMetric env k v) w
      { s with
        json := s.json ++ [(metricToJson k v true false (env.rand k % 30000)).1]
        jsonExpired := s.jsonExpired ++ [k] } where
  toTracks := ⟨h.table, h.clock, h.journal⟩
  now := h.now
  original := h.original
  visited := h.visited
  texts := by
    unfold Turn.addMetric
    dsimp only
    rw [List.map_append, List.map_append, h.texts, List.map_singleton, List.map_singleton,
      rendering_of_lookup hvt]
  jsonExpired := congrArg (· ++ [k]) h.jsonExpired
  kafkaExpired := h.kafkaExpired

/-- An aggregate is sent to Kafka, and stamped if Kafka has accepted it. -/
theorem Agrees.sendAggregate (h : Agrees env t before visited st w s)
    (len : List MetricJson → ℕ) (message : MetricJson) (k : MetricKey) (v : MetricValue) :
    ∃ w', Reaches (Step owner len)
        { w with table := w.table.insert k (resetValue v), phase := .produce s k message } w' ∧
      w'.phase = afterVisit len s ∧
      Agrees env t before visited (st.sendAggregate env k v) w' s := by
  have hreset : resetValue (metricToJson k v false true 0).2 = resetValue v := by
    rw [metricToJson, if_pos rfl, resetValue_clearMetric]
  unfold Turn.sendAggregate
  rw [hreset]
  cases hproduced : env.produced k with
  | true =>
    refine ⟨_, (Reaches.single (.produced rfl)).trans (.single (.stampAggregate rfl)), rfl, ?_⟩
    refine { h with table := fun k' => ?_ }
    dsimp only
    rw [lookup_stampEntry, h.now]
    by_cases hkk : k' = k
    · subst hkk
      rw [if_pos rfl, AList.lookup_insert, AList.lookup_insert]
      rfl
    · rw [if_neg hkk, AList.lookup_insert_ne hkk, AList.lookup_insert_ne hkk, h.table]
  | false =>
    refine ⟨_, .single (.notProduced rfl), rfl, ?_⟩
    exact { h with table := lookup_insert_congr h.table k _ }

/-- The loop body for one entry. -/
theorem Agrees.visit (h : Agrees env t before visited st w s)
    (hacc : Accumulated env t visited st) (hmono : Monotone env.nowMs) (owner : BitVec 32)
    (hk : k ∉ visited) (hv : st.table.lookup k = some v) (hphase : w.phase = .scan s) :
    ∃ w', Reaches (Step owner (bufferLength env.printing)) w w' ∧
      Follows env t before (visited ++ [k]) (st.visit env k v) w' := by
  have hvt : t.lookup k = some v := (hacc.unvisited k hk).symm.trans hv
  have hmem : k ∈ visited ++ [k] := List.mem_append_right _ (List.mem_singleton_self k)
  have hdue := due_of_lookup env hvt
  have hagr := h.skip k
  have hstep : Step owner (bufferLength env.printing) w _ _ :=
    .visit hphase ((h.table k).trans hv) (fun hmem => hk ((h.visited k).1 hmem))
      (Nat.mod_lt (env.rand k) (by decide : 30000 > 0))
  unfold Metric.visit at hstep
  unfold Turn.visit
  rw [← h.now]
  rw [← h.now] at hdue
  dsimp only at hstep
  split_ifs at hstep ⊢ with hexp hflushed hagg hjson hkafka
  · refine ⟨_, .single hstep, ⟨fun _ => ⟨_, rfl, ?_⟩, fun hfalse => by cases hfalse⟩⟩
    exact { hagr.insert k _ _ with kafkaExpired := congrArg (· ++ [k]) h.kafkaExpired }
  · exact ⟨_, .single hstep, ⟨fun _ => ⟨_, rfl, hagr.refresh hv _⟩, fun hfalse => by cases hfalse⟩⟩
  · have hadded := hacc.addMetric hvt (by simp [hdue, hflushed, hagg, hjson])
    obtain ⟨w', hreach, hfollows⟩ := ((hagr.refresh hv _).addMetric hvt).cutOver hadded hmono owner rfl
    exact ⟨w', (Reaches.single hstep).trans hreach, hfollows⟩
  · have hskipped := hacc.skip (k := k) (by simp [hdue, hjson])
    obtain ⟨w', hreach, hfollows⟩ := (hagr.refresh hv _).cutOver hskipped hmono owner rfl
    exact ⟨w', (Reaches.single hstep).trans hreach, hfollows⟩
  · have hskipped := hacc.skip (k := k) (by simp [hdue, hagg])
    have hsent : Accumulated env t (visited ++ [k]) (st.sendAggregate env k v) :=
      hskipped.insert hmem fun hf => absurd hf hagg
    have hreset : resetValue (metricToJson k v false true 0).2 = resetValue v := by
      rw [metricToJson, if_pos rfl, resetValue_clearMetric]
    rw [hreset] at hstep
    obtain ⟨w₁, hreach₁, hphase₁, hagr₁⟩ := hagr.sendAggregate (bufferLength env.printing) _ k v
    obtain ⟨w', hreach, hfollows⟩ := hagr₁.cutOver hsent hmono owner hphase₁
    exact ⟨w', ((Reaches.single hstep).trans hreach₁).trans hreach, hfollows⟩
  · have hskipped := hacc.skip (k := k) (by simp [hdue, hagg])
    obtain ⟨w', hreach, hfollows⟩ := (hagr.refresh hv _).cutOver hskipped hmono owner rfl
    exact ⟨w', (Reaches.single hstep).trans hreach, hfollows⟩

/-- The loop visits all entries, or ends with the first write that fails. -/
theorem Agrees.loop (h : Agrees env t before visited st w s)
    (hacc : Accumulated env t visited st) (hmono : Monotone env.nowMs) (owner : BitVec 32)
    (hnodup : (visited ++ order).Nodup) (hmem : ∀ k ∈ order, k ∈ t) (hphase : w.phase = .scan s) :
    ∃ w', Reaches (Step owner (bufferLength env.printing)) w w' ∧
      Follows env t before (visited ++ order) (st.loop env order) w' := by
  induction order generalizing visited st w s with
  | nil =>
    rw [List.append_nil]
    exact ⟨w, .refl w, ⟨fun _ => ⟨s, hphase, h⟩, fun hfalse => by cases hfalse⟩⟩
  | cons k order ih =>
    have hk : k ∉ visited := fun hk =>
      (List.nodup_append.1 hnodup).2.2 k hk k List.mem_cons_self rfl
    rw [List.forall_mem_cons] at hmem
    obtain ⟨v, hv⟩ := Option.isSome_iff_exists.1 (AList.lookup_isSome.2 hmem.1)
    rw [← hacc.unvisited k hk] at hv
    have hvisit := hacc.visit hk hv
    obtain ⟨w₁, hreach₁, hfollows₁⟩ := h.visit hacc hmono owner hk hv hphase
    rw [Turn.loop, hv]
    dsimp only
    split
    · rename_i st' hst'
      rw [hst'] at hvisit hfollows₁
      obtain ⟨s₁, hphase₁, hagr₁⟩ := hfollows₁.1 rfl
      have hnodup' : (visited ++ [k] ++ order).Nodup := by rwa [List.append_assoc]
      obtain ⟨w', hreach, hfollows⟩ := ih hagr₁ (hvisit.1 rfl) hnodup' hmem.2 hphase₁
      rw [List.append_assoc] at hfollows
      exact ⟨w', hreach₁.trans hreach, hfollows⟩
    · rename_i st' hst'
      rw [hst'] at hfollows₁
      exact ⟨w₁, hreach₁, ⟨fun htrue => absurd htrue Bool.false_ne_true, hfollows₁.2⟩⟩

/-! ### The whole turn -/

/-- The undisturbed turn of a team is a run of the steps, from the reading of the clock to the end
of the flush: it leaves the table with the same entries and the journal with the same bytes. -/
theorem flushTeam_reaches (owner : BitVec 32) (hphase : w.phase = .begun env.now)
    (horder : order.Perm w.table.keys) (hmono : Monotone env.nowMs)
    (hclock : w.clock ≤ env.nowMs 0) :
    ∃ w', Reaches (Step owner (bufferLength env.printing)) w w' ∧ w'.phase = .idle ∧
      Tracks env (journalTexts env.printing w.journal) (flushTeam env order w.table) w' := by
  have hnodup : ([] ++ order).Nodup := horder.nodup_iff.2 w.table.keys_nodup
  have hmem : ∀ k ∈ order, k ∈ w.table := fun k hk => AList.mem_keys.1 (horder.mem_iff.1 hk)
  have hstart : Agrees env w.table (journalTexts env.printing w.journal) []
      (Turn.start w.table)
      { w with phase := .scan ⟨env.now, w.table.keys, [], [], [], []⟩ }
      ⟨env.now, w.table.keys, [], [], [], []⟩ := {
    table := fun _ => rfl
    clock := fun i _ => hclock.trans (hmono (Nat.zero_le i))
    journal := (List.append_nil _).symm
    now := rfl
    original := rfl
    visited := fun _ => Iff.rfl
    texts := rfl
    jsonExpired := rfl
    kafkaExpired := rfl }
  have hacc := accumulated_start env w.table
  have hbegin : Reaches (Step owner (bufferLength env.printing)) w _ := .single (.startTeam hphase)
  obtain ⟨w₁, hreach₁, hfollows⟩ := hstart.loop hacc hmono owner hnodup hmem rfl
  obtain ⟨rest, -, hafter, hall⟩ := hacc.loop hnodup hmem
  rw [List.nil_append] at hfollows hafter
  unfold flushTeam
  split
  · rename_i st hst
    rw [hst] at hfollows hafter hall
    obtain rfl := hall rfl
    obtain ⟨s, hphase₁, hagr⟩ := hfollows.1 rfl
    have hend : Step owner (bufferLength env.printing) w₁ .endScan
        { w₁ with phase := .journal s true } := by
      refine .endScan hphase₁ fun k hk => ?_
      rw [hagr.original] at hk
      exact (hagr.visited k).2 (horder.mem_iff.2 hk)
    have hagr' : Agrees env w.table (journalTexts env.printing w.journal) rest st
        { w₁ with phase := .journal s true } s :=
      { hagr with table := hagr.table }
    obtain ⟨w₂, hreach₂, htracks, hphase₂⟩ :=
      hagr'.write (hafter.1 rfl) hmono owner (bufferLength env.printing) true rfl
    rw [if_pos rfl] at hphase₂
    have hkafka : s.kafkaExpired = (st.write env).1.kafkaExpired := hagr.kafkaExpired
    have htracks' : Tracks env (journalTexts env.printing w.journal) (st.write env).1
        { w₂ with phase := .delete s.kafkaExpired } :=
      ⟨htracks.table, htracks.clock, htracks.journal⟩
    obtain ⟨w', hreach₃, hidle, hlast⟩ :=
      htracks'.nextTeam owner (bufferLength env.printing) (by rw [hkafka])
    refine ⟨w', ?_, hidle, hlast⟩
    exact (((hbegin.trans hreach₁).trans (.single hend)).trans hreach₂).trans
      ((Reaches.single (.publish hphase₂)).trans hreach₃)
  · rename_i st hst
    rw [hst] at hfollows
    obtain ⟨hphase₁, htracks⟩ := hfollows.2 rfl
    obtain ⟨w', hreach₂, hidle, hlast⟩ :=
      htracks.nextTeam owner (bufferLength env.printing) hphase₁
    exact ⟨w', (hbegin.trans hreach₁).trans hreach₂, hidle, hlast⟩

end Tracemate.Metric
