import Tracemate.Metric.Escape
import Tracemate.Process.Tags

/-!
# Inbound aggregates

`tm_process_aggregate.c`: the aggregates that an instance reads back from Kafka are merged into
the table of the team that the key of the metric names.

* `parseKey`: `parse_key`, over `parseTag`, the body of its loop;
* `storeNumericRollup`, `applyAggregate`: the updates of the table for one metric;
* `processAggregateMessage`: `process_aggregate_message`;
* `KeyNames`, `parseKey_unwritten_iff`: the keys that `parse_key` accepts with a team;
* `TextNames`, `keyNames_metricName_iff`: the names whose text and tags make such a key;
* `processAggregateMessage_frame`: only the tables of the teams that `parse_key` finds change.
-/

namespace Tracemate.Process

open CStr JsonC COutcome Outcome Tracemate.Metric

/-- The buffers `service_name` and `team`, as far as they have been written. -/
structure KeyBuffers where
  serviceName : Option Bytes
  team : Option Bytes
  deriving DecidableEq

/-- The buffers when `process_aggregate_message` starts. -/
def KeyBuffers.unwritten : KeyBuffers := ⟨none, none⟩

/-- The buffers and `team_tag`. -/
structure TagState where
  buffers : KeyBuffers
  teamTag : Bool
  deriving DecidableEq

/-- The body of the loop over the tags. -/
def parseTag (st : TagState) (tag : Bytes) : Outcome TagState := do
  let st ← match strstr (cstr "service:") tag with
    | none => .ok st
    | some serviceStart => do
      let serviceName ← fitting 256 (serviceStart.drop 8)
      .ok { st with buffers := { st.buffers with serviceName := some serviceName } }
  match strstr (cstr "team:") tag with
  | none => .ok st
  | some teamStart => do
    let team ← fitting 256 (teamStart.drop 5)
    .ok ⟨{ st.buffers with team := some team }, true⟩

/-- The loop over the tags. -/
def parseTags (st : TagState) : List Bytes → Outcome TagState
  | [] => .ok st
  | tag :: tags => do
    let st ← parseTag st tag
    parseTags st tags

/-- The part of `parse_key` that reads the tags: whether there are any, and the buffers. -/
def readTags (tags : Bytes) (buffers : KeyBuffers) : Outcome (Bool × KeyBuffers) := do
  let tagsCopy ← fitting 3172 tags
  let st ← parseTags ⟨buffers, false⟩ (strtok 44 tagsCopy)
  if st.teamTag then .ok (true, st.buffers)
  else
    let serviceName ← written st.buffers.serviceName
    match tmGetTeam (some serviceName) with
    | none => .ok (true, st.buffers)
    | some team => .ok (true, { st.buffers with team := some team })

/-- `parse_key`. -/
def parseKey (key : Bytes) (buffers : KeyBuffers) : Outcome (Bool × KeyBuffers) :=
  match strstr (cstr "|ST[") key with
  | none => .ok (false, buffers)
  | some tagStart =>
    let tagStart := tagStart.drop 4
    match strstr (cstr "]") tagStart with
    -- `tag_end - tag_start` for a null pointer
    | none => .error .outOfBounds
    | some tagEnd => readTags (tagStart.take (tagStart.length - tagEnd.length)) buffers

/-! ### The tables -/

/-- A `double` that `circllhist` computes. -/
inductive Statistic
  | finite (value : ℚ)
  | infinite
  | nan
  deriving DecidableEq

/-- `isnormal`: neither zero nor subnormal, infinite or not a number. -/
def Statistic.Normal : Statistic → Prop
  | finite value => 1 ≤ |value| * (2 ^ 1022 : ℕ)
  | _ => False

instance (s : Statistic) : Decidable s.Normal :=
  match s with
  | .finite value => inferInstanceAs (Decidable (1 ≤ |value| * (2 ^ 1022 : ℕ)))
  | .infinite => inferInstanceAs (Decidable False)
  | .nan => inferInstanceAs (Decidable False)

/-- The number of a normal `double`. -/
def Statistic.value : Statistic → ℚ
  | finite value => value
  | _ => 0

/-- The statistics of `circllhist` that are reported of a histogram. -/
structure HistStatistics where
  approxMean : Multiset ℕ → Statistic
  approxStddev : Multiset ℕ → Statistic
  approxQuantile : Multiset ℕ → ℚ → Statistic

/-- `_build_rollup_key`, into `metric_name[4096]`. -/
def buildRollupKey (incomingKey replace : Bytes) : Outcome (Option Bytes) :=
  match strstr (cstr "- latency") incomingKey with
  | none => .ok none
  | some pos => do
    let start ← fitting 4096 (incomingKey.take (incomingKey.length - pos.length))
    .ok (some ((start ++ replace ++ pos.drop 9).take 4095))

section Update

variable (stats : HistStatistics) (owner : BitVec 32) (now : ℕ)

/-- `store_numeric_rollup`. -/
def storeNumericRollup (key replace : Bytes) (value : Statistic) (timestamp : ℕ)
    (t : MetricTable) : Outcome MetricTable :=
  if value.Normal then do
    match ← buildRollupKey key replace with
    | none => .ok t
    | some name =>
      written (updateEntry owner now t (makeMetricKey name timestamp) (.rollup value.value))
  else .ok t

/-- The rollups of a histogram, in the order of the source. -/
def rollups (h : Multiset ℕ) : List (Bytes × Statistic) :=
  [(cstr "- average_latency", stats.approxMean h),
    (cstr "- min_latency", stats.approxQuantile h 0),
    (cstr "- p95_latency", stats.approxQuantile h (95 / 100)),
    (cstr "- p99_latency", stats.approxQuantile h (99 / 100)),
    (cstr "- max_latency", stats.approxQuantile h 1),
    (cstr "- stddev_latency", stats.approxStddev h)]

/-- The histogram of an entry. -/
def histogramOf (v : Option MetricValue) : Multiset ℕ :=
  match v.map MetricValue.metric with
  | some (.histogram h) => h
  | _ => 0

/-- The calls of `store_numeric_rollup` for a histogram. -/
def storeRollups (key : Bytes) (timestamp : ℕ) : List (Bytes × Statistic) → MetricTable →
    Outcome MetricTable
  | [], t => .ok t
  | (replace, value) :: rest, t => do
    let t ← storeNumericRollup owner now key replace value timestamp t
    storeRollups key timestamp rest t

/-- The branches over the type of a metric: the team's table after it. -/
def applyAggregate (key : Bytes) (timestamp : ℕ) (value : JsonValue) (t : MetricTable) :
    Outcome MetricTable :=
  let mkey := makeMetricKey key timestamp
  match value with
  | .histogram h => do
    let t ← written (updateEntry owner now t mkey (.mergeHistogram h))
    storeRollups owner now key timestamp (rollups stats (histogramOf (t.lookup mkey))) t
  | .integer count => written (updateEntry owner now t mkey (.mergeInteger count))
  | .number num count => written (updateEntry owner now t mkey (.mergeNumber num (count.getD 0)))
  | .text _ => .ok t

/-- `process_aggregate_message`, for the members of the message with their names, without
`processor` and `context`. -/
def processAggregateMessage (buffers : KeyBuffers) (teams : Teams) :
    List (Bytes × ℕ × JsonValue) → Outcome Teams
  | [] => .ok teams
  | (key, timestamp, value) :: rest => do
    let (accepted, buffers) ← parseKey key buffers
    if accepted then
      let team ← written buffers.team
      let (td, teams) := teams.getTeamData team
      let hash ← applyAggregate stats owner now key timestamp value td.hash
      processAggregateMessage buffers (teams.insert team { td with hash }) rest
    else processAggregateMessage buffers teams rest

end Update

/-! ### Reading tags -/

variable {team tag tags : Bytes} {st st' : TagState} {buffers : KeyBuffers}

/-- What follows `word` in the tags that have it. -/
def labelled (word : Bytes) (tags : List Bytes) : List Bytes :=
  tags.filterMap fun tag => (strstr word tag).map (·.drop word.length)

/-- What is labelled in the tags fits the buffers. -/
def LabelsFit (tags : List Bytes) : Prop :=
  ∀ word ∈ [cstr "service:", cstr "team:"], ∀ s ∈ labelled word tags, s.length < 256

/-- The buffers after the tags: what is labelled last. -/
def TagState.after (st : TagState) (tags : List Bytes) : TagState :=
  ⟨⟨(labelled (cstr "service:") tags).getLast?.or st.buffers.serviceName,
    (labelled (cstr "team:") tags).getLast?.or st.buffers.team⟩,
    (labelled (cstr "team:") tags).getLast?.isSome || st.teamTag⟩

theorem labelled_cons (word tag : Bytes) (tags : List Bytes) :
    labelled word (tag :: tags) = labelled word [tag] ++ labelled word tags := by
  unfold labelled
  rw [← List.filterMap_append, List.singleton_append]

theorem labelled_singleton (word tag : Bytes) :
    labelled word [tag] = ((strstr word tag).map (·.drop word.length)).toList := by
  unfold labelled
  cases h : strstr word tag <;> simp [h]

theorem labelsFit_cons {tags : List Bytes} :
    LabelsFit (tag :: tags) ↔ LabelsFit [tag] ∧ LabelsFit tags := by
  unfold LabelsFit
  simp only [labelled_cons _ tag tags, List.forall_mem_append, ← forall_and]

theorem TagState.after_cons {tags : List Bytes} :
    st.after (tag :: tags) = (st.after [tag]).after tags := by
  unfold TagState.after
  simp only [labelled_cons _ tag tags, List.getLast?_append, Option.or_assoc, Bool.or_assoc,
    Option.isSome_or]

/-- The body of the loop copies what is labelled. -/
theorem parseTag_eq_ok_iff :
    parseTag st tag = .ok st' ↔ LabelsFit [tag] ∧ st.after [tag] = st' := by
  have hservice : (cstr "service:").length = 8 := rfl
  have hteam : (cstr "team:").length = 5 := rfl
  unfold parseTag LabelsFit TagState.after
  simp only [List.forall_mem_cons, labelled_singleton, hservice, hteam]
  cases strstr (cstr "service:") tag <;> cases strstr (cstr "team:") tag <;>
    simp [bind_eq_ok, fitting_eq_ok, and_assoc]

/-- The loop leaves what is labelled last, where all of it fits. -/
theorem parseTags_eq_ok_iff {tags : List Bytes} :
    parseTags st tags = .ok st' ↔ LabelsFit tags ∧ st.after tags = st' := by
  induction tags generalizing st with
  | nil =>
    have hfit : LabelsFit [] := fun _ _ _ hs => absurd hs List.not_mem_nil
    rw [parseTags, and_iff_right hfit]
    exact ⟨fun h => Except.ok.inj h, fun h => congrArg Except.ok h⟩
  | cons tag tags ih =>
    rw [parseTags, bind_eq_ok, labelsFit_cons, TagState.after_cons]
    simp only [parseTag_eq_ok_iff, ih]
    constructor
    · rintro ⟨_, ⟨htag, rfl⟩, htags, h⟩
      exact ⟨⟨htag, htags⟩, h⟩
    · rintro ⟨⟨htag, htags⟩, h⟩
      exact ⟨_, ⟨htag, rfl⟩, htags, h⟩

/-- The tags that `parse_key` reads are those between the first `|ST[` and the next `]`. -/
theorem parseKey_append {pre : Bytes} (hpre : ¬ cstr "|ST[" <:+: pre)
    (htags : (93 : UInt8) ∉ tags) (rest : Bytes) :
    parseKey (pre ++ cstr "|ST[" ++ (tags ++ 93 :: rest)) buffers = readTags tags buffers := by
  have hstart : strstr (cstr "|ST[") (pre ++ cstr "|ST[" ++ (tags ++ 93 :: rest)) =
      some (cstr "|ST[" ++ (tags ++ 93 :: rest)) := strstr_append (by decide) hpre _
  have hdrop : (cstr "|ST[" ++ (tags ++ 93 :: rest)).drop 4 = tags ++ 93 :: rest := rfl
  have hend : strstr (cstr "]") (tags ++ 93 :: rest) = some (93 :: rest) := by
    have h := strstr_append (w := []) (c := 93) (a := tags) (by simp)
      (by rwa [List.singleton_infix_iff]) rest
    simpa [cstr] using h
  have htake : (tags ++ 93 :: rest).take ((tags ++ 93 :: rest).length - (93 :: rest).length) =
      tags := by
    simp
  unfold parseKey
  simp only [hstart, hdrop, hend, htake]

/-! ### What a key names -/

/-- The first list of tags that a key opens, up to the first bracket that closes it. -/
def Opens (key tags : Bytes) : Prop :=
  ∃ front rest, key = front ++ cstr "|ST[" ++ (tags ++ 93 :: rest) ∧
    ¬ cstr "|ST[" <:+: front ∧ (93 : UInt8) ∉ tags

/-- The tags fit the buffers, and the last text labelled `team:` is the team, or, where there is
none, the last text labelled `service:` is a service of the team. -/
structure TagsName (team tags : Bytes) : Prop where
  copied : tags.length < 3172
  fit : LabelsFit (strtok 44 tags)
  service : ∃ s, (labelled (cstr "service:") (strtok 44 tags)).getLast? = some s ∧
    ((labelled (cstr "team:") (strtok 44 tags)).getLast? = none →
      tmGetTeam (some s) = some team)
  team : ∀ t, (labelled (cstr "team:") (strtok 44 tags)).getLast? = some t → t = team

/-- The first list of tags of the key names the team. -/
def KeyNames (team key : Bytes) : Prop := ∃ tags, Opens key tags ∧ TagsName team tags

/-- What the tags leave in buffers that nothing has been written to. -/
theorem readTags_of_fit (hcopied : tags.length < 3172) (hfit : LabelsFit (strtok 44 tags)) :
    readTags tags .unwritten =
      match (labelled (cstr "team:") (strtok 44 tags)).getLast? with
      | some t => .ok (true, ⟨(labelled (cstr "service:") (strtok 44 tags)).getLast?, some t⟩)
      | none => (written (labelled (cstr "service:") (strtok 44 tags)).getLast?).map fun s =>
        (true, ⟨some s, tmGetTeam (some s)⟩) := by
  unfold readTags
  rw [fitting, if_pos hcopied]
  simp only [bind, Except.bind, parseTags_eq_ok_iff.2 ⟨hfit, rfl⟩, TagState.after,
    KeyBuffers.unwritten, Option.or_none, Bool.or_false]
  cases (labelled (cstr "team:") (strtok 44 tags)).getLast? with
  | some t => rfl
  | none =>
    cases (labelled (cstr "service:") (strtok 44 tags)).getLast? with
    | none => rfl
    | some s =>
      simp only [Option.isSome_none, Bool.false_eq_true, if_false, written]
      cases hteam : tmGetTeam (some s) <;> simp [Except.map, hteam]

theorem readTags_unwritten_iff :
    (∃ s, readTags tags .unwritten = .ok (true, ⟨some s, some team⟩)) ↔ TagsName team tags := by
  constructor
  · rintro ⟨s, h⟩
    obtain ⟨copy, hcopy, h'⟩ := bind_eq_ok.1 h
    obtain ⟨hcopied, rfl⟩ := fitting_eq_ok.1 hcopy
    obtain ⟨st, hst, -⟩ := bind_eq_ok.1 h'
    have hfit := (parseTags_eq_ok_iff.1 hst).1
    rw [readTags_of_fit hcopied hfit] at h
    cases hteam : (labelled (cstr "team:") (strtok 44 tags)).getLast? with
    | some t =>
      simp only [hteam, Except.ok.injEq, Prod.mk.injEq, KeyBuffers.mk.injEq, true_and,
        Option.some.injEq] at h
      refine ⟨hcopied, hfit, ⟨s, h.1, fun hnone => ?_⟩, fun t' ht' => ?_⟩
      · rw [hteam] at hnone
        cases hnone
      · rw [hteam] at ht'
        exact (Option.some.inj ht').symm.trans h.2
    | none =>
      rw [hteam] at h
      cases hservice : (labelled (cstr "service:") (strtok 44 tags)).getLast? with
      | none =>
        rw [hservice] at h
        cases h
      | some s' =>
        rw [hservice] at h
        have h := Except.ok.inj h
        simp only [Prod.mk.injEq, KeyBuffers.mk.injEq, true_and, Option.some.injEq] at h
        refine ⟨hcopied, hfit, ⟨s', hservice, fun _ => h.2⟩, fun t' ht' => ?_⟩
        rw [hteam] at ht'
        cases ht'
  · rintro ⟨hcopied, hfit, ⟨s, hs, hservice⟩, hteam⟩
    rw [readTags_of_fit hcopied hfit]
    refine ⟨s, ?_⟩
    cases hlast : (labelled (cstr "team:") (strtok 44 tags)).getLast? with
    | some t => rw [hs, hteam t hlast]
    | none =>
      rw [hs, ← hservice hlast]
      rfl

/-- `parse_key` accepts a key with the team exactly if its first list of tags names the team. -/
theorem parseKey_unwritten_iff {key : Bytes} :
    (∃ s, parseKey key .unwritten = .ok (true, ⟨some s, some team⟩)) ↔ KeyNames team key := by
  constructor
  · rintro ⟨s, h⟩
    unfold parseKey at h
    split at h
    · cases h
    next tagStart hstart =>
    dsimp only at h
    split at h
    · cases h
    next tagEnd hend =>
    obtain ⟨front, rfl, hfront⟩ := strstr_first (by decide) hstart
    obtain ⟨list, hlist⟩ := (strstr_spec hstart).1
    have hdrop : tagStart.drop 4 = list := by
      rw [← hlist]
      rfl
    rw [hdrop] at h hend
    obtain ⟨tags, rfl, htags⟩ := strstr_first (by decide) hend
    obtain ⟨rest, hrest⟩ := (strstr_spec hend).1
    have htake : (tags ++ tagEnd).take ((tags ++ tagEnd).length - tagEnd.length) = tags := by simp
    rw [htake] at h
    refine ⟨tags, ⟨front, rest, ?_, hfront, ?_⟩, readTags_unwritten_iff.1 ⟨s, h⟩⟩
    · rw [List.append_assoc, ← hlist, ← hrest]
      rfl
    · rwa [← List.singleton_infix_iff]
  · rintro ⟨tags, ⟨front, rest, rfl, hfront, htags⟩, hnames⟩
    rw [parseKey_append hfront htags]
    exact readTags_unwritten_iff.2 hnames

/-! ### The keys of names -/

/-- The tags up to the first bracket name the team. -/
def ListNames (team tags : Bytes) : Prop := TagsName team (tags.takeWhile (· ≠ 93))

/-- The list of tags that the text opens, or else the tags behind it, ends within `room` bytes and
names the team. -/
def TextNames (team : Bytes) (room : ℕ) (text tags : Bytes) : Prop :=
  ∃ front back, text ++ cstr "|ST[" ++ tags = front ++ cstr "|ST[" ++ back ∧
    ¬ cstr "|ST[" <:+: front ∧
    front.length + 4 + (back.takeWhile (· ≠ 93)).length < room ∧ ListNames team back

theorem TextNames.mono {room room' : ℕ} {text : Bytes} (h : TextNames team room text tags)
    (hroom : room ≤ room') : TextNames team room' text tags := by
  obtain ⟨front, back, heq, hfront, hlen, hnames⟩ := h
  exact ⟨front, back, heq, hfront, by omega, hnames⟩

/-- A text that opens no list leaves it to the tags. -/
theorem textNames_iff_of_plain {room : ℕ} {text : Bytes} (htext : ¬ cstr "|ST[" <:+: text) :
    TextNames team room text tags ↔
      text.length + 4 + (tags.takeWhile (· ≠ 93)).length < room ∧ ListNames team tags := by
  constructor
  · rintro ⟨front, back, heq, hfront, hnames⟩
    have hfirst : ∀ {a : Bytes}, ¬ cstr "|ST[" <:+: a → ∀ b,
        strstr (cstr "|ST[") (a ++ cstr "|ST[" ++ b) = some (cstr "|ST[" ++ b) :=
      fun ha b => strstr_append (by decide) ha b
    have hboth := hfirst htext tags
    rw [heq, hfirst hfront] at hboth
    obtain rfl := List.append_cancel_left (Option.some.inj hboth)
    obtain rfl := List.append_cancel_right (List.append_cancel_right heq)
    exact hnames
  · rintro ⟨hlen, hnames⟩
    exact ⟨text, tags, rfl, htext, hlen, hnames⟩

/-- A stem opens no list. -/
theorem opens_append_iff {stem k : Bytes} (hstem : (124 : UInt8) ∉ stem) :
    Opens (stem ++ k) tags ↔ Opens k tags := by
  constructor
  · rintro ⟨front, rest, heq, hfront, htags⟩
    have hcons : front ++ cstr "|ST[" ++ (tags ++ 93 :: rest) =
        front ++ 124 :: (cstr "ST[" ++ (tags ++ 93 :: rest)) := by
      rw [List.append_assoc]
      rfl
    rw [hcons] at heq
    rcases List.append_eq_append_iff.1 heq with ⟨l, rfl, rfl⟩ | ⟨l, rfl, hl⟩
    · refine ⟨l, rest, ?_, fun h => hfront (h.trans (List.suffix_append _ l).isInfix), htags⟩
      rw [List.append_assoc]
      rfl
    · cases l with
      | nil =>
        refine ⟨[], rest, ?_, by decide, htags⟩
        exact hl.symm
      | cons c l =>
        obtain ⟨rfl, -⟩ := List.cons.inj hl
        exact absurd (List.mem_append_right _ List.mem_cons_self) hstem
  · rintro ⟨front, rest, rfl, hfront, htags⟩
    refine ⟨stem ++ front, rest, by simp only [List.append_assoc], fun h => hfront ?_, htags⟩
    refine infix_of_infix_append (fun t ht hne => ?_) h
    obtain ⟨c, t, rfl⟩ := List.exists_cons_of_ne_nil hne
    have hc : c ≠ 124 := by
      rintro rfl
      exact hstem ((List.mem_tails _ _).1 ht |>.subset List.mem_cons_self)
    exact ⟨fun hp => hc (List.cons_prefix_cons.1 hp).1,
      fun hp => hc (List.cons_prefix_cons.1 hp).1.symm⟩

/-- What follows a list is the bracket that closes it, or the one at the end. -/
theorem append_bracket (back : Bytes) :
    ∃ rest, back ++ [93] = back.takeWhile (· ≠ 93) ++ 93 :: rest := by
  induction back with
  | nil => exact ⟨[], rfl⟩
  | cons c back ih =>
    by_cases hc : c = 93
    · subst hc
      exact ⟨back ++ [93], by simp⟩
    · obtain ⟨rest, hrest⟩ := ih
      exact ⟨rest, by simp [hc, hrest]⟩

/-- The list that a key with a bracket at its end opens, when it is cut after `room` bytes. -/
theorem opens_take_iff {s : Bytes} {room : ℕ} :
    Opens ((s ++ [93]).take room) tags ↔ ∃ front back, s = front ++ cstr "|ST[" ++ back ∧
      ¬ cstr "|ST[" <:+: front ∧ front.length + 4 + (back.takeWhile (· ≠ 93)).length < room ∧
      back.takeWhile (· ≠ 93) = tags := by
  have hlength : (cstr "|ST[").length = 4 := rfl
  constructor
  · rintro ⟨front, rest, heq, hfront, htags⟩
    have hlen := congrArg List.length heq
    have hle := List.length_take_le room (s ++ [93])
    simp only [List.length_append, List.length_cons, hlength] at hlen
    have hfull : s ++ [93] = front ++ cstr "|ST[" ++
        (tags ++ 93 :: (rest ++ (s ++ [93]).drop room)) := by
      conv_lhs => rw [← List.take_append_drop room (s ++ [93]), heq]
      simp only [List.append_assoc, List.cons_append]
    rcases List.eq_nil_or_concat (rest ++ (s ++ [93]).drop room) with hnil | ⟨more, c, hmore⟩
    · rw [hnil, ← List.append_assoc] at hfull
      refine ⟨front, tags, List.append_cancel_right hfull, hfront, ?_, ?_⟩
      all_goals
        have htake : tags.takeWhile (· ≠ 93) = tags := by
          simpa using takeWhile_run htags (t := []) (by simp)
        rw [htake]
        try omega
    · rw [hmore, List.concat_eq_append, ← List.cons_append, ← List.append_assoc,
        ← List.append_assoc] at hfull
      have htake := takeWhile_run htags (t := 93 :: more) (by simp)
      refine ⟨front, tags ++ 93 :: more, (List.append_inj' hfull rfl).1.trans ?_, hfront, ?_, htake⟩
      · rw [List.append_assoc]
      · rw [htake]
        omega
  · rintro ⟨front, back, rfl, hfront, hroom, rfl⟩
    obtain ⟨rest, hrest⟩ := append_bracket back
    refine ⟨front, rest.take (room - (front.length + 4 + (back.takeWhile (· ≠ 93)).length + 1)),
      ?_, hfront, notMem_takeWhile_ne 93 back⟩
    have hshort : (front ++ cstr "|ST[" ++ back.takeWhile (· ≠ 93) ++ [93]).length ≤ room := by
      simp only [List.length_append, List.length_singleton, hlength]
      omega
    have hsplit : front ++ cstr "|ST[" ++ back ++ [93] =
        front ++ cstr "|ST[" ++ back.takeWhile (· ≠ 93) ++ [93] ++ rest := by
      rw [List.append_assoc, hrest]
      simp only [List.append_assoc, List.singleton_append]
    rw [hsplit, List.take_append, List.take_of_length_le hshort]
    simp only [List.append_assoc, List.singleton_append, List.length_append, List.length_singleton,
      hlength, Nat.add_assoc]

/-- The key of a name with a constant stem. -/
theorem keyNames_metricName_iff {n : MetricName} (hstem : (124 : UInt8) ∉ n.stem) :
    KeyNames team n.metricName ↔ TextNames team (4094 - n.stem.length) n.text n.tags := by
  have hname : n.metricName = n.stem.take 4094 ++
      ((n.text ++ cstr "|ST[" ++ n.tags) ++ [93]).take (4094 - n.stem.length) := by
    rw [MetricName.metricName, snprintf, MetricName.formatted, ← List.take_append]
    simp only [List.append_assoc]
    rfl
  have hcut : (124 : UInt8) ∉ n.stem.take 4094 := fun h => hstem (List.mem_of_mem_take h)
  unfold KeyNames TextNames
  simp only [hname, opens_append_iff hcut, opens_take_iff]
  constructor
  · rintro ⟨_, ⟨front, back, heq, hfront, hroom, rfl⟩, hnames⟩
    exact ⟨front, back, heq, hfront, hroom, hnames⟩
  · rintro ⟨front, back, heq, hfront, hroom, hnames⟩
    exact ⟨_, ⟨front, back, heq, hfront, hroom, rfl⟩, hnames⟩

/-! ### The teams that a message changes -/

variable {stats : HistStatistics} {owner : BitVec 32} {now timestamp : ℕ} {teams teams' : Teams}
  {key : Bytes} {value : JsonValue} {rest : List (Bytes × ℕ × JsonValue)}

/-- One metric changes the table of the team in the buffer only. -/
theorem processAggregateMessage_cons {b : KeyBuffers} {s : Option Bytes}
    (hkey : parseKey key b = .ok (true, ⟨s, some team⟩))
    (h : processAggregateMessage stats owner now b teams ((key, timestamp, value) :: rest) =
      .ok teams') :
    ∃ mid, (∀ other, other ≠ team → mid.hash other = teams.hash other) ∧
      processAggregateMessage stats owner now ⟨s, some team⟩ mid rest = .ok teams' := by
  rw [processAggregateMessage, hkey] at h
  have hbind : (applyAggregate stats owner now key timestamp value
      (teams.getTeamData team).1.hash >>= fun hash =>
        processAggregateMessage stats owner now ⟨s, some team⟩
          ((teams.getTeamData team).2.insert team { (teams.getTeamData team).1 with hash }) rest) =
      .ok teams' := h
  obtain ⟨hash, -, hrest⟩ := bind_eq_ok.1 hbind
  refine ⟨_, fun other hne => ?_, hrest⟩
  rw [Teams.hash_insert_of_ne hne]
  exact Teams.hash_getTeamData

/-- A message whose keys are all read as one team changes no other team's table. -/
theorem processAggregateMessage_frame {b : KeyBuffers}
    {metrics : List (Bytes × ℕ × JsonValue)}
    (hkeys : ∀ e ∈ metrics, ∀ b, ∃ s, parseKey e.1 b = .ok (true, ⟨some s, some team⟩))
    (h : processAggregateMessage stats owner now b teams metrics = .ok teams') :
    ∀ other, other ≠ team → teams'.hash other = teams.hash other := by
  induction metrics generalizing b teams with
  | nil =>
    obtain rfl : teams = teams' := Except.ok.inj h
    exact fun other _ => rfl
  | cons e metrics ih =>
    obtain ⟨s, hs⟩ := hkeys e List.mem_cons_self b
    obtain ⟨mid, hmid, hrest⟩ := processAggregateMessage_cons hs h
    intro other hne
    rw [ih (fun e he => hkeys e (List.mem_cons_of_mem _ he)) hrest other hne]
    exact hmid other hne

end Tracemate.Process
