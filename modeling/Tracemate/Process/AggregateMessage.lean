import Tracemate.Metric.Readback
import Tracemate.Process.Fleet
import Tracemate.Process.RegexMessage
import Tracemate.Process.Rollups

/-!
# Aggregates by way of Kafka

A flush prints an aggregate into a message, and `process_aggregate_message` takes it out of the JSON
value that a parser makes of the message.

* `aggregateText`: the bytes of the message;
* `foreachMember`: the members of an object in the order in which the loop comes across them;
* `readMetric`, `processAggregateJson`: the reading of one member, and `process_aggregate_message`
  over the JSON value of a message;
* `parse_aggregateText`: what the parser makes of a message;
* `aggregate_survives`: the message is merged as the metric that was sent;
* `run_of_aggregateText`: the merge of the bytes is a run of the fleet.
-/

namespace Tracemate.Process

open CStr JsonC COutcome Outcome Tracemate.Metric Runs

/-! ### The two sides -/

/-- The message of an aggregate. -/
def aggregateText (p : Printing) (j : MetricJson) : Bytes :=
  cstr "\x7b" ++ cstr "\"processor\":\x7b\"event\": \"aggregate\"\x7d," ++
    cstr "\"context\":\x7b\x7d," ++ metricText p j ++ cstr "\x7d"

/-- `mtev_json_object_object_add`: an older member of the same name goes. -/
def addMember (ms : List (Bytes × Json)) (m : Bytes × Json) : List (Bytes × Json) :=
  ms.filter (fun n => n.1 ≠ m.1) ++ [m]

/-- The members in the order of `mtev_json_object_object_foreach`, with the names as C strings. -/
def foreachMember (members : List (Bytes × Json)) : List (Bytes × Json) :=
  members.foldr (fun m ms => addMember ms (strAt m.1, m.2)) []

section Read

variable (lib : Conversions) (deserializeB64 : Bytes → Multiset ℕ)

/-- The branches over the type of a metric, from its members: its timestamp and its value. -/
def readMembers (type ts value count : Option Json) : Outcome (ℕ × JsonValue) := do
  let s ← nonNull (cString lib type)
  let timestamp := lib.getUint64 ts
  match s.head? with
  | some 104 => do
    let b64 ← nonNull (cString lib value)
    return (timestamp, .histogram (deserializeB64 b64))
  | some 76 => return (timestamp, .integer (BitVec.ofNat 64 (lib.getUint64 value)))
  | some 110 =>
    return (timestamp, .number (lib.getDouble value) (some (BitVec.ofInt 32 (lib.getInt count))))
  -- nothing is merged for any other type
  | _ => return (timestamp, .text [])

/-- What is read of the value of a member. -/
def readMetric (val : Option Json) : Outcome (ℕ × JsonValue) :=
  readMembers lib deserializeB64 (Json.get (cstr "_type") val) (Json.get (cstr "_ts") val)
    (Json.get (cstr "_value") val) (Json.get (cstr "_count") val)

variable (stats : HistStatistics) (owner : BitVec 32) (now : ℕ)

/-- The loop over the members. -/
def processMembers (buffers : KeyBuffers) (teams : Teams) : List (Bytes × Json) → Outcome Teams
  | [] => .ok teams
  | (key, val) :: rest =>
    if key = cstr "processor" ∨ key = cstr "context" then processMembers buffers teams rest
    else do
      let (accepted, buffers) ← parseKey key buffers
      if accepted then
        let team ← written buffers.team
        let (td, teams) := teams.getTeamData team
        let (timestamp, value) ← readMetric lib deserializeB64 val.pointer
        let hash ← applyAggregate stats owner now key timestamp value td.hash
        processMembers buffers (teams.insert team { td with hash }) rest
      else processMembers buffers teams rest

/-- `process_aggregate_message`. -/
def processAggregateJson (buffers : KeyBuffers) (teams : Teams) : Json → Outcome Teams
  | .obj members =>
    processMembers lib deserializeB64 stats owner now buffers teams (foreachMember members)
  -- the macro reads the value as an object
  | _ => .error .outOfBounds

end Read

/-! ### The text of a message -/

theorem cstr_processorEvent : cstr "\"processor\":\x7b\"event\": \"aggregate\"\x7d," =
    34 :: (cstr "processor" ++ 34 :: 58 :: 123 :: 34 :: (cstr "event" ++
      34 :: 58 :: 32 :: 34 :: (cstr "aggregate" ++ [34, 125, 44]))) := by
  decide

theorem cstr_emptyContext : cstr "\"context\":\x7b\x7d," =
    34 :: (cstr "context" ++ [34, 58, 123, 125, 44]) := by
  decide

/-- What the parser makes of a message. -/
theorem parse_aggregateText {p : Printing} {j : MetricJson} (h : p.Readable j.value) :
    parseJson (aggregateText p j) = some (.obj [metricMember p j, (cstr "context", .obj []),
      (cstr "processor", .obj [(cstr "event", .str (cstr "aggregate"))])]) := by
  have hprocessor := decodeString_literal (s := "processor") (by decide)
  have hevent := decodeString_literal (s := "event") (by decide)
  have haggregate := decodeString_literal (s := "aggregate") (by decide)
  have hcontext := decodeString_literal (s := "context") (by decide)
  have hopen : cstr "\x7b" = [123] := by decide
  rw [parseJson, aggregateText, cstr_processorEvent, cstr_emptyContext, hopen, cstr_closeMetric]
  simp only [List.append_assoc, List.cons_append, List.nil_append]
  rw [run_openObject, run_firstName hprocessor, run_openObject, run_firstName hevent, run_space,
    run_quote, run_memberString haggregate, run_closeMember, run_nextName hcontext,
    run_emptyMember, run_nextMetric h, run_closeLast]
  rfl

/-! ### Reading back -/

/-- The conversions of numbers that have the type that is asked for, and of a missing one. -/
structure ExactNumbers (lib : Conversions) : Prop where
  uint64 : ∀ n : ℕ, n < 2 ^ 64 → lib.getUint64 (some (.int n)) = n
  int : ∀ i : ℤ, -2 ^ 31 ≤ i → i < 2 ^ 31 → lib.getInt (some (.int i)) = i
  missing : lib.getInt none = 0

/-- The number that `%g` prints and the histogram that `hist_serialize_b64` writes are read back. -/
def ReadsBack (p : Printing) (lib : Conversions) (deserializeB64 : Bytes → Multiset ℕ) :
    JsonValue → Prop
  | .number value _ => ∀ j, decodeNumber (p.printG value) = some j → lib.getDouble (some j) = value
  | .histogram value => deserializeB64 (p.serializeB64 value) = value
  | _ => True

/-- What is merged of a value: a text is not. -/
def merged : JsonValue → JsonValue
  | .number value count => .number value (some (count.getD 0))
  | .text _ => .text []
  | .integer value => .integer value
  | .histogram value => .histogram value

theorem exactNumbers_reference : ExactNumbers reference := ⟨fun _ _ => rfl, fun _ _ _ => rfl, rfl⟩

section ReadBack

variable {p : Printing} {lib : Conversions} {deserializeB64 : Bytes → Multiset ℕ}

theorem pointer_decodeNumber {text : Bytes} {j : Json} (h : decodeNumber text = some j) :
    j.pointer = some j := by
  unfold decodeNumber at h
  dsimp only at h
  split_ifs at h
  · cases h
  obtain ⟨-, -, h⟩ := Option.bind_eq_some_iff.1 h
  obtain ⟨⟨frac, t⟩, -, h⟩ := Option.bind_eq_some_iff.1 h
  obtain ⟨e, -, h⟩ := Option.bind_eq_some_iff.1 h
  cases e with
  | none =>
    dsimp only at h
    split_ifs at h
    · obtain rfl := Option.some.inj h
      rfl
    · obtain rfl := Option.some.inj h
      rfl
  | some e =>
    obtain rfl := Option.some.inj h
    rfl

theorem cString_literal (lib : Conversions) {s : Bytes} (h : (0 : UInt8) ∉ s) :
    nonNull (cString lib (some (.str s))) = .ok s := by
  show nonNull (some (strAt s)) = _
  rw [strAt_of_notMem h]
  rfl

theorem ofInt_getInt (hlib : ExactNumbers lib) (c : BitVec 32) :
    BitVec.ofInt 32 (lib.getInt (some (.int c.toInt))) = c := by
  rw [hlib.int _ (by simpa using c.le_toInt) (by simpa using c.toInt_lt), BitVec.ofInt_toInt]

/-- A metric is read back as it was printed. -/
theorem readMetric_member (hlib : ExactNumbers lib) (owner : BitVec 32) {ts : ℕ}
    (hts : ts < 2 ^ 64) {value : JsonValue} (hread : p.Readable value)
    (hback : ReadsBack p lib deserializeB64 value) :
    readMetric lib deserializeB64 (some (.obj (valueMembers p owner ts value))) =
      .ok (ts, merged value) := by
  have htimestamp := hlib.uint64 ts hts
  unfold readMetric
  cases value with
  | number value count =>
    obtain ⟨-, hsome⟩ := hread
    obtain ⟨j, hj⟩ := Option.isSome_iff_exists.1 hsome
    have hpointer := pointer_decodeNumber hj
    have hdouble := hback j hj
    unfold valueMembers
    dsimp only
    rw [hj, Option.getD_some]
    cases count with
    | none =>
      show readMembers lib deserializeB64 (some (.str (cstr "n"))) (some (.int ts)) j.pointer none =
        _
      rw [readMembers, cString_literal lib (by decide), hpointer]
      show Except.ok (lib.getUint64 (some (.int ts)),
        JsonValue.number (lib.getDouble (some j)) (some (BitVec.ofInt 32 (lib.getInt none)))) = _
      rw [htimestamp, hdouble, hlib.missing]
      rfl
    | some count =>
      show readMembers lib deserializeB64 (some (.str (cstr "n"))) (some (.int ts)) j.pointer
        (some (.int count.toInt)) = _
      rw [readMembers, cString_literal lib (by decide), hpointer]
      show Except.ok (lib.getUint64 (some (.int ts)), JsonValue.number (lib.getDouble (some j))
        (some (BitVec.ofInt 32 (lib.getInt (some (.int count.toInt)))))) = _
      rw [htimestamp, hdouble, ofInt_getInt hlib]
      rfl
  | text value =>
    show readMembers lib deserializeB64 (some (.str (cstr "s"))) (some (.int ts))
      (some (.str value)) none = _
    rw [readMembers, cString_literal lib (by decide)]
    show Except.ok (lib.getUint64 (some (.int ts)), JsonValue.text []) = _
    rw [htimestamp]
    rfl
  | integer value =>
    show readMembers lib deserializeB64 (some (.str (cstr "L"))) (some (.int ts))
      (some (.int value.toNat)) none = _
    rw [readMembers, cString_literal lib (by decide)]
    show Except.ok (lib.getUint64 (some (.int ts)),
      JsonValue.integer (BitVec.ofNat 64 (lib.getUint64 (some (.int value.toNat))))) = _
    rw [htimestamp, hlib.uint64 _ value.isLt, BitVec.ofNat_toNat, BitVec.setWidth_eq]
    rfl
  | histogram value =>
    show readMembers lib deserializeB64 (some (.str (cstr "h"))) (some (.int ts))
      (some (.str (p.serializeB64 value))) none = _
    have hzero : (0 : UInt8) ∉ p.serializeB64 value := fun h0 => absurd (hread 0 h0) (by decide)
    rw [readMembers, cString_literal lib (by decide)]
    show nonNull (cString lib (some (.str (p.serializeB64 value)))) >>= (fun b64 =>
      Except.ok (lib.getUint64 (some (.int ts)), JsonValue.histogram (deserializeB64 b64))) = _
    rw [cString_literal lib hzero]
    show Except.ok (lib.getUint64 (some (.int ts)),
      JsonValue.histogram (deserializeB64 (p.serializeB64 value))) = _
    rw [htimestamp, hback]
    rfl

end ReadBack

/-! ### The merge of a message -/

section Merge

variable {p : Printing} {lib : Conversions} {deserializeB64 : Bytes → Multiset ℕ}
  {stats : HistStatistics} {owner : BitVec 32} {now : ℕ} {buffers : KeyBuffers} {teams : Teams}
  {j : MetricJson}

theorem applyAggregate_merged (name : Bytes) (ts : ℕ) (value : JsonValue) (t : MetricTable) :
    applyAggregate stats owner now name ts (merged value) t =
      applyAggregate stats owner now name ts value t := by
  cases value <;> rfl

/-- A name without tags is skipped. -/
theorem parseKey_of_noTags {name : Bytes} (h : ¬ cstr "|ST[" <:+: name) :
    parseKey name buffers = .ok (false, buffers) := by
  unfold parseKey
  rw [strstr_eq_none_iff.2 h]

/-- The loop over the members of a message: the fields that make it look like a document are
skipped, and the metric is merged. -/
theorem processMembers_aggregate {name : Bytes} {ts : ℕ} {value : JsonValue} {val : Json}
    (hname : (0 : UInt8) ∉ name)
    (hval : readMetric lib deserializeB64 val.pointer = .ok (ts, merged value))
    (c d : Json) :
    processMembers lib deserializeB64 stats owner now buffers teams
        (foreachMember [(name, val), (cstr "context", c), (cstr "processor", d)]) =
      processAggregateMessage stats owner now buffers teams [(name, ts, value)] := by
  have hne : cstr "processor" ≠ cstr "context" := by decide
  have hfirst : foreachMember [(cstr "context", c), (cstr "processor", d)] =
      [(cstr "processor", d), (cstr "context", c)] := by
    have hcontext : strAt (cstr "context") = cstr "context" := strAt_of_notMem (by decide)
    have hprocessor : strAt (cstr "processor") = cstr "processor" := strAt_of_notMem (by decide)
    simp [foreachMember, addMember, hcontext, hprocessor, hne]
  have hmembers : foreachMember [(name, val), (cstr "context", c), (cstr "processor", d)] =
      addMember [(cstr "processor", d), (cstr "context", c)] (name, val) := by
    rw [← hfirst, foreachMember, List.foldr_cons, strAt_of_notMem hname]
    rfl
  rw [hmembers, processAggregateMessage]
  by_cases hskip : name = cstr "processor" ∨ name = cstr "context"
  · have hnoTags : ¬ cstr "|ST[" <:+: name := by
      rcases hskip with rfl | rfl
      · decide
      · decide
    rw [parseKey_of_noTags hnoTags]
    rcases hskip with rfl | rfl
    · simp [addMember, hne.symm, processMembers, processAggregateMessage, bind, Except.bind]
    · simp [addMember, hne, processMembers, processAggregateMessage, bind, Except.bind]
  · obtain ⟨hprocessor, hcontext⟩ := not_or.1 hskip
    have hadd : addMember [(cstr "processor", d), (cstr "context", c)] (name, val) =
        [(cstr "processor", d), (cstr "context", c), (name, val)] := by
      simp [addMember, Ne.symm hprocessor, Ne.symm hcontext]
    rw [hadd, processMembers, if_pos (.inl rfl), processMembers, if_pos (.inr rfl), processMembers,
      if_neg hskip]
    cases hkey : parseKey name buffers with
    | error e => rfl
    | ok r =>
      obtain ⟨accepted, b⟩ := r
      cases accepted with
      | false => rfl
      | true =>
        show (written b.team >>= fun team => readMetric lib deserializeB64 val.pointer >>= _) = _
        rw [hval]
        show (written b.team >>= fun team =>
          applyAggregate stats owner now name ts (merged value) _ >>= _) = _
        simp only [applyAggregate_merged]
        rfl

/-- **Aggregates by way of Kafka.**  Whatever the metric, the text of its message is a JSON text, and
`process_aggregate_message` merges its value into the tables just as the metric itself is merged. -/
theorem aggregate_survives (hlib : ExactNumbers lib) (hts : j.ts < 2 ^ 64)
    (hname : (0 : UInt8) ∉ j.metricName) (hread : p.Readable j.value)
    (hback : ReadsBack p lib deserializeB64 j.value) :
    ∃ msg, parseJson (aggregateText p j) = some msg ∧
      ∀ stats owner now buffers teams,
        processAggregateJson lib deserializeB64 stats owner now buffers teams msg =
          processAggregateMessage stats owner now buffers teams [(j.metricName, j.ts, j.value)] := by
  refine ⟨_, parse_aggregateText hread, fun stats owner now buffers teams => ?_⟩
  exact processMembers_aggregate hname (readMetric_member hlib j.owner hts hread hback) _ _

end Merge

/-! ### Runs of the fleet -/

/-- The conditions under which a metric survives: its timestamp is a `uint64_t` and its name a C
string, and its value is printed and read back. -/
structure Carries (p : Printing) (lib : Conversions) (deserializeB64 : Bytes → Multiset ℕ)
    (j : MetricJson) : Prop where
  ts : j.ts < 2 ^ 64
  name : (0 : UInt8) ∉ j.metricName
  readable : p.Readable j.value
  readsBack : ReadsBack p lib deserializeB64 j.value

/-! ### A number and a histogram -/

/-- `%g` prints `2.5`, and `hist_serialize_b64` writes the two bins of `5` and `7`. -/
def twoValues : Printing where
  printG value := if value = 5 / 2 then cstr "2.5" else cstr "0"
  serializeB64 value := if value = {5, 7} then cstr "AAIyAAABRgAAAQ==" else cstr "AAA="

def readTwoValues (b64 : Bytes) : Multiset ℕ :=
  if b64 = cstr "AAIyAAABRgAAAQ==" then {5, 7} else 0

/-- An average of a service. -/
def heapMessage : MetricJson :=
  ⟨cstr "jvm - memory - heap - used|ST[service:a-b]", 1, 1553101770000, .number (5 / 2) (some 2)⟩

/-- The latencies of the service. -/
def latencyMessage : MetricJson :=
  ⟨cstr "transaction - latency - all|ST[service:a-b]", 1, 1553101770000, .histogram {5, 7}⟩

theorem carries_heapMessage : Carries twoValues reference readTwoValues heapMessage where
  ts := by decide
  name := by decide
  readable := by
    have hprint : twoValues.printG (5 / 2) = [50, 46, 53] := by decide +kernel
    have hbytes : ∀ c ∈ twoValues.printG (5 / 2), inNumber c = true := by
      rw [hprint]
      exact List.all_eq_true.1 (by decide)
    exact ⟨⟨hbytes, ⟨50, [46, 53], hprint, .inr rfl⟩⟩, by decide +kernel⟩
  readsBack := by
    intro j hj
    have hdecode : (decodeNumber (twoValues.printG (5 / 2))).map
        (fun j => reference.getDouble (some j)) = some (5 / 2) := by decide +kernel
    rw [hj] at hdecode
    exact Option.some.inj hdecode

theorem carries_latencyMessage : Carries twoValues reference readTwoValues latencyMessage where
  ts := by decide
  name := by decide
  readable := by
    show ∀ c ∈ twoValues.serializeB64 {5, 7}, needsEscape c = false
    decide +kernel
  readsBack := by
    show readTwoValues (twoValues.serializeB64 {5, 7}) = {5, 7}
    decide +kernel

theorem aggregate_survives_two :
    (∃ msg, parseJson (aggregateText twoValues heapMessage) = some msg ∧
      ∀ stats owner now buffers teams,
        processAggregateJson reference readTwoValues stats owner now buffers teams msg =
          processAggregateMessage stats owner now buffers teams
            [(heapMessage.metricName, heapMessage.ts, heapMessage.value)]) ∧
      ∃ msg, parseJson (aggregateText twoValues latencyMessage) = some msg ∧
        ∀ stats owner now buffers teams,
          processAggregateJson reference readTwoValues stats owner now buffers teams msg =
            processAggregateMessage stats owner now buffers teams
              [(latencyMessage.metricName, latencyMessage.ts, latencyMessage.value)] :=
  ⟨aggregate_survives exactNumbers_reference carries_heapMessage.ts carries_heapMessage.name
      carries_heapMessage.readable carries_heapMessage.readsBack,
    aggregate_survives exactNumbers_reference carries_latencyMessage.ts
      carries_latencyMessage.name carries_latencyMessage.readable
      carries_latencyMessage.readsBack⟩

section Consume

variable (lib : Conversions) (deserializeB64 : Bytes → Multiset ℕ) (stats : HistStatistics)
  (owner : BitVec 32)

/-- An instance merges the messages that it reads, each at a reading of the clock; what is no JSON
text is dropped. -/
def mergeAll : List (ℕ × Bytes) → Teams → Outcome Teams
  | [], teams => .ok teams
  | (now, payload) :: rest, teams =>
    match parseJson payload with
    | none => mergeAll rest teams
    | some msg => do
      let teams ← processAggregateJson lib deserializeB64 stats owner now .unwritten teams msg
      mergeAll rest teams

variable {lib deserializeB64 stats owner} {p : Printing} {message : MetricJson}

/-- The first of the messages is merged as its metric. -/
theorem mergeAll_aggregateText (hlib : ExactNumbers lib)
    (hcarries : Carries p lib deserializeB64 message) (now : ℕ) (payloads : List (ℕ × Bytes))
    (teams : Teams) :
    mergeAll lib deserializeB64 stats owner ((now, aggregateText p message) :: payloads) teams =
      processAggregateMessage stats owner now .unwritten teams
          [(message.metricName, message.ts, message.value)] >>=
        mergeAll lib deserializeB64 stats owner payloads := by
  rw [mergeAll, parse_aggregateText hcarries.readable]
  exact congrArg (· >>= _) (processMembers_aggregate hcarries.name
    (readMetric_member hlib message.owner hcarries.ts hcarries.readable hcarries.readsBack) _ _)

end Consume

section Fleets

variable {ι κ : Type} [DecidableEq κ]

/-- The tables of a fleet in which each instance has a table for each team, when instance `i` has
these teams. -/
def setTeams (i : κ) (teams : Teams) (table : κ × Bytes → MetricTable) :
    κ × Bytes → MetricTable := fun k => if k.1 = i then teams.hash k.2 else table k

variable {tableOf : ι → κ × Bytes} {owner : ι → BitVec 32} {jsonLength : List MetricJson → ℕ}
  {stats : HistStatistics} {f : Fleet ι (κ × Bytes)} {i : κ} {o : ι} {now : ℕ}
  {teams teams' : Teams} {message : MetricJson}

theorem setTeams_self (h : ∀ team, f.table (i, team) = teams.hash team) :
    setTeams i teams f.table = f.table := by
  funext k
  unfold setTeams
  split_ifs with hk
  · rw [← h, ← hk]
  · rfl

theorem setTeams_setTeams (i : κ) (teams teams' : Teams) (table : κ × Bytes → MetricTable) :
    setTeams i teams' (setTeams i teams table) = setTeams i teams' table := by
  funext k
  unfold setTeams
  split_ifs <;> rfl

variable [DecidableEq ι]

/-- The merge of one metric is a run. -/
theorem run_of_message {sender : ι} (hmem : message ∈ (f.flush sender).topic)
    (hteams : ∀ team, f.table (i, team) = teams.hash team) {buffers : KeyBuffers}
    (h : processAggregateMessage stats (owner o) now buffers teams
      [(message.metricName, message.ts, message.value)] = .ok teams') :
    ∃ tr, Run (Fleet.Step tableOf owner jsonLength) f tr
      { f with table := setTeams i teams' f.table } := by
  rw [processAggregateMessage] at h
  obtain ⟨⟨accepted, b⟩, -, h⟩ := bind_eq_ok.1 h
  cases accepted with
  | false =>
    obtain rfl : teams = teams' := Except.ok.inj h
    rw [setTeams_self hteams]
    exact ⟨[], .nil⟩
  | true =>
    obtain ⟨team, -, h⟩ := bind_eq_ok.1 h
    have happly : (applyAggregate stats (owner o) now message.metricName message.ts message.value
        (teams.getTeamData team).1.hash >>= fun hash => processAggregateMessage stats (owner o) now
          b ((teams.getTeamData team).2.insert team { (teams.getTeamData team).1 with hash }) []) =
        .ok teams' := h
    obtain ⟨hash, hhash, h⟩ := bind_eq_ok.1 happly
    obtain rfl := Except.ok.inj h
    have htable : applyAggregate stats (owner o) now message.metricName message.ts message.value
        (f.table (i, team)) = .ok hash := by
      rw [hteams]
      exact hhash
    obtain ⟨tr, hrun⟩ := @Fleet.run_of_applyAggregate _ _ tableOf owner jsonLength f _ _ _ _ _ _
      _ _ _ _ hmem (decodeString_jsonEscapeStr _) htable
    refine ⟨tr, ?_⟩
    -- the table of the team is the one that has changed
    have hset : setTeams i ((teams.getTeamData team).2.insert team
        { (teams.getTeamData team).1 with hash }) f.table =
        Function.update f.table (i, team) hash := by
      funext k
      obtain ⟨i', other⟩ := k
      unfold setTeams
      by_cases hi : i' = i
      · subst hi
        rw [if_pos rfl]
        by_cases hother : other = team
        · subst hother
          rw [Teams.hash_insert_self, Function.update_self]
        · rw [Teams.hash_insert_of_ne hother, Teams.hash_getTeamData, ← hteams,
            Function.update_of_ne fun heq => hother (Prod.mk.inj heq).2]
      · rw [if_neg hi, Function.update_of_ne fun heq => hi (Prod.mk.inj heq).1]
    rw [hset]
    exact hrun

/-- **The bytes of the topic.**  When an instance merges messages that flushes of the fleet have
printed, any number of times and in any order, its tables change as in a run of the fleet, whose
messages are no bytes. -/
theorem run_of_mergeAll {p : Printing} {lib : Conversions} {deserializeB64 : Bytes → Multiset ℕ}
    (hlib : ExactNumbers lib) {payloads : List (ℕ × Bytes)}
    (hsent : ∀ e ∈ payloads, ∃ sender message, message ∈ (f.flush sender).topic ∧
      e.2 = aggregateText p message ∧ Carries p lib deserializeB64 message)
    (hteams : ∀ team, f.table (i, team) = teams.hash team)
    (h : mergeAll lib deserializeB64 stats (owner o) payloads teams = .ok teams') :
    ∃ tr, Run (Fleet.Step tableOf owner jsonLength) f tr
      { f with table := setTeams i teams' f.table } := by
  induction payloads generalizing f teams with
  | nil =>
    obtain rfl : teams = teams' := Except.ok.inj h
    rw [setTeams_self hteams]
    exact ⟨[], .nil⟩
  | cons e payloads ih =>
    obtain ⟨now, payload⟩ := e
    obtain ⟨hfirst, hrest⟩ := List.forall_mem_cons.1 hsent
    obtain ⟨sender, message, hmem, rfl, hcarries⟩ := hfirst
    rw [mergeAll_aggregateText hlib hcarries] at h
    obtain ⟨teams₁, hmessage, h⟩ := bind_eq_ok.1 h
    obtain ⟨tr, hrun⟩ := run_of_message hmem hteams hmessage
    obtain ⟨tr', hrun'⟩ := ih (f := { f with table := setTeams i teams₁ f.table }) hrest
      (fun team => if_pos rfl) h
    dsimp only at hrun'
    rw [setTeams_setTeams] at hrun'
    exact ⟨tr ++ tr', hrun.append hrun'⟩

/-- A fleet of one flush and one instance, whose flush has sent the two messages. -/
def twoSent : Fleet Unit (Unit × Bytes) :=
  ⟨fun _ => ∅, fun _ => { World.start with topic := [heapMessage, latencyMessage] }⟩

/-- The two messages as they are read. -/
def twoPayloads : List (ℕ × Bytes) :=
  [(30000, aggregateText twoValues heapMessage), (30500, aggregateText twoValues latencyMessage)]

/-- Both messages are merged into empty tables. -/
theorem exists_mergeAll_two :
    ∃ teams', mergeAll reference readTwoValues sampleStatistics 7 twoPayloads ∅ = .ok teams' := by
  unfold twoPayloads
  rw [mergeAll_aggregateText exactNumbers_reference carries_heapMessage]
  obtain ⟨teams', hteams'⟩ := exists_ok_of_isSome (x := processAggregateMessage sampleStatistics 7
    30000 .unwritten ∅ [(heapMessage.metricName, heapMessage.ts, heapMessage.value)] >>=
      fun teams => processAggregateMessage sampleStatistics 7 30500 .unwritten teams
        [(latencyMessage.metricName, latencyMessage.ts, latencyMessage.value)]) (by decide +kernel)
  obtain ⟨teams, hfirst, hsecond⟩ := bind_eq_ok.1 hteams'
  refine ⟨teams', bind_eq_ok.2 ⟨teams, hfirst, ?_⟩⟩
  rw [mergeAll_aggregateText exactNumbers_reference carries_latencyMessage]
  exact bind_eq_ok.2 ⟨teams', hsecond, rfl⟩

theorem run_of_mergeAll_two :
    ∃ teams' tr, mergeAll reference readTwoValues sampleStatistics 7 twoPayloads ∅ = .ok teams' ∧
      Run (Fleet.Step (fun _ => ((), cstr "a")) (fun _ => 7) fun _ => 0) twoSent tr
        { twoSent with table := setTeams () teams' twoSent.table } := by
  obtain ⟨teams', hteams'⟩ := exists_mergeAll_two
  have hsent : ∀ e ∈ twoPayloads, ∃ sender message, message ∈ (twoSent.flush sender).topic ∧
      e.2 = aggregateText twoValues message ∧
        Carries twoValues reference readTwoValues message :=
    List.forall_mem_cons.2 ⟨⟨(), heapMessage, List.mem_cons_self, rfl, carries_heapMessage⟩,
      List.forall_mem_singleton.2 ⟨(), latencyMessage,
        List.mem_cons_of_mem _ (List.mem_singleton_self _), rfl, carries_latencyMessage⟩⟩
  obtain ⟨tr, hrun⟩ := @run_of_mergeAll _ _ _ (fun _ => ((), cstr "a")) (fun _ => 7)
    (fun _ => 0) _ twoSent () () _ _ _ _ _ _ exactNumbers_reference _ hsent (fun _ => rfl) hteams'
  exact ⟨teams', tr, hteams', hrun⟩

end Fleets

end Tracemate.Process
