import Tracemate.Document
import Tracemate.Process.Timestamp
import Tracemate.Url

/-!
# Names and tags of metrics

The common part of the functions that process a document: `tm_process.c`.

* `Env`: what the functions call that is not part of the model;
* `tmCleanTagValue`, `preProcess`, `buildAggTagString`: the functions;
* `MetricName`: the pieces of a name in the format `"<stem>%s|ST[%s]"`;
* `Effect`: what a function does with a document, one update of the team's table or one call.
-/

namespace Tracemate.Process

open CStr JsonC COutcome Squasher Tracemate.Metric

/-- The libraries, and the settings that are read outside of the modelled functions. -/
structure Env where
  lib : Conversions
  curlEasyUnescape : Bytes → Option Bytes
  chopper : Option PcreMatcher
  mktime : Tm → ℤ
  /-- what the variables of `parse_timestamp` hold in the call -/
  timeStack : TimeStack
  getMetricFlushFrequencyMs : Bytes → ℕ
  getJaegerThresholdUs : Bytes → ℕ
  /-- `trace_transaction_hook_invoke` answers `MTEV_HOOK_ABORT` -/
  traceHookAborts : Bool
  /-- `stats->kafka_lag` -/
  kafkaLag : ℤ
  teams : Teams

/-- `parse_timestamp`, called for the document. -/
def Env.parseTimestamp (env : Env) (ts : Bytes) : ℕ :=
  Process.parseTimestamp env.mktime env.timeStack ts

/-- `get_team_data`. -/
def Env.getTeamData (env : Env) (team : Bytes) : TeamData := (env.teams.getTeamData team).1

/-! ### Tags -/

/-- `vtagmap_value`. -/
def vtagmapValue (c : UInt8) : Bool :=
  (33 ≤ c && c ≤ 39) || (45 ≤ c && c ≤ 58) || c = 61 || (63 ≤ c && c ≤ 90) || (94 ≤ c && c ≤ 122)

/-- `tm_clean_tag_value`. -/
def tmCleanTagValue (tag : Bytes) : Bytes := tag.map fun c => if vtagmapValue c then c else 95

/-- `%s`, which prints a null pointer as well. -/
def printS (s : Option Bytes) : Bytes := s.getD (cstr "(null)")

/-- The tag of one member of the object that describes the host, cleaned. -/
def hostTag (tag : Bytes) (value : Option Bytes) : Bytes :=
  match value with
  | none => []
  | some value => cstr "," ++ tag ++ tmCleanTagValue value

/-- The object of a document that describes its host. -/
def hostObject (lib : Conversions) (m : Option Json) : Option Json :=
  if tmApmServerMajorVersion lib m = 6 then
    Json.get (cstr "system") (Json.get (cstr "context") m)
  else Json.get (cstr "host") m

/-- What `pre_process` writes to its arguments. -/
structure Prepared where
  team : Bytes
  tagString : Bytes
  timestamp : ℕ

/-- The text that `pre_process` writes to `tag_string`. -/
def tagStringOf (lib : Conversions) (m : Option Json) (serviceName : Bytes) : Bytes :=
  let host := hostObject lib m
  cstr "service:" ++ serviceName ++
    hostTag (cstr "host:") (lib.getString (Json.get (cstr "hostname") host)) ++
    hostTag (cstr "ip:") (lib.getString (Json.get (cstr "ip") host))

section Document

variable (env : Env) (m : Option Json)

/-- `pre_process`: `none` is a null pointer, for a document that cannot be processed.  The buffers
are `team[128]`, `sn[256]` and `tag_string[3172]`. -/
def preProcess : Outcome (Option Prepared) :=
  if tmApmServerMajorVersion env.lib m < 6 then .ok none
  else
    match tmServiceName env.lib m with
    | none => .ok none
    | some serviceName =>
      match tmGetTeam (some serviceName) with
      | none => .ok none
      | some team => do
        let team ← fitting 128 team
        let _ ← fitting 256 (serviceName.drop (team.length + 1))
        let ts ← nonNull (env.lib.getString (Json.get (cstr "@timestamp") m))
        let tagString ← fitting 3172 (tagStringOf env.lib m serviceName)
        .ok (some ⟨team, tagString, env.parseTimestamp ts⟩)

/-- The text that `build_agg_tag_string` writes. -/
def aggTagStringOf (serviceName : Bytes) : Bytes :=
  cstr "service:" ++ serviceName ++ cstr ",host:all,ip:all"

/-- `build_agg_tag_string`, into `agg_tag_string[2048]`. -/
def buildAggTagString : Outcome Bytes :=
  fitting 2048 (aggTagStringOf (printS (tmServiceName env.lib m)))

end Document

/-! ### Names -/

/-- The pieces of the name of a metric. -/
structure MetricName where
  stem : Bytes
  text : Bytes
  tags : Bytes
  deriving DecidableEq

/-- The formatted name. -/
def MetricName.formatted (n : MetricName) : Bytes :=
  n.stem ++ n.text ++ cstr "|ST[" ++ n.tags ++ cstr "]"

/-- What `snprintf(metric_name, sizeof(metric_name) - 1, …)` leaves in `metric_name[4096]`. -/
def MetricName.metricName (n : MetricName) : Bytes := snprintf 4095 n.formatted

/-! ### Effects -/

/-- A call of a function `update_…`. -/
structure NamedUpdate where
  name : MetricName
  aggregate : Bool
  update : Update
  timestamp : ℕ
  deriving DecidableEq

/-- The key under which the entry is looked up. -/
def NamedUpdate.key (u : NamedUpdate) : MetricKey :=
  { makeMetricKey u.name.metricName u.timestamp with
    aggregate := u.aggregate
    immediateFlush := match u.update with
      | .histogram _ => false
      | .text _ => true
      | _ => !u.aggregate }

/-- What is done with a document. -/
inductive Effect
  | update (u : NamedUpdate)
  /-- `mtev_hash_replace` of an entry that is flushed at once -/
  | replace (name : MetricName) (timestamp : ℕ) (metric : Payload)
  | serviceType (serviceName : Bytes) (type : ServiceType)
  | serviceAgent (serviceName agent : Bytes)
  | sendUrl (serviceName url : Bytes)
  | addChild (traceId : Bytes)
  | markTraceable (traceId : Bytes)
  | put (traceId url : Bytes)
  | messagesErrored
  | messagesFiltered
  deriving DecidableEq

namespace Effect

/-- All calls of `update_histogram` are for aggregates. -/
def updateHistogram (name : MetricName) (durationUs timestamp : ℕ) : Effect :=
  .update ⟨name, true, .histogram durationUs, timestamp⟩

def updateCounter (name : MetricName) (aggregate : Bool) (count timestamp : ℕ) : Effect :=
  .update ⟨name, aggregate, .counter (BitVec.ofNat 64 count), timestamp⟩

def updateText (name : MetricName) (text : Bytes) (timestamp : ℕ) : Effect :=
  .update ⟨name, false, .text text, timestamp⟩

def updateNumeric (name : MetricName) (aggregate : Bool) (value : ℚ) (timestamp : ℕ) : Effect :=
  .update ⟨name, aggregate, .numeric value, timestamp⟩

def updateAverage (name : MetricName) (aggregate : Bool) (value : ℚ) (timestamp : ℕ) : Effect :=
  .update ⟨name, aggregate, .average value, timestamp⟩

end Effect

/-- `center_timestamp`, which divides by the frequency. -/
def centerTimestamp (ms flushFreqMs : ℕ) : Outcome ℕ :=
  if flushFreqMs = 0 then .error .crash
  else .ok ((ms - ms % flushFreqMs + flushFreqMs / 2) % 2 ^ 64)

/-- The variable `rollup`. -/
def rollupTag (td : TeamData) : Bytes :=
  if td.rollupHighCardinality then [] else cstr ",__rollup:false"

end Tracemate.Process
