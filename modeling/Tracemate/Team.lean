import Tracemate.Metric.Publication
import Tracemate.Metric.Updates

/-!
# Teams

The fields of `team_data_t` that the processing of documents reads, and the table of all teams.

* `TeamData`, `Teams`: the settings and tables of a team, and all teams by name;
* `Teams.getTeamData`: `get_team_data`, which adds a team that is not there.
-/

namespace Tracemate

open CStr Squasher Tracemate.Metric

/-- `service_type_e`. -/
inductive ServiceType
  | unknown
  | transactional
  | message
  | scheduled
  deriving DecidableEq

/-- A `service_info_t`. -/
structure ServiceInfo where
  serviceAgent : Option Bytes
  serviceType : ServiceType
  deriving DecidableEq

/-- A `team_data_t`.  `matcher` are the configured rewrites that compiled. -/
structure TeamData where
  hash : MetricTable
  urls : UrlTables
  serviceData : AList fun _ : Bytes => ServiceInfo
  matcher : List PcreMatcher
  collectHostLevelMetrics : Bool
  collectHostLevelSystem : Bool
  rollupHighCardinality : Bool

/-- What `calloc` and `tm_add_team` make of a new team. -/
def TeamData.new : TeamData := ⟨∅, ⟨∅, ∅⟩, ∅, [], false, false, false⟩

/-- The table `team_metrics`. -/
abbrev Teams := AList fun _ : Bytes => TeamData

/-- `get_team_data`: the team, and the table with it. -/
def Teams.getTeamData (teams : Teams) (team : Bytes) : TeamData × Teams :=
  match teams.lookup team with
  | some td => (td, teams)
  | none => (.new, teams.insert team .new)

/-- The metrics of a team. -/
def Teams.hash (teams : Teams) (team : Bytes) : MetricTable := (teams.getTeamData team).1.hash

variable {teams : Teams} {team other : Bytes}

theorem Teams.hash_insert_self (td : TeamData) : Teams.hash (teams.insert team td) team = td.hash := by
  unfold Teams.hash getTeamData
  rw [AList.lookup_insert]

theorem Teams.hash_insert_of_ne (h : other ≠ team) (td : TeamData) :
    Teams.hash (teams.insert team td) other = teams.hash other := by
  unfold Teams.hash getTeamData
  rw [AList.lookup_insert_ne h]
  cases teams.lookup other <;> rfl

/-- A team that is added has no metrics yet. -/
theorem Teams.hash_getTeamData : (teams.getTeamData team).2.hash other = teams.hash other := by
  unfold getTeamData
  cases hteam : teams.lookup team with
  | some td => rfl
  | none =>
    by_cases h : other = team
    · subst h
      rw [Teams.hash_insert_self]
      simp [Teams.hash, getTeamData, hteam]
    · exact Teams.hash_insert_of_ne h _

end Tracemate
