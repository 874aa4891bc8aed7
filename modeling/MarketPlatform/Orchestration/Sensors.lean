/-
The freshness sensor (`orchestration/sensors.py`).

# One evaluation

An evaluation reads one staleness, in minutes, from the warehouse; the
rows the query returns are its input. There may be none, or a null where
the query finds no trade of the last 24 hours. It skips, or asks for a
run of `dbt_build`, and logs an error when the feed is stale. A run is
asked for under a key made of the staleness alone, so two evaluations
with one staleness ask under one key.

# The daemon

Whether Dagster launches a run for a request is a parameter, `launches`,
of the keys the sensor has used before and the key of the request; the
keys of all earlier requests are kept, whether or not they launched a
run. That a key which was used launches nothing is what Dagster
documents of run keys, and is a hypothesis where it is needed.
-/
import Mathlib.Data.Int.Notation
import Mathlib.Tactic.Common

namespace MarketPlatform.Orchestration

/-- `FRESHNESS_LIMIT_MINUTES`, up to which the feed counts as fresh. -/
def freshnessLimitMinutes : Int := 5

/-- `RunRequest(run_key)`, of the job the sensor is for. -/
structure RunRequest where
  runKey : String
  deriving DecidableEq

/-- What a sensor returns. -/
inductive SensorOutcome where
  | skipReason (message : String)
  | sensorResult (runRequests : List RunRequest)
  deriving DecidableEq

/-- An evaluation: the errors it logs, and what it returns. -/
structure Evaluation where
  errors : List String := []
  outcome : SensorOutcome
  deriving DecidableEq

/-- `rows[0].staleness_min`, if there is one. -/
def staleness (rows : List (Option Int)) : Option Int :=
  rows.head?.join

/-- `feed_freshness_sensor`, its context left out but for the log. -/
def feedFreshnessSensor (rows : List (Option Int)) : Evaluation :=
  match staleness rows with
  | none =>
      { outcome := .skipReason
          ("No trades in the last 24h - the feed has never run or is long "
            ++ "dead.") }
  | some staleness =>
      if staleness > freshnessLimitMinutes then
        { errors := ["Feed stale: no trade published in "
            ++ toString staleness ++ " minutes"]
          outcome := .skipReason ("Feed stale by " ++ toString staleness
            ++ " min - not running dbt on frozen data.") }
      else
        { outcome := .sensorResult [⟨"fresh-" ++ toString staleness⟩] }

/-- The runs an evaluation asks for. -/
def Evaluation.runRequests (e : Evaluation) : List RunRequest :=
  match e.outcome with
  | .skipReason _ => []
  | .sensorResult runRequests => runRequests

-- =============================================================== the daemon

/-- What Dagster keeps of a sensor: the keys it has used, and how many
runs it has launched. -/
structure SensorState where
  usedKeys : List String := []
  launched : Nat := 0

namespace SensorState

variable (launches : List String → String → Bool)

/-- One request: its key is used from then on, and a run may be
launched. -/
def request (s : SensorState) (r : RunRequest) : SensorState where
  usedKeys := s.usedKeys ++ [r.runKey]
  launched := s.launched + if launches s.usedKeys r.runKey then 1 else 0

/-- One evaluation, of what the query returned. -/
def tick (s : SensorState) (rows : List (Option Int)) : SensorState :=
  (feedFreshnessSensor rows).runRequests.foldl (request launches) s

/-- Evaluations in their order. -/
def run (s : SensorState) (readings : List (List (Option Int))) :
    SensorState :=
  readings.foldl (tick launches) s

end SensorState

end MarketPlatform.Orchestration
