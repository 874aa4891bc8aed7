/-
The in-process tallies (`consumer/metrics.py`).

# The counters

`Counters`, the two operations the message handlers call, and the
snapshot the reporter flushes; a lag sample is exact milliseconds. The
tallies that the handlers write directly are fields and nothing else. A
snapshot is a list of names and values in the order of the source's
dict: the tallies, the channels in the order in which each was first
counted, and the percentiles, which are left out while there is no
sample.

# Percentiles

The index of a percentile is the whole part of the exact product of the
share and the length; no caller's share is negative. The source computes
the product in double precision. For the three shares it asks for and at
most 10,000 samples the whole part is the same: a product that is no
whole number is further from one than a double's error, and one that is
a whole number is computed without error.

# The reporter

A run of the reporter is a list of calls: the handlers count and record
lags, and the flusher and `main` flush. The clock is an input, in
seconds, and so is what the call to Cloud Monitoring raises. What
becomes of a flush is a value of `Flushed`, so that a run says what was
written, what was logged and what was dropped.
-/
import Mathlib.Algebra.Order.Floor.Semiring
import Mathlib.Data.Rat.Floor
import Mathlib.Tactic.Common

namespace MarketPlatform.Consumer

/-- The attributes of the source's class. A tally the handlers only add
to is an integer; the lag samples are the last ones recorded. -/
structure Counters where
  messagesReceived : List (String × Nat) := []
  sequenceGapsTotal : Int := 0
  heartbeatDetectedGapsTotal : Int := 0
  messagesLostTotal : Int := 0
  duplicatesTotal : Int := 0
  websocketReconnectsTotal : Int := 0
  bookResetsTotal : Int := 0
  crossedBooksTotal : Int := 0
  publishErrorsTotal : Int := 0
  ingestLagSamplesMs : List ℚ := []

namespace Counters

/-- Add one to a channel's tally, in insertion order: a channel is where
it was first counted. -/
def bump (channel : String) : List (String × Nat) → List (String × Nat)
  | [] => [(channel, 1)]
  | (c, n) :: rest =>
      if c = channel then (c, n + 1) :: rest
      else (c, n) :: bump channel rest

/-- `record_message`. -/
def recordMessage (c : Counters) (channel : String) : Counters :=
  { c with messagesReceived := bump channel c.messagesReceived }

/-- Append a sample; past 10,000 the oldest 5,000 go, so that there are
never more than 10,000 and, once there were that many, never fewer than
5,001. -/
def recordLag (c : Counters) (lagMs : ℚ) : Counters :=
  let samples := c.ingestLagSamplesMs ++ [lagMs]
  { c with
    ingestLagSamplesMs :=
      if samples.length > 10000 then samples.drop 5000 else samples }

/-- `lag_percentile(pct)`: the samples in order, at an index that is
kept inside the list. -/
def lagPercentile (c : Counters) (pct : ℚ) : Option ℚ :=
  let ordered := c.ingestLagSamplesMs.mergeSort
  ordered[min ⌊ordered.length * pct⌋₊ (ordered.length - 1)]?

/-- Flatten to the metric names the dashboard and alerts use. A name's
dots stand between a metric and its label. -/
def snapshot (c : Counters) : List (String × ℚ) :=
  (([("sequence_gaps_total", c.sequenceGapsTotal),
    ("heartbeat_detected_gaps_total", c.heartbeatDetectedGapsTotal),
    ("messages_lost_total", c.messagesLostTotal),
    ("duplicates_total", c.duplicatesTotal),
    ("websocket_reconnects_total", c.websocketReconnectsTotal),
    ("book_resets_total", c.bookResetsTotal),
    ("crossed_books_total", c.crossedBooksTotal),
    ("publish_errors_total", c.publishErrorsTotal)]
      : List (String × Int)).map fun m => (m.1, (m.2 : ℚ)))
    ++ c.messagesReceived.map (fun m =>
      ("messages_received." ++ m.1, (m.2 : ℚ)))
    ++ [(50 / 100, "p50"), (95 / 100, "p95"), (99 / 100, "p99")].filterMap
      fun p => (c.lagPercentile p.1).map fun v => ("ingest_lag_ms." ++ p.2, v)

end Counters

/-- `MIN_WRITE_INTERVAL_S`: Cloud Monitoring takes one point a series in
this time. -/
def minWriteIntervalS : ℚ := 10

/-- The reporter's attributes. `enabled` is what the constructor made of
the flag and the project. -/
structure MetricsReporter where
  projectId : String
  enabled : Bool
  counters : Counters := {}
  /-- `_last_write_at`. -/
  lastWriteAt : ℚ := 0

/-- What becomes of a flush: with nothing to flush, too soon, logged, or
given to `_write`, which may raise. A raise is caught and logged. -/
inductive Flushed where
  | empty
  | skipped
  | logged (snapshot : List (String × ℚ))
  | written (snapshot : List (String × ℚ)) (raised : Option String)

namespace MetricsReporter

/-- `MetricsReporter(project_id, enabled)`. Without a project nothing is
written. -/
def new (projectId : String) (enabled : Bool) : MetricsReporter :=
  { projectId, enabled := enabled && projectId ≠ "" }

/-- `flush(force)`. The tests stand in the order of the source, and no
branch assigns `_last_write_at`. -/
def flush (r : MetricsReporter) (force : Bool) (now : ℚ)
    (raised : Option String) : MetricsReporter × Flushed :=
  let snapshot := r.counters.snapshot
  if snapshot.isEmpty then (r, .empty)
  else if r.enabled && !force && now - r.lastWriteAt < minWriteIntervalS then
    (r, .skipped)
  else if !r.enabled then (r, .logged snapshot)
  else (r, .written snapshot raised)

/-- One call on the reporter or its counters. -/
inductive Call where
  | recordLag (lagMs : ℚ)
  /-- The handlers change the other tallies. -/
  | count (tallies : Counters)
  | flush (force : Bool) (now : ℚ) (raised : Option String)

/-- A call, and its flush with the time of the clock. -/
def step (r : MetricsReporter) :
    Call → MetricsReporter × List (ℚ × Flushed)
  | .recordLag lagMs => ({ r with counters := r.counters.recordLag lagMs }, [])
  | .count tallies =>
      ({ r with
        counters := { tallies with
          ingestLagSamplesMs := r.counters.ingestLagSamplesMs } }, [])
  | .flush force now raised =>
      let x := r.flush force now raised
      (x.1, [(now, x.2)])

/-- A list of calls, and its flushes. No call ends the run: what
`_write` raises is caught. -/
def run (r : MetricsReporter) :
    List Call → MetricsReporter × List (ℚ × Flushed)
  | [] => (r, [])
  | call :: calls =>
      let x := r.step call
      let y := run x.1 calls
      (y.1, x.2 ++ y.2)

/-- `METRIC_PREFIX`, before the name of every series. -/
def metricPrefix : String := "custom.googleapis.com/market"

/-- `METRIC_PREFIX + "/" + name.replace(".", "_")`. Two names may become
one by it, if they differ in a dot and an underscore only. -/
def metricType (name : String) : String :=
  metricPrefix ++ "/"
    ++ String.ofList (name.toList.map fun c => if c = '.' then '_' else c)

/-- The time series `_write` gives to Cloud Monitoring, one point each,
in one call. -/
def seriesBatch (snapshot : List (String × ℚ)) : List (String × ℚ) :=
  snapshot.map fun m => (metricType m.1, m.2)

end MetricsReporter

end MarketPlatform.Consumer
