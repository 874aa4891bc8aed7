/-
The query of `fct_data_quality`: the pipeline measuring itself, for each
product and hour; and that of `assert_ingest_lag_within_sla`, which
fails when it has rows.

# What is counted

The trades of an hour are those of `fct_trades`, once each; what was
expected is the span of their ids, from the first to the last received
in the hour. The raw rows of the hour are counted apart, over the rows
that staging reads, and what they have more than one of each id was
removed. Backfilled trades are counted as received and leave the latency
alone.

# Numbers

Counts and spans are `INT64`; their quotient is a `FLOAT64`, and the
verdicts compare it with the thresholds of the SLAs. The percentage is
rounded to four digits, the verdict is not. `approx_quantiles` promises
no particular value, so it is a parameter, and what is proved holds for
any.
-/
import MarketPlatform.Warehouse.Marts

namespace MarketPlatform.Warehouse

open Lib Lib.Rfc3339 Lib.Relation Lib.Numeral

-- ============================================================= raw_counts

/-- A row of the CTE `raw_counts`. -/
structure RawCount where
  productId : String
  eventHour : Int
  rawRows : Nat
  distinctTrades : Nat
  deriving DecidableEq

/-- The row of one product and hour, from its raw rows. -/
def rawCountOf (k : String × Int) (rows : List (RawTrade × Int)) :
    RawCount where
  productId := k.1
  eventHour := k.2
  rawRows := rows.length
  distinctTrades := (rows.map fun r => r.1.tradeId).dedup.length

/-- A raw row with its `timestamp(event_time)`. -/
def timed (r : RawTrade) : Option (RawTrade × Int) :=
  r.eventTime.instant.map fun t => (r, t)

/-- The CTE `raw_counts`, over the raw rows that staging reads too. -/
def rawCounts (vars : Vars) (now : Int) (raw : List RawTrade) :
    Option (List RawCount) :=
  ((rawTrades vars now raw).mapM timed).map
    (groupBy (fun r => (r.1.productId, truncate hour r.2)) rawCountOf)

-- ======================================================= fct_data_quality

/-- A row of `fct_data_quality`. -/
structure DataQuality where
  productId : String
  eventHour : Int
  tradesReceived : Nat
  tradesExpected : Int
  tradesMissing : Int
  completenessPct : Option ℚ
  duplicatesRemoved : Int
  p50IngestLagMs : Option Int
  p95IngestLagMs : Option Int
  p99IngestLagMs : Option Int
  negativeLagRows : Nat
  backfilledTrades : Nat
  firstTradeId : Int
  lastTradeId : Int
  firstEventTime : Int
  lastEventTime : Int
  meetsCompletenessSla : Option Bool
  meetsLatencySla : Option Bool
  eventDate : Int
  deriving DecidableEq

/-- `a / b`, on `INT64`s. -/
def divInt64 (a b : Int) : ℚ := float64 (float64 a / float64 b)

/-- `safe_divide(a, b)`, on `INT64`s. -/
def safeDivideInt64 (a b : Int) : Option ℚ :=
  if b = 0 then none else some (divInt64 a b)

/-- `round(x * 100, 4)`, on a `FLOAT64`. -/
def percent (x : ℚ) : ℚ := float64 (roundAway 4 (float64 (x * 100)))

/-- `if(not is_backfilled, abs(ingest_lag_ms), null)`. -/
def FctTrade.liveLag (t : FctTrade) : Option Int :=
  if t.isBackfilled then none else some |t.ingestLagMs|

/-- `coalesce(r.raw_rows - r.distinct_trades, 0)`, after the left join. -/
def duplicatesOf (counts : List RawCount) (k : String × Int) : Int :=
  match counts.find? fun c => (c.productId, c.eventHour) = k with
  | some c => c.rawRows - c.distinctTrades
  | none => 0

section Query

variable (E : Engine) (approxQuantile : Nat → List Int → Option Int)

/-- The row of one product and hour, from its trades. -/
def qualityOf (counts : List RawCount) (k : String × Int)
    (rows : List FctTrade) : Option DataQuality := do
  let firstTradeId ← minOf (rows.map FctTrade.tradeId)
  let lastTradeId ← maxOf (rows.map FctTrade.tradeId)
  let firstEventTime ← minOf (rows.map FctTrade.eventTime)
  let lastEventTime ← maxOf (rows.map FctTrade.eventTime)
  let anyTrade ← E.pick rows
  let span := lastTradeId - firstTradeId + 1
  let lags := rows.filterMap FctTrade.liveLag
  let p99 := approxQuantile 99 lags
  let received := safeDivideInt64 rows.length span
  pure {
    productId := k.1
    eventHour := k.2
    tradesReceived := rows.length
    tradesExpected := span
    tradesMissing := max (span - rows.length) 0
    completenessPct := received.map percent
    duplicatesRemoved := duplicatesOf counts k
    p50IngestLagMs := approxQuantile 50 lags
    p95IngestLagMs := approxQuantile 95 lags
    p99IngestLagMs := p99
    negativeLagRows := rows.countP fun t => t.ingestLagMs < 0
    backfilledTrades := rows.countP FctTrade.isBackfilled
    firstTradeId, lastTradeId, firstEventTime, lastEventTime
    meetsCompletenessSla := received.map fun x =>
      decide (float64 (9999 / 10000) ≤ x)
    meetsLatencySla := p99.map fun lag => decide (lag ≤ 5000)
    eventDate := anyTrade.eventDate }

/-- What `fct_data_quality` groups by. -/
def FctTrade.hourKey (t : FctTrade) : String × Int :=
  (t.productId, truncate hour t.eventTime)

/-- The query of `fct_data_quality`. A raw time that cannot be read
fails it. -/
def fctDataQuality (vars : Vars) (now : Int) (raw : List RawTrade)
    (trades : List FctTrade) : Option (List DataQuality) :=
  (rawCounts vars now raw).map fun counts =>
    (groupBy FctTrade.hourKey (qualityOf E approxQuantile counts)
      trades).filterMap id

-- =========================================== assert_ingest_lag_within_sla

/-- A row of the CTE `lag_percentiles`. -/
structure LagPercentile where
  productId : String
  p99LagMs : Option Int
  deriving DecidableEq

/-- The CTE `lag_percentiles`, over the live trades of today and
yesterday. -/
def lagPercentiles (now : Int) (trades : List FctTrade) :
    List LagPercentile :=
  groupBy FctTrade.productId
    (fun p rows => ⟨p, approxQuantile 99 (rows.map fun t => |t.ingestLagMs|)⟩)
    (trades.filter fun t =>
      dateOf now - 1 ≤ t.eventDate && !t.isBackfilled)

/-- The query of `assert_ingest_lag_within_sla`. -/
def assertIngestLagWithinSla (now : Int) (trades : List FctTrade) :
    List LagPercentile :=
  (lagPercentiles approxQuantile now trades).filter fun r =>
    r.p99LagMs.any fun lag => 5000 < lag

end Query

end MarketPlatform.Warehouse
