/-
The raw tables and the staging views over them.

# Raw rows

A raw row carries the strings of its message; `_PARTITIONTIME` is null
until the row leaves the streaming buffer. The rows of `raw` are never
changed, only added to, and a message may have any number of them.

# The views

The views cast, flatten and dedupe. A cast that fails fails the whole
query, so a view is an `Option`; where the engine is left a choice — two
copies of a trade that tie in both times — it is the `Engine`'s. Of the
copies of a trade the earliest to arrive is kept, whatever it says; the
view over `l2` keeps every row, and unnests the levels of its payload,
where the position in the message is kept for the changes of an l2update
and is 0 for the levels of a snapshot.

# Nulls

A level whose side, price or size the payload does not give as a scalar
has a null there, which passes every cast. An empty order id is a null.

Times are microseconds since the epoch; dates are days since the epoch.
-/
import MarketPlatform.Lib.Json
import MarketPlatform.Lib.Relation
import MarketPlatform.Lib.Rfc3339
import MarketPlatform.Warehouse.Numeric

namespace MarketPlatform.Warehouse

open Lib Lib.Rfc3339 Lib.Relation

/-- The variables of the project (`dbt_project.yml`). -/
structure Vars where
  lookbackDays : Nat := 3
  trackedProducts : List String := ["BTC-USD", "ETH-USD", "SOL-USD"]
  syntheticTradeIds : List Int := [1788112582, 999999]

-- ============================================================ raw tables

/-- A row of `raw.trades_stream`. -/
structure RawTrade where
  sequence : Int
  productId : String
  tradeId : Int
  price : String
  size : String
  side : String
  makerOrderId : String
  takerOrderId : String
  eventTime : Text
  ingestTime : Text
  publishTime : Option Int := none
  partitionTime : Option Int := none
  deriving DecidableEq

/-- A row of `raw.l2_stream`. -/
structure RawL2 where
  productId : String
  eventType : String
  payload : String
  eventTime : Text
  ingestTime : Text
  publishTime : Option Int := none
  partitionTime : Option Int := none
  deriving DecidableEq

/-- `raw_partition_filter()`, for a query at `now`: the streaming
buffer, and the partitions of the lookback. -/
def rawPartitionFilter (vars : Vars) (now : Int) :
    Option Int → Bool
  | none => true
  | some p => truncate day now - vars.lookbackDays * day ≤ p

/-- `date_sub(current_date(), interval lookback_days day) <= date`. -/
def inLookback (vars : Vars) (now date : Int) : Bool :=
  dateOf now - vars.lookbackDays ≤ date

-- ============================================================= stg_trades

/-- A row of `stg_trades`. -/
structure StgTrade where
  tradeId : Int
  productId : String
  sequence : Int
  price : ℚ
  size : ℚ
  side : String
  notional : ℚ
  isBackfilled : Bool
  makerOrderId : Option String
  takerOrderId : Option String
  eventTime : Int
  ingestTime : Int
  publishTime : Option Int
  ingestLagMs : Int
  eventDate : Int
  eventMinute : Int
  deriving DecidableEq

/-- `nullif(text, '')`. -/
def nullIfEmpty (text : String) : Option String :=
  if text = "" then none else some text

/-- `timestamp_diff(a, b, MILLISECOND)`. -/
def diffMillis (a b : Int) : Int := (a - b).tdiv millisecond

/-- The rows of the CTE `raw_trades`: of the tracked products, and
without the ids that are known to be made up. -/
def rawTrades (vars : Vars) (now : Int) (rows : List RawTrade) :
    List RawTrade :=
  rows.filter fun r =>
    rawPartitionFilter vars now r.partitionTime
      && r.productId ∈ vars.trackedProducts
      && r.tradeId ∉ vars.syntheticTradeIds

/-- The CTEs `typed` and `derived`, on one row. A trade whose sequence
is 0 was backfilled. -/
def derived (r : RawTrade) : Option StgTrade := do
  let price ← castNumeric r.price
  let size ← castNumeric r.size
  let eventTime ← r.eventTime.instant
  let ingestTime ← r.ingestTime.instant
  let notional ← numeric (price * size)
  pure {
    tradeId := r.tradeId
    productId := r.productId
    sequence := r.sequence
    price, size
    side := r.side
    notional
    isBackfilled := r.sequence = 0
    makerOrderId := nullIfEmpty r.makerOrderId
    takerOrderId := nullIfEmpty r.takerOrderId
    eventTime, ingestTime
    publishTime := r.publishTime
    ingestLagMs := diffMillis ingestTime eventTime
    eventDate := dateOf eventTime
    eventMinute := truncate minute eventTime }

namespace StgTrade

/-- What the copies of one trade share. -/
def key (s : StgTrade) : Int × String := (s.tradeId, s.productId)

/-- `ingest_time asc, publish_time asc`; a null comes first. -/
def arrival (s : StgTrade) : Int ×ₗ WithBot Int :=
  toLex (s.ingestTime, s.publishTime)

end StgTrade

/-- `stg_trades`: of the copies of a trade, the earliest to arrive. -/
def stgTrades (E : Engine) (vars : Vars) (now : Int)
    (rows : List RawTrade) : Option (List StgTrade) :=
  ((rawTrades vars now rows).mapM derived).map
    (firstBy E StgTrade.key StgTrade.arrival)

-- ========================================================== stg_l2_events

/-- A row of `stg_l2_events`. A null side, price or size is one that the
payload does not give as a scalar. -/
structure StgL2Event where
  productId : String
  eventType : String
  side : Option String
  price : Option ℚ
  size : Option ℚ
  changeIndex : Nat
  isRemoval : Option Bool
  eventTime : Int
  ingestTime : Int
  publishTime : Option Int
  ingestLagMs : Int
  eventDate : Int
  eventMinute : Int
  deriving DecidableEq

/-- `json_query_array(payload, '$.key')`, unnested: no rows when there
is no such array. -/
def queryArray (payload key : String) : List Json :=
  match Json.loads payload with
  | some (.obj ms) =>
      match Json.lookup key ms with
      | some (.arr xs) => xs
      | _ => []
  | _ => []

/-- `json_value(value, '$[i]')`: a scalar as text, otherwise null. -/
def jsonValue (value : Json) (i : Nat) : Option String :=
  match value with
  | .arr xs =>
      match xs[i]? with
      | some (.str s) => some s
      | some (.int n) => some (toString n)
      | some (.float literal _) => some literal
      | some (.bool b) => some (toString b)
      | _ => none
  | _ => none

/-- `cast(text as numeric)` of a nullable text. The outer `Option` is
the query's. -/
def castNullable : Option String → Option (Option ℚ)
  | none => some none
  | some text => (castNumeric text).map some

/-- One level of an event. -/
def l2Level (r : RawL2) (side : Option String) (price size : Option String)
    (changeIndex : Nat) : Option StgL2Event := do
  let price ← castNullable price
  let size ← castNullable size
  let eventTime ← r.eventTime.instant
  let ingestTime ← r.ingestTime.instant
  pure {
    productId := r.productId
    eventType := r.eventType
    side, price, size, changeIndex
    isRemoval := size.map fun s => s = 0
    eventTime, ingestTime
    publishTime := r.publishTime
    ingestLagMs := diffMillis ingestTime eventTime
    eventDate := dateOf eventTime
    eventMinute := truncate minute eventTime }

/-- The CTE `flattened`, on one row: the changes of an l2update. -/
def flattened (r : RawL2) : Option (List StgL2Event) :=
  if r.eventType = "l2update" then
    (queryArray r.payload "changes").zipIdx.mapM fun c =>
      l2Level r (jsonValue c.1 0) (jsonValue c.1 1) (jsonValue c.1 2) c.2
  else some []

/-- One branch of the CTE `snapshot_levels`, on one row. -/
def snapshotLevels (side key : String) (r : RawL2) :
    Option (List StgL2Event) :=
  if r.eventType = "snapshot" then
    (queryArray r.payload key).mapM fun level =>
      l2Level r (some side) (jsonValue level 0) (jsonValue level 1) 0
  else some []

/-- The levels of one raw row. -/
def stgL2Row (r : RawL2) : Option (List StgL2Event) := do
  let changes ← flattened r
  let bids ← snapshotLevels "buy" "bids" r
  let asks ← snapshotLevels "sell" "asks" r
  pure (changes ++ bids ++ asks)

/-- `stg_l2_events`. -/
def stgL2Events (vars : Vars) (now : Int) (rows : List RawL2) :
    Option (List StgL2Event) :=
  ((rows.filter fun r =>
    rawPartitionFilter vars now r.partitionTime).mapM stgL2Row).map
      List.flatten

-- ========================================================= stg_heartbeats

/-- A row of `raw.heartbeat_stream`. -/
structure RawHeartbeat where
  productId : String
  sequence : Int
  lastTradeId : Int
  eventTime : Text
  ingestTime : Text
  publishTime : Option Int := none
  partitionTime : Option Int := none
  deriving DecidableEq

/-- A row of `stg_heartbeats`. -/
structure StgHeartbeat where
  productId : String
  sequence : Int
  lastTradeId : Int
  eventTime : Int
  ingestTime : Int
  publishTime : Option Int
  ingestLagMs : Int
  eventDate : Int
  eventMinute : Int
  deriving DecidableEq

/-- The CTE `typed` and the select, on one row. -/
def stgHeartbeat (r : RawHeartbeat) : Option StgHeartbeat := do
  let eventTime ← r.eventTime.instant
  let ingestTime ← r.ingestTime.instant
  pure {
    productId := r.productId
    sequence := r.sequence
    lastTradeId := r.lastTradeId
    eventTime, ingestTime
    publishTime := r.publishTime
    ingestLagMs := diffMillis ingestTime eventTime
    eventDate := dateOf eventTime
    eventMinute := truncate minute eventTime }

/-- `stg_heartbeats`. -/
def stgHeartbeats (vars : Vars) (now : Int) (rows : List RawHeartbeat) :
    Option (List StgHeartbeat) :=
  (rows.filter fun r => rawPartitionFilter vars now r.partitionTime).mapM
    stgHeartbeat

end MarketPlatform.Warehouse
