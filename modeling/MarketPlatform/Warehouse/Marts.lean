/-
The queries of the marts: `fct_trades`, the bars and `fct_liquidity_1m`.

Each definition is the query of its model over the rows its `from`
selects; which rows those are, and what becomes of the result, is the
build's business.

# Numbers

`NUMERIC` sums are exact; quotients are rounded. The thresholds of the
depth bands are `FLOAT64` products, and a price is compared with them as
a `FLOAT64`: the literals of the query are `FLOAT64`s, and the price is
converted to one. The average lag is a `FLOAT64` too, cast to an
integer.

# First and last

The open is `max(if(seq_asc = 1, price, null))`: the price of the row
that `row_number()` puts first by trade id, and the close that of the
last. Trade ids tell the trades of one product apart, so that this is no
choice where a trade has one row. A coarser bar takes the open of its
first minute bar and the close of its last, and sums what can be summed
(`roll_up_bars`).

# Over an arithmetic

The last section has the query of `fct_liquidity_1m` again, over any
products, quotients and conversion: with those of BigQuery it is the
query itself (`fctLiquidity1m_eq`), and with `Arithmetic.exact` what the
book says when nothing is rounded.
-/
import MarketPlatform.Warehouse.BookState

namespace MarketPlatform.Warehouse

open Lib Lib.Rfc3339 Lib.Relation Lib.Numeral

-- ============================================================= fct_trades

/-- A row of `fct_trades`. -/
structure FctTrade where
  tradeId : Int
  productId : String
  sequence : Int
  price : ℚ
  size : ℚ
  notional : ℚ
  side : String
  takerSide : Option String
  isBackfilled : Bool
  makerOrderId : Option String
  takerOrderId : Option String
  eventTime : Int
  ingestTime : Int
  ingestLagMs : Int
  eventMinute : Int
  eventDate : Int
  deriving DecidableEq

/-- `side` is the maker's; the taker is on the other one. -/
def takerOf (side : String) : Option String :=
  if side = "sell" then some "buy"
  else if side = "buy" then some "sell"
  else none

/-- The select of `fct_trades`, on one row. -/
def FctTrade.ofStaged (s : StgTrade) : FctTrade where
  tradeId := s.tradeId
  productId := s.productId
  sequence := s.sequence
  price := s.price
  size := s.size
  notional := s.notional
  side := s.side
  takerSide := takerOf s.side
  isBackfilled := s.isBackfilled
  makerOrderId := s.makerOrderId
  takerOrderId := s.takerOrderId
  eventTime := s.eventTime
  ingestTime := s.ingestTime
  ingestLagMs := s.ingestLagMs
  eventMinute := s.eventMinute
  eventDate := s.eventDate

/-- What tells the trades apart: an id is given once for each
product. -/
def FctTrade.key (t : FctTrade) : Int × String := (t.tradeId, t.productId)

/-- The query of `fct_trades`. -/
def fctTrades (rows : List StgTrade) : List FctTrade :=
  rows.map FctTrade.ofStaged

-- =================================================================== bars

/-- A row of `fct_bars_1m`. -/
structure Bar where
  productId : String
  barStart : Int
  barEnd : Int
  openPrice : Option ℚ
  high : Option ℚ
  low : Option ℚ
  closePrice : Option ℚ
  volume : ℚ
  quoteVolume : ℚ
  tradeCount : Nat
  vwap : Option ℚ
  buyVolume : ℚ
  sellVolume : ℚ
  volumeImbalance : Option ℚ
  avgIngestLagMs : Int
  firstTradeId : Option Int
  lastTradeId : Option Int
  eventDate : Int
  deriving DecidableEq

/-- The product and the minute. -/
def Bar.key (b : Bar) : String × Int := (b.productId, b.barStart)

/-- `sum(if(taker_side = side, size, 0))`. -/
def takerVolume (side : String) (rows : List FctTrade) : ℚ :=
  (rows.map fun t => if t.takerSide = some side then t.size else 0).sum

/-- `cast(avg(ingest_lag_ms) as int64)`: the average is a `FLOAT64`, and
the cast rounds it, ties away from zero. -/
def avgLag (rows : List FctTrade) : Int :=
  let avg := float64 ((rows.map fun t => (t.ingestLagMs : ℚ)).sum
    / rows.length)
  if 0 ≤ avg then ⌊avg + 1 / 2⌋ else -⌊-avg + 1 / 2⌋

/-- One bar of `fct_bars_1m`, from the trades of its minute. -/
def barOf (E : Engine) (k : String × Int) (rows : List FctTrade) : Bar where
  productId := k.1
  barStart := k.2
  barEnd := k.2 + minute
  openPrice := (E.first FctTrade.tradeId rows).map FctTrade.price
  high := maxOf (rows.map FctTrade.price)
  low := minOf (rows.map FctTrade.price)
  closePrice := (E.last FctTrade.tradeId rows).map FctTrade.price
  volume := (rows.map FctTrade.size).sum
  quoteVolume := (rows.map FctTrade.notional).sum
  tradeCount := rows.length
  vwap := safeDivide (rows.map FctTrade.notional).sum
    (rows.map FctTrade.size).sum
  buyVolume := takerVolume "buy" rows
  sellVolume := takerVolume "sell" rows
  volumeImbalance := safeDivide
    (takerVolume "buy" rows - takerVolume "sell" rows)
    (rows.map FctTrade.size).sum
  avgIngestLagMs := avgLag rows
  firstTradeId := minOf (rows.map FctTrade.tradeId)
  lastTradeId := maxOf (rows.map FctTrade.tradeId)
  eventDate := dateOf k.2

/-- What `fct_bars_1m` groups by. -/
def FctTrade.barKey (t : FctTrade) : String × Int :=
  (t.productId, t.eventMinute)

/-- The query of `fct_bars_1m`. -/
def fctBars1m (E : Engine) (rows : List FctTrade) : List Bar :=
  groupBy FctTrade.barKey (barOf E) rows

/-- A row of a coarser bar table. -/
structure RolledBar where
  productId : String
  barStart : Int
  openPrice : Option ℚ
  high : Option ℚ
  low : Option ℚ
  closePrice : Option ℚ
  volume : ℚ
  quoteVolume : ℚ
  tradeCount : Nat
  vwap : Option ℚ
  buyVolume : ℚ
  sellVolume : ℚ
  volumeImbalance : Option ℚ
  sourceBarCount : Nat
  eventDate : Int
  deriving DecidableEq

/-- One coarser bar, from the minute bars of its window. -/
def rolledBarOf (E : Engine) (k : String × Int) (rows : List Bar) :
    RolledBar where
  productId := k.1
  barStart := k.2
  openPrice := (E.first Bar.barStart rows).bind Bar.openPrice
  high := maxOf (rows.filterMap Bar.high)
  low := minOf (rows.filterMap Bar.low)
  closePrice := (E.last Bar.barStart rows).bind Bar.closePrice
  volume := (rows.map Bar.volume).sum
  quoteVolume := (rows.map Bar.quoteVolume).sum
  tradeCount := (rows.map Bar.tradeCount).sum
  vwap := safeDivide (rows.map Bar.quoteVolume).sum
    (rows.map Bar.volume).sum
  buyVolume := (rows.map Bar.buyVolume).sum
  sellVolume := (rows.map Bar.sellVolume).sum
  volumeImbalance := safeDivide
    ((rows.map Bar.buyVolume).sum - (rows.map Bar.sellVolume).sum)
    (rows.map Bar.volume).sum
  sourceBarCount := rows.length
  eventDate := dateOf k.2

/-- `roll_up_bars(interval_expr)`. -/
def rollUpBars (window : Int → Int) (E : Engine) (rows : List Bar) :
    List RolledBar :=
  groupBy (fun b => (b.productId, window b.barStart)) (rolledBarOf E) rows

/-- `timestamp_trunc(bar_start, MINUTE)` less the minutes past a
multiple of five. -/
def window5m (t : Int) : Int :=
  truncate minute t - t / minute % 60 % 5 * minute

/-- `timestamp_trunc(bar_start, HOUR)`. -/
def window1h (t : Int) : Int := truncate hour t

/-- The query of `fct_bars_5m`. -/
def fctBars5m (E : Engine) (rows : List Bar) : List RolledBar :=
  rollUpBars window5m E rows

/-- The query of `fct_bars_1h`. -/
def fctBars1h (E : Engine) (rows : List Bar) : List RolledBar :=
  rollUpBars window1h E rows

-- ======================================================= fct_liquidity_1m

/-- A row of `fct_liquidity_1m`. -/
structure Liquidity where
  productId : String
  barStart : Int
  bestBid : ℚ
  bestAsk : ℚ
  mid : ℚ
  spread : ℚ
  spreadBps : Option ℚ
  bidDepth5bps : ℚ
  askDepth5bps : ℚ
  bidDepth10bps : ℚ
  askDepth10bps : ℚ
  bidDepth25bps : ℚ
  askDepth25bps : ℚ
  bidDepth25bpsNotional : ℚ
  askDepth25bpsNotional : ℚ
  bookImbalance : Option ℚ
  bookLevels : Nat
  eventDate : Int
  deriving DecidableEq

/-- `side = 'buy' and price >= mid * (1 - width)`. -/
def bidWithin (mid width : ℚ) (r : BookRow) : Bool :=
  r.side = some "buy" && r.price.any fun p =>
    float64 (float64 mid * float64 (1 - float64 width)) ≤ float64 p

/-- `side = 'sell' and price <= mid * (1 + width)`. -/
def askWithin (mid width : ℚ) (r : BookRow) : Bool :=
  r.side = some "sell" && r.price.any fun p =>
    float64 p ≤ float64 (float64 mid * float64 (1 + float64 width))

/-- `sum(if(counts, size, 0))`: a null size adds nothing. -/
def depth (counts : BookRow → Bool) (rows : List BookRow) : ℚ :=
  (rows.map fun r => if counts r then r.size.getD 0 else 0).sum

/-- The price of `top_of_book` on one side. -/
def bookPrices (side : String) (rows : List BookRow) : List ℚ :=
  (rows.filter fun r => r.side = some side).filterMap BookRow.price

/-- The row of one product and minute; none when one side is empty. -/
def liquidityOf (k : String × Int) (rows : List BookRow) :
    Option Liquidity := do
  let bestBid ← maxOf (bookPrices "buy" rows)
  let bestAsk ← minOf (bookPrices "sell" rows)
  let mid := divNumeric (bestBid + bestAsk) 2
  let spread := bestAsk - bestBid
  let bid25 := depth (bidWithin mid (25 / 10000)) rows
  let ask25 := depth (askWithin mid (25 / 10000)) rows
  pure {
    productId := k.1
    barStart := k.2
    bestBid, bestAsk, mid, spread
    spreadBps := (safeDivide spread mid).map fun q => mulNumeric q 10000
    bidDepth5bps := depth (bidWithin mid (5 / 10000)) rows
    askDepth5bps := depth (askWithin mid (5 / 10000)) rows
    bidDepth10bps := depth (bidWithin mid (10 / 10000)) rows
    askDepth10bps := depth (askWithin mid (10 / 10000)) rows
    bidDepth25bps := bid25
    askDepth25bps := ask25
    bidDepth25bpsNotional := mulNumeric bid25 mid
    askDepth25bpsNotional := mulNumeric ask25 mid
    bookImbalance := safeDivide (bid25 - ask25) (bid25 + ask25)
    bookLevels := rows.length
    eventDate := dateOf k.2 }

/-- What `fct_liquidity_1m` groups by. -/
def BookRow.gridKey (r : BookRow) : String × Int :=
  (r.productId, r.eventMinute)

/-- The query of `fct_liquidity_1m`. -/
def fctLiquidity1m (rows : List BookRow) : List Liquidity :=
  (groupBy BookRow.gridKey liquidityOf rows).filterMap id

-- ====================================== fct_liquidity_1m, over an arithmetic

/-- The products and quotients of `NUMERIC`s, and what a value is as a
`FLOAT64`. -/
structure Arithmetic where
  mul : ℚ → ℚ → ℚ
  div : ℚ → ℚ → ℚ
  float : ℚ → ℚ

namespace Arithmetic

/-- Products and quotients to nine digits, and the nearest `FLOAT64`. -/
def bigQuery : Arithmetic := ⟨mulNumeric, divNumeric, float64⟩

/-- Nothing is rounded. -/
def exact : Arithmetic := ⟨fun a b => a * b, fun a b => a / b, fun a => a⟩

variable (A : Arithmetic)

/-- `safe_divide(a, b)`, on `NUMERIC`s. -/
def safeDivide (a b : ℚ) : Option ℚ :=
  if b = 0 then none else some (A.div a b)

def bidWithin (mid width : ℚ) (r : BookRow) : Bool :=
  r.side = some "buy" && r.price.any fun p =>
    A.float (A.float mid * A.float (1 - A.float width)) ≤ A.float p

def askWithin (mid width : ℚ) (r : BookRow) : Bool :=
  r.side = some "sell" && r.price.any fun p =>
    A.float p ≤ A.float (A.float mid * A.float (1 + A.float width))

def liquidityOf (k : String × Int) (rows : List BookRow) :
    Option Liquidity := do
  let bestBid ← maxOf (bookPrices "buy" rows)
  let bestAsk ← minOf (bookPrices "sell" rows)
  let mid := A.div (bestBid + bestAsk) 2
  let spread := bestAsk - bestBid
  let bid25 := depth (A.bidWithin mid (25 / 10000)) rows
  let ask25 := depth (A.askWithin mid (25 / 10000)) rows
  pure {
    productId := k.1
    barStart := k.2
    bestBid, bestAsk, mid, spread
    spreadBps := (A.safeDivide spread mid).map fun q => A.mul q 10000
    bidDepth5bps := depth (A.bidWithin mid (5 / 10000)) rows
    askDepth5bps := depth (A.askWithin mid (5 / 10000)) rows
    bidDepth10bps := depth (A.bidWithin mid (10 / 10000)) rows
    askDepth10bps := depth (A.askWithin mid (10 / 10000)) rows
    bidDepth25bps := bid25
    askDepth25bps := ask25
    bidDepth25bpsNotional := A.mul bid25 mid
    askDepth25bpsNotional := A.mul ask25 mid
    bookImbalance := A.safeDivide (bid25 - ask25) (bid25 + ask25)
    bookLevels := rows.length
    eventDate := dateOf k.2 }

def fctLiquidity1m (rows : List BookRow) : List Liquidity :=
  (groupBy BookRow.gridKey A.liquidityOf rows).filterMap id

end Arithmetic

/-- One row of the query is the one over BigQuery's arithmetic. -/
theorem liquidityOf_eq : liquidityOf = Arithmetic.bigQuery.liquidityOf := rfl

/-- And so is the query. -/
theorem fctLiquidity1m_eq :
    fctLiquidity1m = Arithmetic.bigQuery.fctLiquidity1m := rfl

end MarketPlatform.Warehouse
