/-
The tests of the marts: the files of `transform/tests` and the column
tests of `_marts.yml`.

# Queries for failures

A test is a query for failing rows, and passes when there are none. Two
of them are of severity `warn`, and no model waits for those. The column
tests are instances of the four generic ones, and the files of
`transform/tests` are queries of their own. `TradesPass` and `BarsPass`
name the tests that stand above a model's children, one field each; both
can be decided, which is what a build does.

# Nulls and numbers

A comparison with a null is null, and a row is selected only by what is
true: a bar without a price fails no test of its prices. A `NUMERIC` is
compared with the value of a literal, and a `FLOAT64` with the `FLOAT64`
nearest to it.
-/
import MarketPlatform.Warehouse.Quality

namespace MarketPlatform.Warehouse

open Lib Lib.Rfc3339 Lib.Relation Lib.Numeral

-- ======================================================== generic tests

section Generic

variable {α κ : Type} [DecidableEq κ]

/-- `expression_is_true`: the rows for which `not (expression)` is true. -/
def expressionIsTrue (expression : α → Option Bool) (rows : List α) :
    List α :=
  rows.filter fun r => expression r = some false

/-- `accepted_values`: the values of a column that are not in the list. -/
def acceptedValues (values : List String) (column : α → Option String)
    (rows : List α) : List String :=
  (rows.filterMap column).dedup.filter fun v => v ∉ values

/-- `group by ... having count(*) > 1`, with the counts. -/
def occurrences (columns : α → κ) (rows : List α) : List (κ × Nat) :=
  (groupBy columns (fun k rows => (k, rows.length)) rows).filter
    fun r => 1 < r.2

/-- `unique_combination_of_columns`. -/
def uniqueCombinationOfColumns (columns : α → κ) (rows : List α) : List κ :=
  (occurrences columns rows).map Prod.fst

end Generic

-- ============================================================ fct_trades

/-- The products `_marts.yml` accepts. -/
def acceptedProducts : List String := ["BTC-USD", "ETH-USD", "SOL-USD"]

/-- The sides `_marts.yml` accepts. -/
def acceptedSides : List String := ["buy", "sell"]

/-- The query of `assert_no_duplicate_trades`. -/
def assertNoDuplicateTrades (trades : List FctTrade) :
    List ((Int × String) × Nat) :=
  occurrences FctTrade.key trades

/-- The query of `assert_taker_side_is_inverse_of_maker`. -/
def assertTakerSideIsInverseOfMaker (trades : List FctTrade) :
    List FctTrade :=
  trades.filter fun t => t.takerSide = some t.side || t.takerSide = none

/-- A row of the CTE `by_product_day`. -/
structure ProductDay where
  productId : String
  eventDate : Int
  tradesSeen : Nat
  idSpan : Option Int
  deriving DecidableEq

/-- `max(trade_id) - min(trade_id) + 1`. -/
def idSpan (rows : List FctTrade) : Option Int := do
  let last ← maxOf (rows.map FctTrade.tradeId)
  let first ← minOf (rows.map FctTrade.tradeId)
  pure (last - first + 1)

/-- The CTE `by_product_day`: the days before today that are in the
lookback. -/
def byProductDay (vars : Vars) (now : Int) (trades : List FctTrade) :
    List ProductDay :=
  groupBy (fun t => (t.productId, t.eventDate))
    (fun k rows => ⟨k.1, k.2,
      (rows.map FctTrade.tradeId).dedup.length, idSpan rows⟩)
    (trades.filter fun t =>
      t.eventDate < dateOf now && inLookback vars now t.eventDate)

/-- `safe_divide(id_span - trades_seen, id_span)`. -/
def ProductDay.missingShare (r : ProductDay) : Option ℚ := do
  let span ← r.idSpan
  safeDivideInt64 (span - r.tradesSeen) span

/-- The query of `assert_trade_ids_contiguous`. -/
def assertTradeIdsContiguous (vars : Vars) (now : Int)
    (trades : List FctTrade) : List ProductDay :=
  (byProductDay vars now trades).filter fun r =>
    r.missingShare.any fun share => float64 (1 / 10000) < share

/-- The query of `assert_all_products_present`, which only warns. -/
def assertAllProductsPresent (vars : Vars) (now : Int)
    (trades : List FctTrade) : List String :=
  let actual := ((trades.filter fun t =>
    dateOf now - 1 ≤ t.eventDate).map FctTrade.productId).dedup
  vars.trackedProducts.filter fun p => p ∉ actual

/-- The tests of `fct_trades` of severity `error` pass. -/
structure TradesPass (approxQuantile : Nat → List Int → Option Int)
    (vars : Vars) (now : Int) (trades : List FctTrade) : Prop where
  tradeId : expressionIsTrue (fun t => some (0 < t.tradeId)) trades = []
  productId : acceptedValues acceptedProducts
    (fun t => some t.productId) trades = []
  price : expressionIsTrue (fun t => some (0 < t.price)) trades = []
  priceBetween : expressionIsTrue (fun t => some
    (1 / 10000 ≤ t.price && t.price ≤ 10000000)) trades = []
  size : expressionIsTrue (fun t => some (0 < t.size)) trades = []
  side : acceptedValues acceptedSides (fun t => some t.side) trades = []
  takerSide : acceptedValues acceptedSides FctTrade.takerSide trades = []
  unique : uniqueCombinationOfColumns FctTrade.key trades = []
  noDuplicates : assertNoDuplicateTrades trades = []
  takerIsInverse : assertTakerSideIsInverseOfMaker trades = []
  contiguous : assertTradeIdsContiguous vars now trades = []
  ingestLag : assertIngestLagWithinSla approxQuantile now trades = []

-- =========================================================== fct_bars_1m

/-- `a < b` is true; with a null on either side it is not. -/
def below (a b : Option ℚ) : Bool :=
  match a, b with
  | some a, some b => a < b
  | _, _ => false

/-- The query of `assert_bar_ohlc_coherence`. -/
def assertBarOhlcCoherence (bars : List Bar) : List Bar :=
  bars.filter fun b =>
    below b.openPrice b.low || below b.closePrice b.low
      || below b.high b.openPrice || below b.high b.closePrice
      || below b.high b.low

/-- A row of the CTEs `from_bars` and `from_trades`. -/
structure DayTotal where
  productId : String
  eventDate : Int
  volume : ℚ
  tradeCount : Nat
  deriving DecidableEq

/-- The product and the day. -/
def DayTotal.key (r : DayTotal) : String × Int := (r.productId, r.eventDate)

/-- What `from_bars` groups by. -/
def Bar.dayKey (b : Bar) : String × Int := (b.productId, b.eventDate)

/-- What `from_trades` groups by. -/
def FctTrade.dayKey (t : FctTrade) : String × Int :=
  (t.productId, t.eventDate)

/-- The CTE `from_bars`. -/
def fromBars (bars : List Bar) : List DayTotal :=
  groupBy Bar.dayKey (fun k rows => ⟨k.1, k.2,
    (rows.map Bar.volume).sum, (rows.map Bar.tradeCount).sum⟩) bars

/-- The CTE `from_trades`. -/
def fromTrades (trades : List FctTrade) : List DayTotal :=
  groupBy FctTrade.dayKey (fun k rows => ⟨k.1, k.2,
    (rows.map FctTrade.size).sum, rows.length⟩) trades

/-- The `where` of `assert_bar_volume_reconciles`. -/
def disagree (b t : Option DayTotal) : Bool :=
  b.map DayTotal.tradeCount ≠ t.map DayTotal.tradeCount
    || (1 / 10 ^ 8 : ℚ) < |(b.map DayTotal.volume).getD 0
      - (t.map DayTotal.volume).getD 0|

/-- The query of `assert_bar_volume_reconciles`. -/
def assertBarVolumeReconciles (bars : List Bar) (trades : List FctTrade) :
    List (Option DayTotal × Option DayTotal) :=
  (fullOuterJoin DayTotal.key DayTotal.key (fromBars bars)
    (fromTrades trades)).filter fun x => disagree x.1 x.2

/-- The tests of `fct_bars_1m` pass. The test of its products against
`dim_products` is not one of them: no other model reads that seed, so
dbt waits for this test with none. -/
structure BarsPass (bars : List Bar) (trades : List FctTrade) : Prop where
  volume : expressionIsTrue (fun b => some (0 < b.volume)) bars = []
  tradeCount : expressionIsTrue (fun b => some (1 ≤ b.tradeCount)) bars = []
  imbalance : expressionIsTrue (fun b => b.volumeImbalance.map fun x =>
    decide (-1 ≤ x) && decide (x ≤ 1)) bars = []
  unique : uniqueCombinationOfColumns Bar.key bars = []
  coherent : assertBarOhlcCoherence bars = []
  reconciles : assertBarVolumeReconciles bars trades = []

-- ====================================================== fct_liquidity_1m

/-- The query of `assert_no_crossed_book`. -/
def assertNoCrossedBook (rows : List Liquidity) : List Liquidity :=
  rows.filter fun l => l.bestAsk ≤ l.bestBid || l.spread ≤ 0

-- ====================================================== fct_data_quality

/-- The query of `assert_data_quality_meets_sla`, which only warns. A
verdict that is null is not selected. -/
def assertDataQualityMeetsSla (now : Int) (rows : List DataQuality) :
    List DataQuality :=
  rows.filter fun q => q.eventHour < truncate hour now
    && (q.meetsCompletenessSla = some false
      || q.meetsLatencySla = some false)

-- ============================================================ decisions

instance (approxQuantile : Nat → List Int → Option Int) (vars : Vars)
    (now : Int) (trades : List FctTrade) :
    Decidable (TradesPass approxQuantile vars now trades) :=
  decidable_of_iff
    (expressionIsTrue (fun t => some (0 < t.tradeId)) trades = []
      ∧ acceptedValues acceptedProducts (fun t => some t.productId) trades = []
      ∧ expressionIsTrue (fun t => some (0 < t.price)) trades = []
      ∧ expressionIsTrue (fun t => some
          (1 / 10000 ≤ t.price && t.price ≤ 10000000)) trades = []
      ∧ expressionIsTrue (fun t => some (0 < t.size)) trades = []
      ∧ acceptedValues acceptedSides (fun t => some t.side) trades = []
      ∧ acceptedValues acceptedSides FctTrade.takerSide trades = []
      ∧ uniqueCombinationOfColumns FctTrade.key trades = []
      ∧ assertNoDuplicateTrades trades = []
      ∧ assertTakerSideIsInverseOfMaker trades = []
      ∧ assertTradeIdsContiguous vars now trades = []
      ∧ assertIngestLagWithinSla approxQuantile now trades = [])
    ⟨fun ⟨a, b, c, d, e, f, g, h, i, j, k, l⟩ =>
      ⟨a, b, c, d, e, f, g, h, i, j, k, l⟩,
    fun ⟨a, b, c, d, e, f, g, h, i, j, k, l⟩ =>
      ⟨a, b, c, d, e, f, g, h, i, j, k, l⟩⟩

instance (bars : List Bar) (trades : List FctTrade) :
    Decidable (BarsPass bars trades) :=
  decidable_of_iff
    (expressionIsTrue (fun b => some (0 < b.volume)) bars = []
      ∧ expressionIsTrue (fun b => some (1 ≤ b.tradeCount)) bars = []
      ∧ expressionIsTrue (fun b => b.volumeImbalance.map fun x =>
          decide (-1 ≤ x) && decide (x ≤ 1)) bars = []
      ∧ uniqueCombinationOfColumns Bar.key bars = []
      ∧ assertBarOhlcCoherence bars = []
      ∧ assertBarVolumeReconciles bars trades = [])
    ⟨fun ⟨a, b, c, d, e, f⟩ => ⟨a, b, c, d, e, f⟩,
    fun ⟨a, b, c, d, e, f⟩ => ⟨a, b, c, d, e, f⟩⟩

end MarketPlatform.Warehouse
