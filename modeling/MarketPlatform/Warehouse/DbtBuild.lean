/-
`dbt build` over the trade marts, models and tests interleaved
(`market_dbt_assets` in `orchestration/assets.py`).

# The order of a build

dbt runs the tests of a model before its children, and a model with a
failed test above it is skipped: it keeps the table it had. A test of
two models stands above the models that read both. So `fct_bars_1m`
waits for the tests of `fct_trades`, and the coarser bars for those of
`fct_bars_1m` as well. `fct_trades` itself has been written by the time
its tests run, and nothing is written back when they fail; a build that
fails at a test therefore leaves tables of different builds side by
side.

# The parameters

An invocation brings what a build reads besides the rows: its time, its
engine, whether it refreshes fully, and what `approx_quantiles` returns
in it, which one of the tests looks at.

`Warehouse.build` is the same build with the tests left out.
-/
import MarketPlatform.Warehouse.Build
import MarketPlatform.Warehouse.Tests

namespace MarketPlatform.Warehouse

open Lib Lib.Rfc3339 Lib.Relation

/-- The tables of the trade marts. A model that has never run has none. -/
structure Marts where
  trades : Option (List FctTrade) := none
  bars1m : Option (List Bar) := none
  bars5m : Option (List RolledBar) := none
  bars1h : Option (List RolledBar) := none

/-- An invocation of dbt. What `approx_quantiles` returns in it is open. -/
structure Invocation extends Run where
  fullRefresh : Bool := false
  approxQuantile : Nat → List Int → Option Int

namespace Marts

variable (vars : Vars) (i : Invocation) (m : Marts)

/-- Run `fct_trades`, over the table there is. -/
def runTrades (staged : List StgTrade) : List FctTrade :=
  materialize m.trades i.fullRefresh FctTrade.eventDate fun inc =>
    fctTrades (windowed vars i.now inc StgTrade.eventDate staged)

/-- Run `fct_bars_1m`, from the trades just written. -/
def runBars1m (trades : List FctTrade) : List Bar :=
  materialize m.bars1m i.fullRefresh Bar.eventDate fun inc =>
    fctBars1m i.engine (windowed vars i.now inc FctTrade.eventDate trades)

/-- Run `fct_bars_5m`, from the minute bars just written. -/
def runBars5m (bars : List Bar) : List RolledBar :=
  materialize m.bars5m i.fullRefresh RolledBar.eventDate fun inc =>
    fctBars5m i.engine (windowed vars i.now inc Bar.eventDate bars)

/-- Run `fct_bars_1h`, from the minute bars just written. -/
def runBars1h (bars : List Bar) : List RolledBar :=
  materialize m.bars1h i.fullRefresh RolledBar.eventDate fun inc =>
    fctBars1h i.engine (windowed vars i.now inc Bar.eventDate bars)

/-- The coarser bars, once `fct_bars_1m` has run: both are written or
both keep their tables. -/
def afterBars (trades : List FctTrade) (bars : List Bar) : Marts :=
  if BarsPass bars trades then
    { trades := some trades
      bars1m := some bars
      bars5m := some (m.runBars5m vars i bars)
      bars1h := some (m.runBars1h vars i bars) }
  else { m with trades := some trades, bars1m := some bars }

/-- The bars, once `fct_trades` has run. -/
def afterTrades (trades : List FctTrade) : Marts :=
  if TradesPass i.approxQuantile vars i.now trades then
    m.afterBars vars i trades (m.runBars1m vars i trades)
  else { m with trades := some trades }

end Marts

/-- One `dbt build`. A staging view that fails fails every model below
it. -/
def dbtBuild (vars : Vars) (history : List Delivery) (m : Marts)
    (i : Invocation) : Marts :=
  match i.staged vars history with
  | some staged => m.afterTrades vars i (m.runTrades vars i staged)
  | none => m

/-- The tables after some builds, one after the other. -/
def dbtBuilds (vars : Vars) (history : List Delivery) (m : Marts)
    (is : List Invocation) : Marts :=
  is.foldl (dbtBuild vars history) m

end MarketPlatform.Warehouse
