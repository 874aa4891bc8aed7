/-
dbt builds of the marts, over a raw table that only grows.

# What a build sees

A history is the raw rows with the times they become visible and leave
the streaming buffer; a query at `now` sees `snapshotAt now`. A row in
the buffer has no partition, and the filter of staging lets it pass;
once it is committed it passes as long as its partition is in the
lookback. So the rows a build sees are not all that have arrived, and
may be fewer later on.

# What a build writes

A build runs `fct_trades`, the minute bars and the coarser bars in that
order, each from the table before it. A model whose table exists, and
that is not fully refreshed, runs incrementally: its query reads only
the lookback window, and only the partitions of its result are
overwritten (`materialize`). A cast that fails in staging fails the
build, which then leaves the tables as they were.

The tests of the models are left out here; `DbtBuild` has them in
between.
-/
import MarketPlatform.Lib.Overwrite
import MarketPlatform.Warehouse.Marts

namespace MarketPlatform.Warehouse

open Lib Lib.Rfc3339 Lib.Relation

-- ============================================================ the history

/-- A raw row, when it becomes visible, and when it is committed to its
partition. -/
structure Delivery where
  row : RawTrade
  arrivedAt : Int
  committedAt : Int
  partition : Int
  deriving DecidableEq

/-- The row as a query at `now` sees it. -/
def Delivery.seen (now : Int) (d : Delivery) : RawTrade :=
  { d.row with
    partitionTime := if d.committedAt ≤ now then some d.partition
      else none }

/-- The raw table as a query at `now` sees it. -/
def snapshotAt (history : List Delivery) (now : Int) : List RawTrade :=
  (history.filter fun d => d.arrivedAt ≤ now).map (Delivery.seen now)

-- ============================================================= one model

variable {ρ : Type}

/-- The rows a model's query reads: incrementally, those of the lookback
window, by the date that its table is partitioned by. -/
def windowed (vars : Vars) (now : Int) (incremental : Bool)
    (date : ρ → Int) (rows : List ρ) : List ρ :=
  if incremental then rows.filter fun r => inLookback vars now (date r)
  else rows

/-- Write a model's result, whose query depends on `is_incremental()`.
The first run of a model is not incremental, whatever the flag. -/
def materialize (table : Option (List ρ)) (fullRefresh : Bool)
    (date : ρ → Int) (query : Bool → List ρ) : List ρ :=
  match table, fullRefresh with
  | some t, false => Partitioned.overwritten date (query true) t
  | _, _ => query false

-- ================================================================ builds

/-- The tables of the trade marts, once every model has run. -/
structure Tables where
  trades : List FctTrade
  bars1m : List Bar
  bars5m : List RolledBar
  bars1h : List RolledBar

/-- The marts, from the staged trades. Each model reads the table that
was just written. -/
def buildMarts (E : Engine) (vars : Vars) (now : Int) (fullRefresh : Bool)
    (staged : List StgTrade) (tables : Option Tables) : Tables :=
  let trades := materialize (tables.map Tables.trades) fullRefresh
    FctTrade.eventDate fun inc =>
      fctTrades (windowed vars now inc StgTrade.eventDate staged)
  let bars1m := materialize (tables.map Tables.bars1m) fullRefresh
    Bar.eventDate fun inc =>
      fctBars1m E (windowed vars now inc FctTrade.eventDate trades)
  let bars5m := materialize (tables.map Tables.bars5m) fullRefresh
    RolledBar.eventDate fun inc =>
      fctBars5m E (windowed vars now inc Bar.eventDate bars1m)
  let bars1h := materialize (tables.map Tables.bars1h) fullRefresh
    RolledBar.eventDate fun inc =>
      fctBars1h E (windowed vars now inc Bar.eventDate bars1m)
  ⟨trades, bars1m, bars5m, bars1h⟩

section Marts

variable {E : Engine} {vars : Vars} {now : Int} {fullRefresh : Bool}
  {staged : List StgTrade} {tables : Option Tables}

/-- What is written to `fct_trades`. -/
theorem buildMarts_trades :
    (buildMarts E vars now fullRefresh staged tables).trades
      = materialize (tables.map Tables.trades) fullRefresh
          FctTrade.eventDate fun inc =>
            fctTrades (windowed vars now inc StgTrade.eventDate staged) := rfl

/-- What is written to the minute bars, from the trades just written. -/
theorem buildMarts_bars1m :
    (buildMarts E vars now fullRefresh staged tables).bars1m
      = materialize (tables.map Tables.bars1m) fullRefresh
          Bar.eventDate fun inc =>
            fctBars1m E (windowed vars now inc FctTrade.eventDate
              (buildMarts E vars now fullRefresh staged tables).trades) := rfl

/-- What is written to the bars of five minutes, from the minute bars
just written. -/
theorem buildMarts_bars5m :
    (buildMarts E vars now fullRefresh staged tables).bars5m
      = materialize (tables.map Tables.bars5m) fullRefresh
          RolledBar.eventDate fun inc =>
            fctBars5m E (windowed vars now inc Bar.eventDate
              (buildMarts E vars now fullRefresh staged tables).bars1m) := rfl

/-- What is written to the bars of an hour, from the minute bars just
written. -/
theorem buildMarts_bars1h :
    (buildMarts E vars now fullRefresh staged tables).bars1h
      = materialize (tables.map Tables.bars1h) fullRefresh
          RolledBar.eventDate fun inc =>
            fctBars1h E (windowed vars now inc Bar.eventDate
              (buildMarts E vars now fullRefresh staged tables).bars1m) := rfl

end Marts

/-- An incremental run of `fct_liquidity_1m`, or a full one, from the
book as it was just rebuilt. -/
def buildLiquidity (vars : Vars) (now : Int) (fullRefresh : Bool)
    (book : List BookRow) (table : Option (List Liquidity)) :
    List Liquidity :=
  materialize table fullRefresh Liquidity.eventDate fun inc =>
    fctLiquidity1m (windowed vars now inc BookRow.eventDate book)

/-- A build: when it runs, and on which engine. -/
structure Run where
  now : Int
  engine : Engine

/-- What `stg_trades` shows a build. -/
def Run.staged (b : Run) (vars : Vars) (history : List Delivery) :
    Option (List StgTrade) :=
  stgTrades b.engine vars b.now (snapshotAt history b.now)

/-- `dbt build`, with or without `--full-refresh`. It fails as a whole
in staging, or not at all. -/
def build (vars : Vars) (history : List Delivery) (fullRefresh : Bool)
    (tables : Option Tables) (b : Run) : Option Tables :=
  match b.staged vars history with
  | some staged =>
      some (buildMarts b.engine vars b.now fullRefresh staged tables)
  | none => tables

/-- Incremental builds, one after the other. -/
def builds (vars : Vars) (history : List Delivery)
    (tables : Option Tables) (bs : List Run) : Option Tables :=
  bs.foldl (build vars history false) tables

end MarketPlatform.Warehouse
