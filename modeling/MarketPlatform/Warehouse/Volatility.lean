/-
The query of `fct_realized_vol`: the volatility of each product and
hour, by three estimators.

# The quotients

The quotients whose logarithms are taken are `FLOAT64`s: of a bar's
close and the close of the product's bar before it, of its high and low,
and of its close and open. The bar before is found among the rows that
the query reads (`before`), by `lag` over the filtered rows; the first
bar read of a product has none, whatever the table holds.

# The estimators

The logarithms are values of some ordered field: `ln` and `sqrt` are
parameters, and the arithmetic on them is the field's. With the reals
and their functions the query is the textbook one; what is proved of it
holds for any, so that no property of a logarithm is used where none is
needed.

# Builds

`rebuildRealizedVol` overwrites the partitions of a run's result, and
`dbtBuildVol` puts the model into a build, where it waits for the tests
of the minute bars as the coarser bars do.
-/
import Mathlib.Algebra.Field.Defs
import MarketPlatform.Warehouse.DbtBuild

namespace MarketPlatform.Warehouse

open Lib Lib.Rfc3339 Lib.Relation

/-- The minutes of a year that trades continuously
(`dbt_project.yml`). -/
def minutesPerYear : Nat := 525600

/-- `safe_divide(a, b)`, on nullable `FLOAT64`s. -/
def safeDivideFloat (a b : Option ℚ) : Option ℚ := do
  let x ← a
  let y ← b
  if y = 0 then none else some (float64 (x / y))

-- ================================================================ returns

/-- A row of the CTE `returns`: a bar and `lag(cast(close as float64))
over w`. -/
structure Return where
  bar : Bar
  lagClose : Option ℚ
  deriving DecidableEq

/-- The bars of a bar's product that start before it. -/
def before (bars : List Bar) (b : Bar) : List Bar :=
  bars.filter fun a => a.productId = b.productId ∧ a.barStart < b.barStart

/-- `cast(close as float64)`. -/
def Bar.closeFloat (b : Bar) : Option ℚ := b.closePrice.map float64

/-- `lag(cast(close as float64)) over w`: the close of the last of the
bars before. -/
def lagClose (E : Engine) (bars : List Bar) (b : Bar) : Option ℚ :=
  (E.last Bar.barStart (before bars b)).bind Bar.closeFloat

/-- The CTE `returns`. -/
def returns (E : Engine) (bars : List Bar) : List Return :=
  bars.map fun b => ⟨b, lagClose E bars b⟩

namespace Return

/-- The quotient of `log_return`. -/
def closeRatio (r : Return) : Option ℚ :=
  safeDivideFloat r.bar.closeFloat r.lagClose

/-- The quotient of `log_hl`. -/
def highLow (r : Return) : Option ℚ :=
  safeDivideFloat (r.bar.high.map float64) (r.bar.low.map float64)

/-- The quotient of `log_co`. -/
def closeOpen (r : Return) : Option ℚ :=
  safeDivideFloat r.bar.closeFloat (r.bar.openPrice.map float64)

/-- The product and `window_start`. -/
def windowKey (r : Return) : String × Int :=
  (r.bar.productId, truncate hour r.bar.barStart)

end Return

-- ====================================================== fct_realized_vol

/-- A row of `fct_realized_vol`. -/
structure RealizedVol (R : Type) where
  productId : String
  windowStart : Int
  windowEnd : Int
  barCount : Nat
  volCloseToClose : Option R
  volParkinson : Option R
  volGarmanKlass : Option R
  volCloseToCloseAnnualised : Option R
  volParkinsonAnnualised : Option R
  eventDate : Option Int
  deriving DecidableEq

section Query

variable {R : Type} [Field R] [LinearOrder R] (ln : ℚ → R) (sqrt : R → R)

/-- `avg(column)`: null when every value is. -/
def avg (xs : List R) : Option R :=
  if xs = [] then none else some (xs.sum / xs.length)

/-- `stddev_samp(column)`: null for fewer than two values. -/
def stddevSamp (xs : List R) : Option R :=
  if xs.length < 2 then none
  else
    let mean := xs.sum / xs.length
    some (sqrt ((xs.map fun x => (x - mean) ^ 2).sum / (xs.length - 1)))

/-- `0.5 * pow(log_hl, 2) - (2 * ln(2) - 1) * pow(log_co, 2)`. -/
def gkTerm (r : Return) : Option R := do
  let hl ← r.highLow
  let co ← r.closeOpen
  pure (1 / 2 * ln hl ^ 2 - (2 * ln 2 - 1) * ln co ^ 2)

/-- The row of one product and hour, from its returns. -/
def realizedVolOf (E : Engine) (k : String × Int) (rows : List Return) :
    RealizedVol R :=
  let sigmaCc := stddevSamp sqrt ((rows.filterMap Return.closeRatio).map ln)
  let meanSqHl := avg ((rows.filterMap Return.highLow).map fun q => ln q ^ 2)
  let gk := avg (rows.filterMap (gkTerm ln))
  let parkinson := meanSqHl.bind fun m =>
    if 4 * ln 2 = 0 then none else some (sqrt (m / (4 * ln 2)))
  { productId := k.1
    windowStart := k.2
    windowEnd := k.2 + hour
    barCount := rows.length
    volCloseToClose := sigmaCc
    volParkinson := parkinson
    volGarmanKlass := gk.map fun g => sqrt (max g 0)
    volCloseToCloseAnnualised := sigmaCc.map fun s =>
      s * sqrt minutesPerYear
    volParkinsonAnnualised := parkinson.map fun s => s * sqrt minutesPerYear
    eventDate := (E.pick rows).map fun r => r.bar.eventDate }

/-- The query of `fct_realized_vol`, over the bars that it reads. -/
def fctRealizedVol (E : Engine) (bars : List Bar) :
    List (RealizedVol R) :=
  groupBy Return.windowKey (realizedVolOf ln sqrt E) (returns E bars)

/-- An incremental build: the partitions of its result are overwritten. -/
def rebuildRealizedVol (vars : Vars) (now : Int) (E : Engine)
    (bars : List Bar) (table : List (RealizedVol R)) :
    List (RealizedVol R) :=
  Partitioned.overwritten RealizedVol.eventDate
    (fctRealizedVol ln sqrt E (windowed vars now true Bar.eventDate bars))
    table

/-- A run of `fct_realized_vol`. -/
def runRealizedVol (vars : Vars) (i : Invocation) (bars : List Bar)
    (table : Option (List (RealizedVol R))) : List (RealizedVol R) :=
  match table, i.fullRefresh with
  | some t, false => rebuildRealizedVol ln sqrt vars i.now i.engine bars t
  | _, _ => fctRealizedVol ln sqrt i.engine bars

end Query

-- ================================================================= builds

/-- The tables of the trade marts and `fct_realized_vol`. -/
structure VolMarts (R : Type) extends Marts where
  realizedVol : Option (List (RealizedVol R)) := none

section Builds

variable {R : Type} [Field R] [LinearOrder R] (ln : ℚ → R) (sqrt : R → R)
  (vars : Vars) (history : List Delivery)

/-- One `dbt build` with `fct_realized_vol`, which waits for the tests of
the minute bars as the coarser bars do. -/
def dbtBuildVol (m : VolMarts R) (i : Invocation) : VolMarts R :=
  match i.staged vars history with
  | some staged =>
      let trades := m.runTrades vars i staged
      let bars := m.runBars1m vars i trades
      { toMarts := m.afterTrades vars i trades
        realizedVol :=
          if TradesPass i.approxQuantile vars i.now trades
              ∧ BarsPass bars trades then
            some (runRealizedVol ln sqrt vars i bars m.realizedVol)
          else m.realizedVol }
  | none => m

/-- The tables after some builds, one after the other. -/
def dbtBuildsVol (m : VolMarts R) (is : List Invocation) : VolMarts R :=
  is.foldl (dbtBuildVol ln sqrt vars history) m

end Builds

end MarketPlatform.Warehouse
