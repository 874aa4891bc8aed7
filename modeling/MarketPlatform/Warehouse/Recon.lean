/-
The query of `fct_stream_batch_recon`: where the streaming bars and
`fct_bars_1m` disagree, and why.

# Two tables that need not agree

The streaming side has a pane for each firing, of which the last one
counts (`streaming_final`); the batch side has one bar a window. They
are joined by product and window, and each side may be missing. What the
`case` of `divergence_reason` then looks at, beyond the two counts, is
where the window stands: first or last of the job's windows for the
product (`job_boundaries`), or not before the last window that was built
(`batch_frontier`). The branches are taken in order, so an earlier
reason hides a later one.

# Nulls

A comparison with a null is null, and a `case` takes only what is true.
A row without a batch bar has no batch count, so none of the branches
that compare the counts takes it; it must have been taken before.
-/
import MarketPlatform.Streaming.Bars
import MarketPlatform.Warehouse.Marts

namespace MarketPlatform.Warehouse

open Lib Lib.Rfc3339 Lib.Relation Streaming

-- ================================================================= parts

/-- `pane_index desc, written_at desc`. -/
def recency (s : StreamBar) : ℕᵒᵈ ×ₗ Intᵒᵈ :=
  toLex (OrderDual.toDual s.paneIndex, OrderDual.toDual s.writtenAt)

/-- The CTE `streaming_final`. -/
def streamingFinal (E : Engine) (panes : List StreamBar) :
    List StreamBar :=
  firstBy E StreamBar.key recency panes

/-- A row of the CTE `pane_activity`. -/
structure PaneActivity where
  key : String × Int
  paneCount : Nat
  finalPaneIndex : Option Nat
  deriving DecidableEq

/-- The CTE `pane_activity`, over all panes of a window. -/
def paneActivity (panes : List StreamBar) : List PaneActivity :=
  groupBy StreamBar.key
    (fun k rows => ⟨k, rows.length, maxOf (rows.map StreamBar.paneIndex)⟩)
    panes

/-- A row of the CTE `batch_frontier`. -/
structure BatchFrontier where
  productId : String
  latestBuiltWindow : Option Int
  deriving DecidableEq

/-- The CTE `batch_frontier`: the last window built, of each product. -/
def batchFrontier (bars : List Bar) : List BatchFrontier :=
  groupBy Bar.productId
    (fun p rows => ⟨p, maxOf (rows.map Bar.barStart)⟩) bars

/-- A row of the CTE `job_boundaries`. -/
structure JobBoundaries where
  productId : String
  firstWindow : Option Int
  lastWindow : Option Int
  deriving DecidableEq

/-- The CTE `job_boundaries`: the first and the last window of the
streaming side, of each product. -/
def jobBoundaries (final : List StreamBar) : List JobBoundaries :=
  groupBy StreamBar.productId
    (fun p rows => ⟨p, minOf (rows.map StreamBar.barStart),
      maxOf (rows.map StreamBar.barStart)⟩) final

-- ================================================================ reasons

/-- The values of `divergence_reason`. -/
inductive Divergence where
  | outsideRunWindow
  | batchNotYetBuilt
  | missingFromBatch
  | partialAtStartup
  | partialAtShutdown
  | lateDataDropped
  | overCount
  | agree
  deriving DecidableEq

/-- The value as it is written. The text says whether it is a defect. -/
def Divergence.text : Divergence → String
  | .outsideRunWindow =>
      "outside_run_window: the burst job was not running for this minute"
  | .batchNotYetBuilt =>
      "batch_not_yet_built: streaming is ahead of the last dbt run"
  | .missingFromBatch =>
      "missing_from_batch: BROKEN - streaming saw a window batch has no trades for"
  | .partialAtStartup =>
      "partial_window_at_startup: job began mid-minute"
  | .partialAtShutdown =>
      "partial_window_at_shutdown: job was drained mid-minute"
  | .lateDataDropped =>
      "late_data_dropped: trades arrived after the 30s allowed lateness expired"
  | .overCount =>
      "over_count: BROKEN - likely accumulating panes summed instead of taking the final one"
  | .agree => "agree"

/-- `a < b` is true; with a null on either side it is not. -/
def less (a b : Option Nat) : Bool :=
  match a, b with
  | some a, some b => a < b
  | _, _ => false

/-- `a = b`, null with a null on either side. -/
def equal {α : Type} [DecidableEq α] (a b : Option α) : Option Bool := do
  let a ← a
  let b ← b
  pure (decide (a = b))

/-- `a and b`, in the logic of three values: a false side decides. -/
def both (a b : Option Bool) : Option Bool :=
  match a, b with
  | some false, _ => some false
  | _, some false => some false
  | some true, some true => some true
  | _, _ => none

-- ======================================================== the query

/-- A row of `fct_stream_batch_recon`. -/
structure ReconRow where
  productId : String
  barStart : Int
  inStream : Bool
  inBatch : Bool
  streamTradeCount : Option Nat
  batchTradeCount : Option Nat
  tradeCountDiff : Int
  streamVolume : Option ℚ
  batchVolume : Option ℚ
  volumeDiff : ℚ
  streamClose : Option ℚ
  batchClose : Option ℚ
  streamVwap : Option ℚ
  batchVwap : Option ℚ
  paneCount : Option Nat
  finalPaneIndex : Option Nat
  isFirstWindow : Option Bool
  isLastWindow : Option Bool
  atBatchFrontier : Option Bool
  wasRestated : Bool
  countsAgree : Option Bool
  barsAgree : Option Bool
  divergenceReason : Divergence
  eventDate : Int
  deriving DecidableEq

/-- The product and the window, `coalesce`d from the two sides. -/
def ReconRow.key (r : ReconRow) : String × Int := (r.productId, r.barStart)

/-- The `case` of `divergence_reason`, its branches in order. -/
def divergenceReason (inStream inBatch : Bool) (stream batch : Option Nat)
    (first last frontier : Option Bool) : Divergence :=
  if !inStream && inBatch then .outsideRunWindow
  else if inStream && !inBatch && frontier = some true then .batchNotYetBuilt
  else if inStream && !inBatch then .missingFromBatch
  else if first = some true && less stream batch then .partialAtStartup
  else if last = some true && less stream batch then .partialAtShutdown
  else if less stream batch then .lateDataDropped
  else if frontier = some true && less batch stream then .batchNotYetBuilt
  else if less batch stream then .overCount
  else .agree

/-- The row of one window: `s` is its final streaming bar and `b` its
batch bar, and one of them may be missing. -/
def reconRow (activity : List PaneActivity) (jobs : List JobBoundaries)
    (frontiers : List BatchFrontier) (k : String × Int)
    (s : Option StreamBar) (b : Option Bar) : ReconRow :=
  let p := s.bind fun _ => activity.find? fun p => p.key = k
  let j := jobs.find? fun j => j.productId = k.1
  let f := frontiers.find? fun f => f.productId = k.1
  let stream := s.map StreamBar.tradeCount
  let batch := b.map Bar.tradeCount
  let first := equal (some k.2) (j.bind JobBoundaries.firstWindow)
  let last := equal (some k.2) (j.bind JobBoundaries.lastWindow)
  let frontier := (f.bind BatchFrontier.latestBuiltWindow).map fun t =>
    decide (t ≤ k.2)
  let streamVolume := s.map StreamBar.volume
  let batchVolume := b.map Bar.volume
  let streamClose := s.map StreamBar.closePrice
  let batchClose := b.bind Bar.closePrice
  { productId := k.1
    barStart := k.2
    inStream := s.isSome
    inBatch := b.isSome
    streamTradeCount := stream
    batchTradeCount := batch
    tradeCountDiff := (batch.getD 0 : Int) - stream.getD 0
    streamVolume, batchVolume
    volumeDiff := batchVolume.getD 0 - streamVolume.getD 0
    streamClose, batchClose
    streamVwap := s.bind StreamBar.vwap
    batchVwap := b.bind Bar.vwap
    paneCount := p.map PaneActivity.paneCount
    finalPaneIndex := p.bind PaneActivity.finalPaneIndex
    isFirstWindow := first
    isLastWindow := last
    atBatchFrontier := frontier
    wasRestated := 1 < (p.map PaneActivity.paneCount).getD 0
    countsAgree := equal stream batch
    barsAgree := both (both (equal stream batch)
      (some (|streamVolume.getD 0 - batchVolume.getD 0| < 1 / 10 ^ 8)))
      (equal streamClose batchClose)
    divergenceReason := divergenceReason s.isSome b.isSome stream batch
      first last frontier
    eventDate := dateOf k.2 }

/-- The query of `fct_stream_batch_recon`. A row of the join has at
least one side, and with it a key. -/
def fctStreamBatchRecon (E : Engine) (panes : List StreamBar)
    (bars : List Bar) : List ReconRow :=
  let final := streamingFinal E panes
  (fullOuterJoin StreamBar.key Bar.key final bars).filterMap fun x =>
    ((x.1.map StreamBar.key).or (x.2.map Bar.key)).map fun k =>
      reconRow (paneActivity panes) (jobBoundaries final)
        (batchFrontier bars) k x.1 x.2

end MarketPlatform.Warehouse
