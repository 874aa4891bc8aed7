/-
The bars of a date, from the trades of the date.

# Locality

Every query of the trade marts is local (`Local`): its rows of a date
are the query over the source's rows of that date. It holds because each
groups by a window that lies within one day, and carries the date of the
window. A table that is overwritten date by date can therefore be
understood date by date: what a build writes to one date depends on the
source's rows of that date and on nothing else.

# One row for each key

As long as no two trades share their key, no bar depends on the engine
or on the order of the rows (`fctBars1m_perm`, `rollUpBars_perm`): sums
and extrema do not, and the first and last trade are those of the least
and greatest id. The minute bars have one row for each key themselves
(`nodup_fctBars1m`), and so the same holds of what is made of them.
-/
import Mathlib.Algebra.BigOperators.Group.List.Basic
import MarketPlatform.Proofs.Staged

namespace MarketPlatform.Warehouse

open Lib Lib.Rfc3339 Lib.Relation Lib.Partitioned

-- ================================================================== dates

/-- A minute lies within a day. -/
theorem dateOf_minute (t : Int) : dateOf (truncate minute t) = dateOf t := by
  simp only [dateOf, truncate, day, hour, minute, second]
  omega

/-- So does a window of five minutes. -/
theorem dateOf_window5m (t : Int) : dateOf (window5m t) = dateOf t := by
  simp only [window5m, dateOf, truncate, day, hour, minute, second]
  omega

/-- So does an hour. -/
theorem dateOf_window1h (t : Int) : dateOf (window1h t) = dateOf t := by
  simp only [window1h, dateOf, truncate, day, hour, minute, second]
  omega

/-- The event date is the date of the event minute. -/
def FctTrade.Dated (t : FctTrade) : Prop := t.eventDate = dateOf t.eventMinute

/-- The event date is the date of the bar. -/
def Bar.Dated (b : Bar) : Prop := b.eventDate = dateOf b.barStart

/-- A bar carries the date of its minute. -/
theorem dated_of_mem_fctBars1m {E : Engine} {rows : List FctTrade} {b : Bar}
    (h : b ∈ fctBars1m E rows) : b.Dated := by
  obtain ⟨k, -, rfl⟩ := mem_groupBy.mp h
  rfl

/-- A trade of BTC-USD at a second of the epoch. -/
def btcFct (tradeId seconds : Int) (price size : ℚ) : FctTrade where
  tradeId := tradeId
  productId := "BTC-USD"
  sequence := tradeId
  price := price
  size := size
  notional := price * size
  side := "sell"
  takerSide := some "buy"
  isBackfilled := false
  makerOrderId := none
  takerOrderId := none
  eventTime := seconds * second
  ingestTime := seconds * second
  ingestLagMs := 0
  eventMinute := truncate minute (seconds * second)
  eventDate := dateOf (seconds * second)

-- =============================================================== locality

/-- The rows of a date are made from the rows of the date. -/
structure Local {ρ σ : Type} (ok : ρ → Prop) (date : ρ → Int)
    (date' : σ → Int) (query : List ρ → List σ) : Prop where
  nil : query [] = []
  group : ∀ rows, (∀ r ∈ rows, ok r) → ∀ d,
    group date' (query rows) d = query (group date rows d)

/-- `fct_trades` is local: it keeps every row with its date. -/
theorem local_fctTrades : Local (fun _ => True) StgTrade.eventDate
    FctTrade.eventDate fctTrades where
  nil := rfl
  group := fun rows _ d => by
    rw [fctTrades, group, group, List.filter_map]
    rfl

/-- The minute bars are local. -/
theorem local_fctBars1m (E : Engine) : Local FctTrade.Dated
    FctTrade.eventDate Bar.eventDate (fctBars1m E) where
  nil := rfl
  group := fun rows hrows d => by
    have hagg : ∀ k rows, (barOf E k rows).eventDate = dateOf k.2 :=
      fun _ _ => rfl
    exact group_groupBy (fun k _ => hagg k _) hrows d

/-- The coarser bars are local, for any window within a day. -/
theorem local_rollUpBars {window : Int → Int}
    (hwindow : ∀ t, dateOf (window t) = dateOf t) (E : Engine) :
    Local Bar.Dated Bar.eventDate RolledBar.eventDate
      (rollUpBars window E) where
  nil := rfl
  group := fun rows hrows d => by
    have hagg : ∀ k rows, (rolledBarOf E k rows).eventDate = dateOf k.2 :=
      fun _ _ => rfl
    refine group_groupBy (fun k _ => hagg k _) (fun r hr => ?_) d
    rw [hwindow]
    exact hrows r hr

-- ==================================================== one row for each key

section Perm

variable {E E' : Engine}

/-- A sum does not depend on the order. -/
theorem sum_map_perm {α β : Type} [AddCommMonoid β] {rows rows' : List α}
    (h : rows.Perm rows') (f : α → β) :
    (rows.map f).sum = (rows'.map f).sum :=
  (h.map f).sum_eq

/-- A bar does not depend on the order of its trades, nor on the engine,
if their ids tell them apart. -/
theorem barOf_perm {rows rows' : List FctTrade} (h : rows.Perm rows')
    (hinj : ∀ a ∈ rows, ∀ b ∈ rows, a.tradeId = b.tradeId → a = b)
    (k : String × Int) : barOf E k rows = barOf E' k rows' := by
  have hfirst : E.first FctTrade.tradeId rows
      = E'.first FctTrade.tradeId rows' := first_congr h hinj
  have hlast : E.last FctTrade.tradeId rows
      = E'.last FctTrade.tradeId rows' := last_congr h hinj
  have hmax : ∀ {τ : Type} [LinearOrder τ] (f : FctTrade → τ),
      maxOf (rows.map f) = maxOf (rows'.map f) := fun f =>
    maxOf_congr fun _ => (h.map f).mem_iff
  have hmin : ∀ {τ : Type} [LinearOrder τ] (f : FctTrade → τ),
      minOf (rows.map f) = minOf (rows'.map f) := fun f =>
    minOf_congr fun _ => (h.map f).mem_iff
  have hsum : ∀ f : FctTrade → ℚ, (rows.map f).sum = (rows'.map f).sum :=
    sum_map_perm h
  have hvol : ∀ side, takerVolume side rows = takerVolume side rows' :=
    fun side => hsum _
  have hlag : avgLag rows = avgLag rows' := by
    rw [avgLag, avgLag, hsum, h.length_eq]
  simp only [barOf, hfirst, hlast, hmax, hmin, hsum, hvol, hlag,
    h.length_eq]

/-- The bars of trades of which no two share a key. -/
theorem fctBars1m_perm {rows rows' : List FctTrade} (h : rows.Perm rows')
    (hkeys : (rows.map FctTrade.key).Nodup) :
    (fctBars1m E rows).Perm (fctBars1m E' rows') := by
  refine groupBy_perm h fun k => barOf_perm (h.filter _) ?_ k
  intro a ha b hb hid
  refine eq_of_mem_group hkeys ha hb fun hk => ?_
  have hproduct : a.productId = b.productId := congrArg Prod.fst hk
  exact Prod.ext hid hproduct

/-- One bar for each product and minute. -/
theorem nodup_fctBars1m {rows : List FctTrade} :
    ((fctBars1m E rows).map Bar.key).Nodup := by
  have hkey : ∀ k rows, (barOf E k rows).key = k := fun _ _ => rfl
  rw [fctBars1m, map_groupBy hkey]
  exact nodup_groups

/-- A coarser bar does not depend on the order of its minute bars, nor
on the engine. -/
theorem rolledBarOf_perm {rows rows' : List Bar} (h : rows.Perm rows')
    (hinj : ∀ a ∈ rows, ∀ b ∈ rows, a.barStart = b.barStart → a = b)
    (k : String × Int) : rolledBarOf E k rows = rolledBarOf E' k rows' := by
  have hfirst : E.first Bar.barStart rows = E'.first Bar.barStart rows' :=
    first_congr h hinj
  have hlast : E.last Bar.barStart rows = E'.last Bar.barStart rows' :=
    last_congr h hinj
  have hmax : ∀ f : Bar → Option ℚ,
      maxOf (rows.filterMap f) = maxOf (rows'.filterMap f) :=
    fun f => maxOf_congr fun _ => (h.filterMap f).mem_iff
  have hmin : ∀ f : Bar → Option ℚ,
      minOf (rows.filterMap f) = minOf (rows'.filterMap f) :=
    fun f => minOf_congr fun _ => (h.filterMap f).mem_iff
  have hsum : ∀ f : Bar → ℚ, (rows.map f).sum = (rows'.map f).sum :=
    sum_map_perm h
  have hcount : (rows.map Bar.tradeCount).sum
      = (rows'.map Bar.tradeCount).sum := sum_map_perm h _
  simp only [rolledBarOf, hfirst, hlast, hmax, hmin, hsum, hcount,
    h.length_eq]

/-- The coarser bars of bars of which no two share a key. -/
theorem rollUpBars_perm {window : Int → Int} {rows rows' : List Bar}
    (h : rows.Perm rows') (hkeys : (rows.map Bar.key).Nodup) :
    (rollUpBars window E rows).Perm (rollUpBars window E' rows') := by
  refine groupBy_perm h fun k => rolledBarOf_perm (h.filter _) ?_ k
  intro a ha b hb hstart
  refine eq_of_mem_group hkeys ha hb fun hk => ?_
  have hproduct : a.productId = b.productId := congrArg Prod.fst hk
  exact Prod.ext hproduct hstart

end Perm

end MarketPlatform.Warehouse
