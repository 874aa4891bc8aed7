/-
The coarser bars, against the ticks.

`roll_up_bars` makes the 5-minute and hourly bars from the minute bars and
never looks at a trade. Here its bars are compared with what the formulas
of `fct_bars_1m` give directly on the trades of the coarser window
(`roll_up_is_homomorphism`).

# Columns

A bar is a tuple of aggregates, and each is carried over the two levels of
grouping by a rule of the library: sums of sums (`sum_groupBy`), extremes
of extremes (`maxOf_groupBy`), and the first row of the first group
(`first_groupBy`). The last needs the groups to be in the order of the
rows, which for minutes and trades says that the exchange numbers trades
in the order of time; that, and what staging derives of a time, is the
tape (`Tape`, `tape_of_staged`). The quotients are taken anew from the
sums at each grain.

# Sums and shapes

From there on every grain is a grouping of the tape, so that what holds of
a grouping holds at every grain: each trade is in one bar, the counts and
volumes of a product and date add up to its trades (`sum_tickCandles`),
and a bar of ticks has its prices where they should be.
-/
import MarketPlatform.Proofs.Bars

namespace MarketPlatform.Warehouse

open Lib Lib.Rfc3339 Lib.Relation

-- ================================================================== grains

/-- The columns every bar table has. -/
structure Candle where
  productId : String
  barStart : Int
  openPrice : Option ℚ
  high : Option ℚ
  low : Option ℚ
  closePrice : Option ℚ
  volume : ℚ
  quoteVolume : ℚ
  tradeCount : Nat
  vwap : Option ℚ
  buyVolume : ℚ
  sellVolume : ℚ
  volumeImbalance : Option ℚ
  eventDate : Int
  deriving DecidableEq

def Bar.candle (b : Bar) : Candle where
  productId := b.productId
  barStart := b.barStart
  openPrice := b.openPrice
  high := b.high
  low := b.low
  closePrice := b.closePrice
  volume := b.volume
  quoteVolume := b.quoteVolume
  tradeCount := b.tradeCount
  vwap := b.vwap
  buyVolume := b.buyVolume
  sellVolume := b.sellVolume
  volumeImbalance := b.volumeImbalance
  eventDate := b.eventDate

def RolledBar.candle (b : RolledBar) : Candle where
  productId := b.productId
  barStart := b.barStart
  openPrice := b.openPrice
  high := b.high
  low := b.low
  closePrice := b.closePrice
  volume := b.volume
  quoteVolume := b.quoteVolume
  tradeCount := b.tradeCount
  vwap := b.vwap
  buyVolume := b.buyVolume
  sellVolume := b.sellVolume
  volumeImbalance := b.volumeImbalance
  eventDate := b.eventDate

namespace Candle

def key (c : Candle) : String × Int := (c.productId, c.barStart)

/-- The prices of a bar lie where they should. -/
def Ordered (c : Candle) : Prop :=
  ∃ lo o cl hi, c.low = some lo ∧ c.openPrice = some o
    ∧ c.closePrice = some cl ∧ c.high = some hi
    ∧ lo ≤ o ∧ lo ≤ cl ∧ o ≤ hi ∧ cl ≤ hi

end Candle

inductive Grain where
  | oneMinute
  | fiveMinutes
  | oneHour

/-- The start of the bar a moment is in. -/
def Grain.window : Grain → Int → Int
  | .oneMinute => truncate minute
  | .fiveMinutes => window5m
  | .oneHour => window1h

/-- The bars of a grain, as the models make them. -/
def candles (E : Engine) (rows : List FctTrade) : Grain → List Candle
  | .oneMinute => (fctBars1m E rows).map Bar.candle
  | .fiveMinutes => (fctBars5m E (fctBars1m E rows)).map RolledBar.candle
  | .oneHour => (fctBars1h E (fctBars1m E rows)).map RolledBar.candle

/-- The product and the window of a trade. -/
def FctTrade.windowKey (g : Grain) (t : FctTrade) : String × Int :=
  (t.productId, g.window t.eventTime)

/-- Bars computed from the ticks, with the formulas of `fct_bars_1m`. -/
def tickCandles (E : Engine) (rows : List FctTrade) (g : Grain) :
    List Candle :=
  groupBy (FctTrade.windowKey g) (fun k rows => (barOf E k rows).candle) rows

/-- A tape: one row a trade, with the minute and the date of its time,
and times that do not decrease from one trade id to the next. -/
structure Tape (rows : List FctTrade) : Prop where
  keys : (rows.map FctTrade.key).Nodup
  minute : ∀ t ∈ rows, t.eventMinute = truncate minute t.eventTime
  date : ∀ t ∈ rows, t.eventDate = dateOf t.eventTime
  inOrder : ∀ a ∈ rows, ∀ b ∈ rows, a.productId = b.productId →
    a.tradeId ≤ b.tradeId → a.eventTime ≤ b.eventTime

theorem Grain.dateOf_window (g : Grain) (t : Int) :
    dateOf (g.window t) = dateOf t := by
  cases g with
  | oneMinute => exact dateOf_minute t
  | fiveMinutes => exact dateOf_window5m t
  | oneHour => exact dateOf_window1h t

/-- A coarser window is made of whole minutes. -/
theorem Grain.window_minute (g : Grain) (t : Int) :
    g.window (truncate minute t) = g.window t := by
  cases g with
  | oneMinute =>
      simp only [Grain.window, truncate, minute, second]
      omega
  | fiveMinutes =>
      simp only [Grain.window, window5m, truncate, minute, second]
      omega
  | oneHour =>
      simp only [Grain.window, window1h, truncate, hour, minute, second]
      omega

-- ================================================================= one bar

section OneBar

variable {E E' : Engine} {rows : List FctTrade}

/-- The columns of minute bars rolled up are those of their trades. The
open is the first minute's, whose first trade is the first of all
because ids grow with the minutes; the close likewise, and the others
are sums and extremes over the parts. -/
theorem rolled_eq_ticks
    (hproduct : ∀ a ∈ rows, ∀ b ∈ rows, a.productId = b.productId)
    (hkey : ∀ a ∈ rows, ∀ b ∈ rows, a.tradeId = b.tradeId → a = b)
    (hmono : ∀ a ∈ rows, ∀ b ∈ rows, a.tradeId ≤ b.tradeId →
      a.eventMinute ≤ b.eventMinute) (k : String × Int) :
    (rolledBarOf E k (fctBars1m E rows)).candle
      = (barOf E' k rows).candle := by
  have hopen : (E.first Bar.barStart (fctBars1m E rows)).bind Bar.openPrice
      = (E'.first FctTrade.tradeId rows).map FctTrade.price := by
    have hstart : ∀ (k : String × Int) rows,
        (barOf E k rows).barStart = Prod.snd k := fun _ _ => rfl
    refine first_groupBy hstart (fun _ _ => rfl)
      (fun a ha b hb hminute => ?_) hkey hmono
    exact Prod.ext (hproduct a ha b hb) hminute
  have hclose : (E.last Bar.barStart (fctBars1m E rows)).bind Bar.closePrice
      = (E'.last FctTrade.tradeId rows).map FctTrade.price := by
    have hstart : ∀ (k : String × Int) rows,
        OrderDual.toDual (barOf E k rows).barStart
          = (fun k : String × Int => OrderDual.toDual k.2) k :=
      fun _ _ => rfl
    refine first_groupBy hstart (fun _ _ => rfl)
      (fun a ha b hb hminute => ?_) hkey
      (fun a ha b hb hle => hmono b hb a ha hle)
    exact Prod.ext (hproduct a ha b hb) hminute
  have hhigh : maxOf ((fctBars1m E rows).filterMap Bar.high)
      = maxOf (rows.map FctTrade.price) := maxOf_groupBy fun _ _ => rfl
  have hlow : minOf ((fctBars1m E rows).filterMap Bar.low)
      = minOf (rows.map FctTrade.price) := minOf_groupBy fun _ _ => rfl
  have hvolume : ((fctBars1m E rows).map Bar.volume).sum
      = (rows.map FctTrade.size).sum := sum_groupBy fun _ _ => rfl
  have hquote : ((fctBars1m E rows).map Bar.quoteVolume).sum
      = (rows.map FctTrade.notional).sum := sum_groupBy fun _ _ => rfl
  have hbuy : ((fctBars1m E rows).map Bar.buyVolume).sum
      = takerVolume "buy" rows := sum_groupBy fun _ _ => rfl
  have hsell : ((fctBars1m E rows).map Bar.sellVolume).sum
      = takerVolume "sell" rows := sum_groupBy fun _ _ => rfl
  have hcount : ((fctBars1m E rows).map Bar.tradeCount).sum
      = rows.length := by
    have hone : ∀ rows : List FctTrade,
        (rows.map fun _ => 1).sum = rows.length := by simp
    have hsum : ((fctBars1m E rows).map Bar.tradeCount).sum
        = (rows.map fun _ => 1).sum :=
      sum_groupBy fun _ rows => (hone rows).symm
    rw [hsum, hone]
  simp only [RolledBar.candle, Bar.candle, rolledBarOf, barOf, hopen, hclose,
    hhigh, hlow, hvolume, hquote, hbuy, hsell, hcount]

/-- The prices of a bar of trades lie where they should. -/
theorem ordered_barOf (hrows : rows ≠ []) (k : String × Int) :
    (barOf E k rows).candle.Ordered := by
  obtain ⟨a, ha⟩ := exists_first E FctTrade.tradeId hrows
  obtain ⟨b, hb⟩ := exists_last E FctTrade.tradeId hrows
  have hap : a.price ∈ rows.map FctTrade.price :=
    List.mem_map_of_mem (mem_of_first ha)
  have hbp : b.price ∈ rows.map FctTrade.price :=
    List.mem_map_of_mem (mem_of_last hb)
  obtain ⟨lo, hlo⟩ := exists_minOf hap
  obtain ⟨hi, hhi⟩ := exists_maxOf hap
  have hmin := (minOf_eq_some_iff.mp hlo).2
  have hmax := (maxOf_eq_some_iff.mp hhi).2
  exact ⟨lo, a.price, b.price, hi, hlo, by simp [Bar.candle, barOf, ha],
    by simp [Bar.candle, barOf, hb], hhi, hmin _ hap, hmin _ hbp,
    hmax _ hap, hmax _ hbp⟩

end OneBar

-- ============================================================== every grain

section Grains

variable {E E' : Engine} {rows : List FctTrade} {g : Grain}

/-- Rolled up from the minutes of a tape, or computed from its ticks:
the bars are the same. The minute bars of one window are the minute bars
of its trades, and window by window the columns are computed alike. -/
theorem Tape.rollUp_perm (h : Tape rows) (g : Grain) :
    ((rollUpBars g.window E (fctBars1m E rows)).map
        RolledBar.candle).Perm (tickCandles E' rows g) := by
  have hpart : ∀ t ∈ rows, FctTrade.windowKey g t
      = (t.barKey.1, g.window t.barKey.2) := by
    intro t ht
    rw [FctTrade.windowKey, FctTrade.barKey, h.minute t ht,
      g.window_minute]
  -- the minutes of one window are grouped from the trades of the window
  have hstart : ∀ (k : String × Int) rows,
      ((barOf E k rows).productId, g.window (barOf E k rows).barStart)
        = (fun k : String × Int => (k.1, g.window k.2)) k := fun _ _ => rfl
  have hgroup : ∀ k, group (fun b : Bar => (b.productId, g.window b.barStart))
      (fctBars1m E rows) k
        = fctBars1m E (group (FctTrade.windowKey g) rows k) := fun k =>
    group_groupBy (fun k _ => hstart k _) hpart k
  have hbar : ∀ k, (rolledBarOf E k
      (fctBars1m E (group (FctTrade.windowKey g) rows k))).candle
        = (barOf E' k (group (FctTrade.windowKey g) rows k)).candle := by
    intro k
    have hproduct : ∀ a ∈ group (FctTrade.windowKey g) rows k,
        ∀ b ∈ group (FctTrade.windowKey g) rows k,
        a.productId = b.productId := by
      intro a ha b hb
      exact congrArg Prod.fst
        ((mem_group.mp ha).2.trans (mem_group.mp hb).2.symm)
    refine rolled_eq_ticks hproduct (fun a ha b hb hid => ?_)
      (fun a ha b hb hle => ?_) k
    · exact List.inj_on_of_nodup_map h.keys (mem_group.mp ha).1
        (mem_group.mp hb).1 (Prod.ext hid (hproduct a ha b hb))
    · have ha' := (mem_group.mp ha).1
      have hb' := (mem_group.mp hb).1
      rw [h.minute a ha', h.minute b hb']
      exact truncate_mono (by decide)
        (h.inOrder a ha' b hb' (hproduct a ha b hb) hle)
  have hgroups : (groups (fun b : Bar => (b.productId, g.window b.barStart))
      (fctBars1m E rows)).Perm (groups (FctTrade.windowKey g) rows) := by
    refine (List.perm_ext_iff_of_nodup nodup_groups nodup_groups).mpr
      fun k => ?_
    rw [← group_ne_nil_iff, ← group_ne_nil_iff, hgroup, fctBars1m, ne_eq,
      groupBy_eq_nil_iff]
  have hmap : (rollUpBars g.window E (fctBars1m E rows)).map
        RolledBar.candle
      = (groups (fun b : Bar => (b.productId, g.window b.barStart))
          (fctBars1m E rows)).map fun k =>
            (barOf E' k (group (FctTrade.windowKey g) rows k)).candle := by
    rw [rollUpBars, groupBy, List.map_map]
    refine List.map_congr_left fun k _ => ?_
    rw [Function.comp_apply, hgroup, hbar]
  rw [hmap]
  exact hgroups.map _

/-- The bars of every grain are the bars of the ticks. -/
theorem Tape.candles_perm (h : Tape rows) (g : Grain) :
    (candles E rows g).Perm (tickCandles E' rows g) := by
  cases g with
  | oneMinute =>
      have hkey : ∀ t ∈ rows,
          FctTrade.windowKey .oneMinute t = t.barKey := by
        intro t ht
        rw [FctTrade.windowKey, FctTrade.barKey, h.minute t ht]
        rfl
      have hgroups : groups (FctTrade.windowKey .oneMinute) rows
          = groups FctTrade.barKey rows :=
        congrArg List.dedup (List.map_congr_left hkey)
      have hgroup : ∀ k, group (FctTrade.windowKey .oneMinute) rows k
          = group FctTrade.barKey rows k := fun k =>
        List.filter_congr fun t ht => by rw [hkey t ht]
      have hticks : tickCandles E' rows .oneMinute
          = (fctBars1m E' rows).map Bar.candle := by
        simp only [tickCandles, fctBars1m, groupBy, hgroups, hgroup,
          List.map_map]
        rfl
      rw [hticks]
      exact (fctBars1m_perm (List.Perm.refl rows) h.keys).map _
  | fiveMinutes => exact h.rollUp_perm .fiveMinutes
  | oneHour => exact h.rollUp_perm .oneHour

/-- One bar for each window with a trade. -/
theorem map_key_tickCandles :
    (tickCandles E rows g).map Candle.key
      = groups (FctTrade.windowKey g) rows :=
  map_groupBy fun _ _ => rfl

/-- The bars of a product and date add up to its trades. -/
theorem Tape.sum_tickCandles (h : Tape rows) (p : String) (d : Int)
    {M : Type} [AddCommMonoid M] {f : Candle → M} {f' : FctTrade → M}
    (hagg : ∀ k rows, f (barOf E k rows).candle = (rows.map f').sum) :
    (((tickCandles E rows g).filter fun c =>
        (c.productId, c.eventDate) = (p, d)).map f).sum
      = ((rows.filter fun t =>
        (t.productId, t.eventDate) = (p, d)).map f').sum := by
  have hpart : ∀ t ∈ rows, (t.productId, t.eventDate)
      = ((FctTrade.windowKey g t).1, dateOf (FctTrade.windowKey g t).2) := by
    intro t ht
    rw [FctTrade.windowKey, h.date t ht, g.dateOf_window]
  have hdate : ∀ (k : String × Int) rows,
      ((barOf E k rows).candle.productId, (barOf E k rows).candle.eventDate)
        = (fun k : String × Int => (k.1, dateOf k.2)) k := fun _ _ => rfl
  have hgroup : group (fun c : Candle => (c.productId, c.eventDate))
      (tickCandles E rows g) (p, d)
        = tickCandles E (group (fun t => (t.productId, t.eventDate)) rows
          (p, d)) g :=
    group_groupBy (fun k _ => hdate k _) hpart (p, d)
  have hfilter : (tickCandles E rows g).filter
        (fun c => (c.productId, c.eventDate) = (p, d))
      = group (fun c : Candle => (c.productId, c.eventDate))
          (tickCandles E rows g) (p, d) := rfl
  rw [hfilter, hgroup]
  exact sum_groupBy hagg

/-- The bars of every grain, rolled up or not, are what the formulas of
the minute bars give on the ticks; every trade is in exactly one of them;
the trades and volumes of a product and date add up; and the prices of
every bar lie where they should. -/
theorem roll_up_is_homomorphism (h : Tape rows) (E E' : Engine)
    (g : Grain) :
    (candles E rows g).Perm (tickCandles E' rows g)
      ∧ (∀ t ∈ rows, ((candles E rows g).filter fun c =>
          c.key = FctTrade.windowKey g t).length = 1)
      ∧ (∀ c ∈ candles E rows g, c.tradeCount
          = (rows.filter fun t => FctTrade.windowKey g t = c.key).length)
      ∧ (∀ p d, (((candles E rows g).filter fun c =>
              (c.productId, c.eventDate) = (p, d)).map
                Candle.tradeCount).sum
            = (rows.filter fun t =>
                (t.productId, t.eventDate) = (p, d)).length
          ∧ (((candles E rows g).filter fun c =>
              (c.productId, c.eventDate) = (p, d)).map Candle.volume).sum
            = ((rows.filter fun t =>
                (t.productId, t.eventDate) = (p, d)).map
                  FctTrade.size).sum)
      ∧ ∀ c ∈ candles E rows g, c.Ordered := by
  have hperm : (candles E rows g).Perm (tickCandles E' rows g) :=
    h.candles_perm g
  refine ⟨hperm, fun t ht => ?_, fun c hc => ?_, fun p d => ⟨?_, ?_⟩,
    fun c hc => ?_⟩
  · have hnodup : ((tickCandles E' rows g).map Candle.key).Nodup := by
      rw [map_key_tickCandles]
      exact nodup_groups
    have hmem : FctTrade.windowKey g t
        ∈ (tickCandles E' rows g).map Candle.key := by
      rw [map_key_tickCandles]
      exact mem_groups.mpr ⟨t, ht, rfl⟩
    obtain ⟨c, hc, hkey⟩ := List.mem_map.mp hmem
    have hone := group_eq_singleton hnodup hc
    rw [(hperm.filter _).length_eq, ← hkey]
    exact congrArg List.length hone
  · obtain ⟨k, -, rfl⟩ := mem_groupBy.mp (hperm.mem_iff.mp hc)
    rfl
  · have hone : ∀ rows : List FctTrade,
        (rows.map fun _ => 1).sum = rows.length := by simp
    rw [((hperm.filter _).map _).sum_eq, ← hone]
    exact h.sum_tickCandles p d fun _ rows => (hone rows).symm
  · rw [((hperm.filter _).map _).sum_eq]
    exact h.sum_tickCandles p d fun _ _ => rfl
  · obtain ⟨k, hk, rfl⟩ := mem_groupBy.mp (hperm.mem_iff.mp hc)
    exact ordered_barOf (group_ne_nil_iff.mpr hk) k

/-- The trades of `fct_trades` are a tape, when the exchange numbers them
in the order of time. -/
theorem tape_of_staged {vars : Vars} {now : Int} {raw : List RawTrade}
    {staged : List StgTrade} (h : stgTrades E vars now raw = some staged)
    (hinOrder : ∀ a ∈ staged, ∀ b ∈ staged, a.productId = b.productId →
      a.tradeId ≤ b.tradeId → a.eventTime ≤ b.eventTime) :
    Tape (fctTrades staged) := by
  obtain ⟨rows, hrows, rfl⟩ := Option.map_eq_some_iff.mp h
  have hfirsts : Firsts StgTrade.key StgTrade.arrival rows
      (firstBy E StgTrade.key StgTrade.arrival rows) := firsts_firstBy
  have htimes : ∀ s ∈ firstBy E StgTrade.key StgTrade.arrival rows,
      s.eventMinute = truncate minute s.eventTime
        ∧ s.eventDate = dateOf s.eventTime := by
    intro s hs
    have hmem := hfirsts.mem s hs
    rw [← (mapM_eq_some_iff.mp hrows).2] at hmem
    obtain ⟨r, -, hr⟩ := List.mem_filterMap.mp hmem
    simp only [derived, Option.bind_eq_bind, Option.bind_eq_some_iff,
      Option.pure_def, Option.some.injEq] at hr
    obtain ⟨_, -, _, -, t, -, _, -, _, -, rfl⟩ := hr
    exact ⟨rfl, rfl⟩
  refine ⟨?_, fun t ht => ?_, fun t ht => ?_, fun a ha b hb => ?_⟩
  · rw [fctTrades, List.map_map]
    exact hfirsts.nodup
  · obtain ⟨s, hs, rfl⟩ := List.mem_map.mp ht
    exact (htimes s hs).1
  · obtain ⟨s, hs, rfl⟩ := List.mem_map.mp ht
    exact (htimes s hs).2
  · obtain ⟨s, hs, rfl⟩ := List.mem_map.mp ha
    obtain ⟨s', hs', rfl⟩ := List.mem_map.mp hb
    exact hinOrder s hs s' hs'

end Grains

-- ============================================================== a short tape

/-- Two trades of one minute, and one two minutes later. -/
def gappedRaw : List RawTrade := [
  row 1 10 "100" "1", row 2 10 "102" "2", row 3 130 "99" "1"]
where
  row (tradeId seconds : Int) (price size : String) : RawTrade :=
    { sequence := tradeId, productId := "BTC-USD", tradeId, price, size
      side := "sell", makerOrderId := "", takerOrderId := ""
      eventTime := .millis (1000 * seconds)
      ingestTime := .millis (1000 * seconds + 50) }

def gappedTape : List FctTrade :=
  fctTrades ((stgTrades Engine.inOrder {} 0 gappedRaw).getD [])

theorem tape_gappedTape : Tape gappedTape := by
  have hstaged : stgTrades Engine.inOrder {} 0 gappedRaw
      = some ((stgTrades Engine.inOrder {} 0 gappedRaw).getD []) := by
    decide +kernel
  exact tape_of_staged hstaged (by decide +kernel)

theorem roll_up_is_homomorphism_gapped :
    let rolled := candles Engine.inOrder gappedTape .fiveMinutes
    let ofDay := rolled.filter fun c =>
      (c.productId, c.eventDate) = ("BTC-USD", 0)
    rolled.Perm (tickCandles Engine.inReverse gappedTape .fiveMinutes)
      ∧ (ofDay.map Candle.tradeCount).sum = 3
      ∧ (ofDay.map Candle.volume).sum = 4
      ∧ ∀ c ∈ rolled, c.Ordered := by
  obtain ⟨hperm, -, -, hsums, hordered⟩ := roll_up_is_homomorphism
    tape_gappedTape Engine.inOrder Engine.inReverse .fiveMinutes
  obtain ⟨hcounts, hvolumes⟩ := hsums "BTC-USD" 0
  exact ⟨hperm, hcounts.trans (by decide +kernel),
    hvolumes.trans (by decide +kernel), hordered⟩

end MarketPlatform.Warehouse
