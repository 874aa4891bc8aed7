/-
What passing the tests of `fct_trades` makes of the bars.

# One trade, one bar

No bar is ever made of a trade that fails a test: each of a table's
trades is `Valid` when the tests pass (`TradesPass.valid`), and a bar of
valid trades has ordered positive prices and volumes that add up
(`Bar.Coherent`), which a coarser bar inherits from its minutes
(`RolledBar.Coherent`). The open and the close are prices of trades of
the bar, so they lie between its least and its greatest; the takers'
volumes are sums of positive sizes over a partition of the trades, so
they add up to the volume and their difference is a share of it, also
after rounding (`split_of_parts`).

# The tables

A table keeps the bars of the builds before it, so this is an invariant
of the tables and not of one query (`Marts.Coherent`). Every row of a
written table is a row of the query or an old one
(`forall_materialize`), and one key has one row because old and new rows
of a key lie in one partition (`nodup_materialize`). A build may stop at
either set of tests; in each case what was written had passed the tests
above it, and the rest was there before (`coherent_dbtBuild`). So it
holds after any builds, whatever the raw table held
(`coherent_dbtBuilds`).
-/
import MarketPlatform.Proofs.Builds
import MarketPlatform.Warehouse.DbtBuild

namespace MarketPlatform.Warehouse

open Lib Lib.Rfc3339 Lib.Relation Lib.Partitioned Lib.Numeral

-- =================================================================== tests

section Tests

variable {α κ : Type} [DecidableEq κ] {rows : List α}

/-- The test passes when the expression is false of no row. -/
theorem expressionIsTrue_eq_nil_iff {expression : α → Option Bool} :
    expressionIsTrue expression rows = []
      ↔ ∀ r ∈ rows, expression r ≠ some false := by
  simp only [expressionIsTrue, List.filter_eq_nil_iff, decide_eq_true_eq,
    ne_eq]

/-- The test passes when every value is accepted; a null is. -/
theorem acceptedValues_eq_nil_iff {values : List String}
    {column : α → Option String} :
    acceptedValues values column rows = []
      ↔ ∀ r ∈ rows, ∀ v ∈ column r, v ∈ values := by
  simp only [acceptedValues, List.filter_eq_nil_iff, List.mem_dedup,
    List.mem_filterMap, decide_eq_true_eq, not_not]
  constructor
  · exact fun h r hr v hv => h v ⟨r, hr, hv⟩
  · intro h v hx
    obtain ⟨r, hr, hv⟩ := hx
    exact h r hr v hv

/-- A combination of columns occurs once when it tells the rows apart. -/
theorem occurrences_eq_nil_iff {columns : α → κ} :
    occurrences columns rows = [] ↔ (rows.map columns).Nodup := by
  have hlength : ∀ k, (group columns rows k).length
      = (rows.map columns).count k := by
    intro k
    rw [List.count, List.countP_map, List.countP_eq_length_filter, group]
    rfl
  simp only [occurrences, List.filter_eq_nil_iff, mem_groupBy,
    decide_eq_true_eq, forall_exists_index, and_imp]
  rw [List.nodup_iff_count_le_one]
  constructor
  · intro h k
    by_cases hk : k ∈ groups columns rows
    · have hle := h _ k hk rfl
      rw [← hlength k]
      exact not_lt.mp hle
    · have hzero : (rows.map columns).count k = 0 := by
        refine List.count_eq_zero.mpr fun hmem => hk ?_
        exact List.mem_dedup.mpr hmem
      omega
  · rintro h _ k - rfl
    rw [hlength]
    exact not_lt.mpr (h k)

end Tests

-- ================================================================= trades

/-- What the tests ask of one trade. -/
structure FctTrade.Valid (t : FctTrade) : Prop where
  tradeId : 0 < t.tradeId
  product : t.productId ∈ acceptedProducts
  price : 0 < t.price
  size : 0 < t.size
  taker : t.takerSide = some "buy" ∨ t.takerSide = some "sell"

section Trades

variable {approxQuantile : Nat → List Int → Option Int} {vars : Vars}
  {now : Int} {trades : List FctTrade}

/-- The trades of a table that passes are valid: one test for each
field. -/
theorem TradesPass.valid (h : TradesPass approxQuantile vars now trades) :
    ∀ t ∈ trades, t.Valid := by
  intro t ht
  have hid := expressionIsTrue_eq_nil_iff.mp h.tradeId t ht
  have hprice := expressionIsTrue_eq_nil_iff.mp h.price t ht
  have hsize := expressionIsTrue_eq_nil_iff.mp h.size t ht
  have htaker := acceptedValues_eq_nil_iff.mp h.takerSide t ht
  have hnot := List.filter_eq_nil_iff.mp h.takerIsInverse t ht
  simp only [ne_eq, Option.some.injEq, decide_eq_false_iff_not, not_not]
    at hid hprice hsize
  refine ⟨hid, ?_, hprice, hsize, ?_⟩
  · exact acceptedValues_eq_nil_iff.mp h.productId t ht _ rfl
  · -- a null side is caught by the query, any other by the accepted values
    cases hside : t.takerSide with
    | none => simp [hside] at hnot
    | some v =>
        have hv := htaker v hside
        simp only [acceptedSides, List.mem_cons, List.not_mem_nil,
          or_false] at hv
        rcases hv with rfl | rfl
        · exact Or.inl rfl
        · exact Or.inr rfl

/-- And no two of them share a key. -/
theorem TradesPass.nodup (h : TradesPass approxQuantile vars now trades) :
    (trades.map FctTrade.key).Nodup :=
  occurrences_eq_nil_iff.mp h.noDuplicates

end Trades

-- ================================================================== a bar

/-- The prices of a bar are there, positive and in order. -/
def OrderedPrices (openPrice high low closePrice : Option ℚ) : Prop :=
  ∃ o h l c, openPrice = some o ∧ high = some h ∧ low = some l
    ∧ closePrice = some c ∧ 0 < l ∧ l ≤ o ∧ l ≤ c ∧ o ≤ h ∧ c ≤ h

/-- The volume of a bar is positive, and its takers' sides add up. -/
structure SplitVolume (volume buy sell : ℚ) (imbalance : Option ℚ) : Prop
    where
  pos : 0 < volume
  buy_nonneg : 0 ≤ buy
  sell_nonneg : 0 ≤ sell
  total : buy + sell = volume
  imbalance : ∃ x, imbalance = some x ∧ -1 ≤ x ∧ x ≤ 1

/-- A minute bar is as it should be. -/
structure Bar.Coherent (b : Bar) : Prop where
  product : b.productId ∈ acceptedProducts
  prices : OrderedPrices b.openPrice b.high b.low b.closePrice
  volume : SplitVolume b.volume b.buyVolume b.sellVolume b.volumeImbalance
  trades : 1 ≤ b.tradeCount

/-- A coarser bar is: each of its minutes has a trade, so it has no
fewer trades than minutes. -/
structure RolledBar.Coherent (b : RolledBar) : Prop where
  product : b.productId ∈ acceptedProducts
  prices : OrderedPrices b.openPrice b.high b.low b.closePrice
  volume : SplitVolume b.volume b.buyVolume b.sellVolume b.volumeImbalance
  sources : 1 ≤ b.sourceBarCount ∧ b.sourceBarCount ≤ b.tradeCount

/-- The share that the sides differ by, rounded, stays a share. -/
theorem split_of_parts {volume buy sell : ℚ} (hpos : 0 < volume)
    (hbuy : 0 ≤ buy) (hsell : 0 ≤ sell) (htotal : buy + sell = volume) :
    SplitVolume volume buy sell (safeDivide (buy - sell) volume) := by
  have hshare : |(buy - sell) / volume| ≤ 1 := by
    rw [abs_div, abs_of_pos hpos, div_le_one hpos, abs_le]
    constructor <;> linarith
  have hround := abs_le.mp (abs_roundAway_le (k := 9)
    ⟨10 ^ 9, by norm_num⟩ hshare)
  exact ⟨hpos, hbuy, hsell, htotal, _, if_neg hpos.ne', hround⟩

section Bar

variable {E : Engine} {rows : List FctTrade}

/-- The prices of a bar are prices of its trades: the least and the
greatest, and two in between. -/
theorem orderedPrices_barOf (hrows : rows ≠ [])
    (hvalid : ∀ t ∈ rows, t.Valid) (k : String × Int) :
    OrderedPrices (barOf E k rows).openPrice (barOf E k rows).high
      (barOf E k rows).low (barOf E k rows).closePrice := by
  obtain ⟨a, ha⟩ := exists_first E FctTrade.tradeId hrows
  obtain ⟨z, hz⟩ := exists_last E FctTrade.tradeId hrows
  have hamem := List.mem_map_of_mem (f := FctTrade.price) (mem_of_first ha)
  have hzmem := List.mem_map_of_mem (f := FctTrade.price) (mem_of_last hz)
  obtain ⟨h, hhigh⟩ := exists_maxOf hamem
  obtain ⟨l, hlow⟩ := exists_minOf hamem
  obtain ⟨hlmem, hmin⟩ := minOf_eq_some_iff.mp hlow
  obtain ⟨-, hmax⟩ := maxOf_eq_some_iff.mp hhigh
  obtain ⟨t, ht, rfl⟩ := List.mem_map.mp hlmem
  exact ⟨a.price, h, t.price, z.price, by rw [barOf, ha]; rfl, hhigh, hlow,
    by rw [barOf, hz]; rfl, (hvalid t ht).price, hmin _ hamem, hmin _ hzmem,
    hmax _ hamem, hmax _ hzmem⟩

/-- A taker's volume is not negative. -/
theorem takerVolume_nonneg (hvalid : ∀ t ∈ rows, t.Valid) (side : String) :
    0 ≤ takerVolume side rows := by
  refine List.sum_nonneg fun v hv => ?_
  obtain ⟨t, ht, rfl⟩ := List.mem_map.mp hv
  split
  · exact (hvalid t ht).size.le
  · exact le_refl 0

/-- Every trade is on one taker's side. -/
theorem takerVolume_add (hvalid : ∀ t ∈ rows, t.Valid) :
    takerVolume "buy" rows + takerVolume "sell" rows
      = (rows.map FctTrade.size).sum := by
  unfold takerVolume
  rw [← List.sum_map_add]
  refine congrArg List.sum (List.map_congr_left fun t ht => ?_)
  rcases (hvalid t ht).taker with h | h <;> simp [h]

/-- A bar has a trade, and its size is positive. -/
theorem volume_pos (hrows : rows ≠ []) (hvalid : ∀ t ∈ rows, t.Valid) :
    0 < (rows.map FctTrade.size).sum := by
  refine List.sum_pos _ (fun v hv => ?_) (by simpa using hrows)
  obtain ⟨t, ht, rfl⟩ := List.mem_map.mp hv
  exact (hvalid t ht).size

/-- A bar of valid trades is coherent. -/
theorem coherent_of_mem_fctBars1m (hvalid : ∀ t ∈ rows, t.Valid) {b : Bar}
    (h : b ∈ fctBars1m E rows) : b.Coherent := by
  obtain ⟨k, hk, rfl⟩ := mem_groupBy.mp h
  have hgroup : ∀ t ∈ group FctTrade.barKey rows k, t.Valid := fun t ht =>
    hvalid t (mem_group.mp ht).1
  have hne := group_ne_nil_iff.mpr hk
  obtain ⟨t, ht, rfl⟩ := mem_groups.mp hk
  exact {
    product := (hvalid t ht).product
    prices := orderedPrices_barOf hne hgroup _
    volume := split_of_parts (volume_pos hne hgroup)
      (takerVolume_nonneg hgroup _) (takerVolume_nonneg hgroup _)
      (takerVolume_add hgroup)
    trades := List.length_pos_of_ne_nil hne }

end Bar

section Rolled

variable {E : Engine} {rows : List Bar}

/-- The prices of a coarser bar are prices of its minutes. -/
theorem orderedPrices_rolledBarOf (hrows : rows ≠ [])
    (hbars : ∀ b ∈ rows, b.Coherent) (k : String × Int) :
    OrderedPrices (rolledBarOf E k rows).openPrice (rolledBarOf E k rows).high
      (rolledBarOf E k rows).low (rolledBarOf E k rows).closePrice := by
  obtain ⟨a, ha⟩ := exists_first E Bar.barStart hrows
  obtain ⟨z, hz⟩ := exists_last E Bar.barStart hrows
  obtain ⟨o, ha_h, ha_l, -, hopen, hah, hal, -, -, hao, -, hoh, -⟩ :=
    (hbars a (mem_of_first ha)).prices
  obtain ⟨-, hz_h, hz_l, c, -, hzh, hzl, hclose, -, -, hzc, -, hch⟩ :=
    (hbars z (mem_of_last hz)).prices
  have hmem : ∀ {f : Bar → Option ℚ} {b : Bar} {v : ℚ}, b ∈ rows →
      f b = some v → v ∈ rows.filterMap f := fun hb hv =>
    List.mem_filterMap.mpr ⟨_, hb, hv⟩
  obtain ⟨h, hhigh⟩ := exists_maxOf (hmem (mem_of_first ha) hah)
  obtain ⟨l, hlow⟩ := exists_minOf (hmem (mem_of_first ha) hal)
  obtain ⟨hlmem, hmin⟩ := minOf_eq_some_iff.mp hlow
  obtain ⟨-, hmax⟩ := maxOf_eq_some_iff.mp hhigh
  have hpos : 0 < l := by
    obtain ⟨b, hb, hbl⟩ := List.mem_filterMap.mp hlmem
    obtain ⟨-, -, l', -, -, -, hl', -, hl'pos, -⟩ := (hbars b hb).prices
    obtain rfl := Option.some.inj (hbl.symm.trans hl')
    exact hl'pos
  refine ⟨o, h, l, c, ?_, hhigh, hlow, ?_, hpos,
    (hmin _ (hmem (mem_of_first ha) hal)).trans hao,
    (hmin _ (hmem (mem_of_last hz) hzl)).trans hzc,
    hoh.trans (hmax _ (hmem (mem_of_first ha) hah)),
    hch.trans (hmax _ (hmem (mem_of_last hz) hzh))⟩
  · rw [rolledBarOf, ha]
    exact hopen
  · rw [rolledBarOf, hz]
    exact hclose

/-- Its volumes are sums of theirs. -/
theorem splitVolume_rolledBarOf (hrows : rows ≠ [])
    (hbars : ∀ b ∈ rows, b.Coherent) (k : String × Int) :
    SplitVolume (rolledBarOf E k rows).volume (rolledBarOf E k rows).buyVolume
      (rolledBarOf E k rows).sellVolume
      (rolledBarOf E k rows).volumeImbalance := by
  refine split_of_parts ?_ ?_ ?_ ?_
  · refine List.sum_pos _ (fun v hv => ?_) (by simpa using hrows)
    obtain ⟨b, hb, rfl⟩ := List.mem_map.mp hv
    exact (hbars b hb).volume.pos
  · refine List.sum_nonneg fun v hv => ?_
    obtain ⟨b, hb, rfl⟩ := List.mem_map.mp hv
    exact (hbars b hb).volume.buy_nonneg
  · refine List.sum_nonneg fun v hv => ?_
    obtain ⟨b, hb, rfl⟩ := List.mem_map.mp hv
    exact (hbars b hb).volume.sell_nonneg
  · show (rows.map Bar.buyVolume).sum + (rows.map Bar.sellVolume).sum
      = (rows.map Bar.volume).sum
    rw [← List.sum_map_add]
    exact congrArg List.sum (List.map_congr_left fun b hb =>
      (hbars b hb).volume.total)

/-- Each minute has a trade. -/
theorem length_le_sum_tradeCount (hbars : ∀ b ∈ rows, b.Coherent) :
    rows.length ≤ (rows.map Bar.tradeCount).sum := by
  have hle := List.card_nsmul_le_sum (rows.map Bar.tradeCount) 1 fun n hn => by
    obtain ⟨b, hb, rfl⟩ := List.mem_map.mp hn
    exact (hbars b hb).trades
  simpa using hle

/-- A coarser bar of coherent bars is coherent. -/
theorem coherent_of_mem_rollUpBars {window : Int → Int}
    (hbars : ∀ b ∈ rows, b.Coherent) {r : RolledBar}
    (h : r ∈ rollUpBars window E rows) : r.Coherent := by
  obtain ⟨k, hk, rfl⟩ := mem_groupBy.mp h
  have hgroup : ∀ b ∈ group (fun b => (b.productId, window b.barStart)) rows k,
      b.Coherent := fun b hb => hbars b (mem_group.mp hb).1
  have hne := group_ne_nil_iff.mpr hk
  obtain ⟨b, hb, rfl⟩ := mem_groups.mp hk
  exact {
    product := (hbars b hb).product
    prices := orderedPrices_rolledBarOf hne hgroup _
    volume := splitVolume_rolledBarOf hne hgroup _
    sources := ⟨List.length_pos_of_ne_nil hne,
      length_le_sum_tradeCount hgroup⟩ }

end Rolled

-- =============================================================== the tables

/-- The product and the start of a coarser bar. -/
def RolledBar.key (b : RolledBar) : String × Int := (b.productId, b.barStart)

/-- A table of coarser bars: each is coherent and dated by its start, and
a product has one bar for a start. -/
structure CoarseBars (bars : List RolledBar) : Prop where
  coherent : ∀ b ∈ bars, b.Coherent
  dated : ∀ b ∈ bars, b.eventDate = dateOf b.barStart
  keys : (bars.map RolledBar.key).Nodup

/-- The same of the minute bars. -/
structure MinuteBars (bars : List Bar) : Prop where
  coherent : ∀ b ∈ bars, b.Coherent
  dated : ∀ b ∈ bars, b.Dated
  keys : (bars.map Bar.key).Nodup

/-- What every build keeps of the bars. -/
structure Marts.Coherent (m : Marts) : Prop where
  bars1m : ∀ bars ∈ m.bars1m, MinuteBars bars
  bars5m : ∀ bars ∈ m.bars5m, CoarseBars bars
  bars1h : ∀ bars ∈ m.bars1h, CoarseBars bars

section Materialize

variable {ρ κ : Type} {table : Option (List ρ)} {full : Bool}
  {date : ρ → Int} {query : Bool → List ρ}

/-- What old rows and the query's rows have, the written rows have. -/
theorem forall_materialize {P : ρ → Prop}
    (hold : ∀ t ∈ table, ∀ r ∈ t, P r)
    (hquery : ∀ inc, ∀ r ∈ query inc, P r) :
    ∀ r ∈ materialize table full date query, P r := by
  intro r hr
  rcases mem_materialize hr with ⟨t, ht, hr⟩ | ⟨inc, hr⟩
  · exact hold t ht r hr
  · exact hquery inc r hr

/-- A written table has one row for a key, when a key has one date. -/
theorem nodup_materialize {key : ρ → κ} (on : κ → Int)
    (hold : ∀ t ∈ table, (t.map key).Nodup ∧ ∀ r ∈ t, date r = on (key r))
    (hquery : ∀ inc, ((query inc).map key).Nodup
      ∧ ∀ r ∈ query inc, date r = on (key r)) :
    ((materialize table full date query).map key).Nodup := by
  rcases incremental_or_full table full with ⟨t, rfl, rfl⟩ | hfull
  · obtain ⟨ht, htd⟩ := hold t rfl
    obtain ⟨hq, hqd⟩ := hquery true
    exact nodup_overwritten on hq ht hqd htd
  · have hwhole : materialize table full date query = query false := by
      rcases hfull with rfl | rfl
      · rfl
      · cases table <;> rfl
    rw [hwhole]
    exact (hquery false).1

end Materialize

/-- A row that a query reads is a row of the source. -/
theorem mem_of_mem_windowed {ρ : Type} {vars : Vars} {now : Int}
    {inc : Bool} {date : ρ → Int} {rows : List ρ} {r : ρ}
    (h : r ∈ windowed vars now inc date rows) : r ∈ rows := by
  cases inc with
  | true => exact (List.mem_filter.mp h).1
  | false => exact h

/-- The query of the minute bars, over valid trades. -/
theorem minuteBars_of_valid {E : Engine} {trades : List FctTrade}
    (hvalid : ∀ t ∈ trades, t.Valid) : MinuteBars (fctBars1m E trades) where
  coherent := fun _ hb => coherent_of_mem_fctBars1m hvalid hb
  dated := fun _ hb => dated_of_mem_fctBars1m hb
  keys := nodup_fctBars1m

/-- The query of coarser bars, over coherent minutes. -/
theorem coarseBars_of_minuteBars {E : Engine} {window : Int → Int}
    {bars : List Bar} (hbars : ∀ b ∈ bars, b.Coherent) :
    CoarseBars (rollUpBars window E bars) where
  coherent := fun _ hr => coherent_of_mem_rollUpBars hbars hr
  dated := fun r hr => by
    obtain ⟨k, -, rfl⟩ := mem_groupBy.mp hr
    rfl
  keys := by
    have hkey : ∀ k rows, (rolledBarOf E k rows).key = k := fun _ _ => rfl
    rw [rollUpBars, map_groupBy hkey]
    exact nodup_groups

/-- A written table of minute bars. -/
theorem MinuteBars.materialize {table : Option (List Bar)} {full : Bool}
    {query : Bool → List Bar} (hold : ∀ t ∈ table, MinuteBars t)
    (hquery : ∀ inc, MinuteBars (query inc)) :
    MinuteBars (materialize table full Bar.eventDate query) where
  coherent := forall_materialize (fun t ht => (hold t ht).coherent)
    fun inc => (hquery inc).coherent
  dated := forall_materialize (fun t ht => (hold t ht).dated)
    fun inc => (hquery inc).dated
  keys := nodup_materialize (fun k => dateOf k.2)
    (fun t ht => ⟨(hold t ht).keys, (hold t ht).dated⟩)
    fun inc => ⟨(hquery inc).keys, (hquery inc).dated⟩

/-- A written table of coarser bars. -/
theorem CoarseBars.materialize {table : Option (List RolledBar)}
    {full : Bool} {query : Bool → List RolledBar}
    (hold : ∀ t ∈ table, CoarseBars t)
    (hquery : ∀ inc, CoarseBars (query inc)) :
    CoarseBars (materialize table full RolledBar.eventDate query) where
  coherent := forall_materialize (fun t ht => (hold t ht).coherent)
    fun inc => (hquery inc).coherent
  dated := forall_materialize (fun t ht => (hold t ht).dated)
    fun inc => (hquery inc).dated
  keys := nodup_materialize (fun k => dateOf k.2)
    (fun t ht => ⟨(hold t ht).keys, (hold t ht).dated⟩)
    fun inc => ⟨(hquery inc).keys, (hquery inc).dated⟩

-- ================================================================= builds

section Build

variable {vars : Vars} {history : List Delivery} {i : Invocation}
  {m : Marts} {trades : List FctTrade}

/-- A run of `fct_bars_1m`. -/
theorem minuteBars_runBars1m (hm : m.Coherent)
    (hvalid : ∀ t ∈ trades, t.Valid) :
    MinuteBars (m.runBars1m vars i trades) :=
  MinuteBars.materialize hm.bars1m fun _ =>
    minuteBars_of_valid fun t ht => hvalid t (mem_of_mem_windowed ht)

/-- The coarser bars, written or kept. -/
theorem coherent_afterBars (hm : m.Coherent) {bars : List Bar}
    (hbars : MinuteBars bars) : (m.afterBars vars i trades bars).Coherent := by
  have hrolled : ∀ (table : Option (List RolledBar)),
      (∀ t ∈ table, CoarseBars t) → ∀ window : Int → Int,
      CoarseBars (materialize table i.fullRefresh RolledBar.eventDate
        fun inc => rollUpBars window i.engine
          (windowed vars i.now inc Bar.eventDate bars)) := by
    intro table hold window
    refine CoarseBars.materialize hold fun inc => ?_
    exact coarseBars_of_minuteBars fun b hb =>
      hbars.coherent b (mem_of_mem_windowed hb)
  have hthis : ∀ t ∈ some bars, MinuteBars t := fun t ht =>
    Option.some.inj ht ▸ hbars
  unfold Marts.afterBars
  split
  · refine ⟨hthis, fun t ht => ?_, fun t ht => ?_⟩
    · exact Option.some.inj ht ▸ hrolled m.bars5m hm.bars5m window5m
    · exact Option.some.inj ht ▸ hrolled m.bars1h hm.bars1h window1h
  · exact ⟨hthis, hm.bars5m, hm.bars1h⟩

/-- A build of coherent tables gives coherent tables. -/
theorem coherent_dbtBuild (hm : m.Coherent) :
    (dbtBuild vars history m i).Coherent := by
  unfold dbtBuild
  split
  · unfold Marts.afterTrades
    split
    · next hpass =>
        exact coherent_afterBars hm (minuteBars_runBars1m hm hpass.valid)
    · exact ⟨hm.bars1m, hm.bars5m, hm.bars1h⟩
  · exact hm

/-- Builds keep it, by induction on them. -/
theorem coherent_builds_from (hm : m.Coherent) (is : List Invocation) :
    (dbtBuilds vars history m is).Coherent := by
  induction is generalizing m with
  | nil => exact hm
  | cons i is ih => exact ih (coherent_dbtBuild hm)

end Build

/-- After any builds, full or incremental, in any order and over any raw
rows, every bar of every table is coherent and the only one of its key:
no bar is made of a trade that fails a test. -/
theorem coherent_dbtBuilds (vars : Vars) (history : List Delivery)
    (is : List Invocation) : (dbtBuilds vars history {} is).Coherent := by
  refine coherent_builds_from ⟨?_, ?_, ?_⟩ is
  all_goals
    intro t ht
    cases ht

end MarketPlatform.Warehouse
