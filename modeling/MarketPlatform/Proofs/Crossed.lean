/-
The two checks that a book is not crossed: the consumer's, in memory,
and `assert_no_crossed_book`, on what the warehouse reconstructs.

# What each can see

The consumer compares the best prices of the whole book, and raises when
the ask is not above the bid. The warehouse keeps the levels near the
snapshot's mid only. So its test reports a minute exactly when an ask of
the band is at or below a bid of the band (`crossedBook_iff`): what it
reports the consumer has raised, and of what the consumer raises it
misses the books that cross at a level outside the band.

# The plan

Either check is about two extrema, and two extrema are crossed exactly
when some bid and some ask are: for the mart by the maximum and minimum
of a minute's prices (`reportsCrossed_iff`), for the book by the order
of its sides, whose first level no other comes before
(`quote_crossed_iff`). What they look at is the same book, once the
minute's rows are the in-band levels of it (`reportsCrossed_live`); when
that is so is the subject of `BookAgreement` and the modules after it.
-/
import MarketPlatform.Proofs.BookAgreement
import MarketPlatform.Proofs.BookMap
import MarketPlatform.Warehouse.Tests

namespace MarketPlatform.Warehouse

open Lib Lib.Relation
open Consumer Consumer.OrderBook

variable {g : String × Int} {mid : ℚ} {rows : List BookRow} {b : OrderBook}

-- =============================================================== the test

/-- The test has a row of the product and minute. -/
def ReportsCrossed (rows : List BookRow) (g : String × Int) : Prop :=
  ∃ l ∈ assertNoCrossedBook (fctLiquidity1m rows), l.gridKey = g

/-- An ask at or below a bid. -/
def CrossedAt (counts : ℚ → Bool) (b : OrderBook) : Prop :=
  ∃ bid bidSize ask askSize, b.bids.Rests bid bidSize
    ∧ b.asks.Rests ask askSize ∧ counts bid = true ∧ counts ask = true
    ∧ ask ≤ bid

/-- The row of a minute shows its best prices. -/
theorem liquidityOf_touch {rows : List BookRow} {l : Liquidity}
    (h : liquidityOf g rows = some l) :
    maxOf (bookPrices "buy" rows) = some l.bestBid
      ∧ minOf (bookPrices "sell" rows) = some l.bestAsk
      ∧ l.spread = l.bestAsk - l.bestBid := by
  simp only [liquidityOf, Option.bind_eq_bind, Option.bind_eq_some_iff,
    Option.pure_def, Option.some.injEq] at h
  obtain ⟨bestBid, hbid, bestAsk, hask, rfl⟩ := h
  exact ⟨hbid, hask, rfl⟩

/-- A minute with a bid and an ask has a row. -/
theorem exists_liquidityOf {rows : List BookRow} {x y : ℚ}
    (hx : x ∈ bookPrices "buy" rows) (hy : y ∈ bookPrices "sell" rows) :
    ∃ l, liquidityOf g rows = some l := by
  obtain ⟨bestBid, hbid⟩ := exists_maxOf hx
  obtain ⟨bestAsk, hask⟩ := exists_minOf hy
  unfold liquidityOf
  rw [hbid, hask]
  exact ⟨_, rfl⟩

/-- The rows of a minute in the mart. -/
theorem mem_fctLiquidity1m {l : Liquidity} :
    l ∈ fctLiquidity1m rows ∧ l.gridKey = g
      ↔ liquidityOf g (group BookRow.gridKey rows g) = some l := by
  rw [← mem_group, group_fctLiquidity1m, Option.mem_toList]

/-- The touch is crossed exactly when some bid and some ask are. -/
theorem reportsCrossed_iff :
    ReportsCrossed rows g
      ↔ ∃ x ∈ bookPrices "buy" (group BookRow.gridKey rows g),
        ∃ y ∈ bookPrices "sell" (group BookRow.gridKey rows g), y ≤ x := by
  constructor
  · intro h
    obtain ⟨l, hl, hkey⟩ := h
    obtain ⟨hmem, hcrossed⟩ := List.mem_filter.mp hl
    obtain ⟨hbid, hask, hspread⟩ :=
      liquidityOf_touch (mem_fctLiquidity1m.mp ⟨hmem, hkey⟩)
    refine ⟨_, mem_of_maxOf hbid, _, mem_of_minOf hask, ?_⟩
    rw [Bool.or_eq_true, decide_eq_true_eq, decide_eq_true_eq, hspread]
      at hcrossed
    rcases hcrossed with hle | hle
    · exact hle
    · linarith
  · intro h
    obtain ⟨x, hx, y, hy, hle⟩ := h
    obtain ⟨l, hl⟩ := exists_liquidityOf hx hy
    obtain ⟨hbid, hask, -⟩ := liquidityOf_touch hl
    obtain ⟨hmem, hkey⟩ := mem_fctLiquidity1m.mpr hl
    refine ⟨l, List.mem_filter.mpr ⟨hmem, ?_⟩, hkey⟩
    have hx := (maxOf_eq_some_iff.mp hbid).2 x hx
    have hy := (minOf_eq_some_iff.mp hask).2 y hy
    rw [Bool.or_eq_true, decide_eq_true_eq]
    exact Or.inl (hy.trans (hle.trans hx))

/-- The prices of one side of a live book's rows. -/
theorem mem_bookPrices_live
    (hrows : (group BookRow.gridKey rows g).Perm (liveRows g mid b))
    {side : Side} {q : ℚ} :
    q ∈ bookPrices side.name (group BookRow.gridKey rows g)
      ↔ inBand mid q = true ∧ ∃ s, (b.levels side).Rests q s := by
  rw [mem_bookPrices]
  constructor
  · intro h
    obtain ⟨r, hr, hside, hprice⟩ := h
    obtain ⟨side', q', s, hband, hrests, rfl⟩ :=
      mem_liveRows.mp (hrows.mem_iff.mp hr)
    obtain rfl := Side.name_inj (Option.some.inj hside)
    obtain rfl := Option.some.inj hprice
    exact ⟨hband, s, hrests⟩
  · intro h
    obtain ⟨hband, s, hrests⟩ := h
    exact ⟨_, hrows.mem_iff.mpr (mem_liveRows.mpr
      ⟨side, q, s, hband, hrests, rfl⟩), rfl, rfl⟩

/-- The test reports what crosses inside the band. -/
theorem reportsCrossed_live
    (hrows : (group BookRow.gridKey rows g).Perm (liveRows g mid b)) :
    ReportsCrossed rows g ↔ CrossedAt (inBand mid) b := by
  have hprices : ∀ (side : Side) (q : ℚ),
      q ∈ bookPrices side.name (group BookRow.gridKey rows g)
        ↔ inBand mid q = true ∧ ∃ s, (b.levels side).Rests q s :=
    fun side q => mem_bookPrices_live hrows
  rw [reportsCrossed_iff]
  constructor
  · intro h
    obtain ⟨bid, hbid, ask, hask, hle⟩ := h
    obtain ⟨hbidBand, bidSize, hbid⟩ := (hprices .buy bid).mp hbid
    obtain ⟨haskBand, askSize, hask⟩ := (hprices .sell ask).mp hask
    exact ⟨bid, bidSize, ask, askSize, hbid, hask, hbidBand, haskBand, hle⟩
  · intro h
    obtain ⟨bid, bidSize, ask, askSize, hbid, hask, hbidBand, haskBand, hle⟩
      := h
    exact ⟨bid, (hprices .buy bid).mpr ⟨hbidBand, bidSize, hbid⟩,
      ask, (hprices .sell ask).mpr ⟨haskBand, askSize, hask⟩, hle⟩

-- =============================================================== the book

/-- No price of a side comes before its best one. -/
theorem not_before_best {side : Side} {d : Levels}
    (hd : Levels.Sorted side d) {q s q' s' : ℚ}
    (hhead : d.head? = some (.finite q, .finite s))
    (hrests : d.Rests q' s') : ¬ side.Before q' q :=
  (hd.sortedBy.head.mp hhead).2 q' s' hrests

/-- The consumer raises when a bid and an ask are crossed, wherever. -/
theorem quote_crossed_iff {log : Option (List Entry)} (hlog : Logged log b)
    (hb : b.Both Levels.Sorted) :
    b.quote = .error .crossedBookError ↔ CrossedAt (fun _ => true) b := by
  obtain ⟨hbestBid, hbestAsk⟩ := hlog.best
  rw [hlog.crossed_iff hb]
  constructor
  · intro h
    obtain ⟨bid, bidSize, ask, askSize, hbid, hask, hle⟩ := h
    rw [hbestBid] at hbid
    rw [hbestAsk] at hask
    exact ⟨bid, bidSize, ask, askSize, List.mem_of_mem_head? hbid,
      List.mem_of_mem_head? hask, rfl, rfl, hle⟩
  · intro h
    obtain ⟨bid, bidSize, ask, askSize, hbid, hask, -, -, hle⟩ := h
    obtain ⟨bid', bidSize', hbid'⟩ :=
      exists_head (hb .buy).plain (List.ne_nil_of_mem hbid)
    obtain ⟨ask', askSize', hask'⟩ :=
      exists_head (hb .sell).plain (List.ne_nil_of_mem hask)
    refine ⟨bid', bidSize', ask', askSize', hbestBid.trans hbid',
      hbestAsk.trans hask', ?_⟩
    have hbuy : ¬ bid' < bid := not_before_best (hb .buy) hbid' hbid
    have hsell : ¬ ask < ask' := not_before_best (hb .sell) hask' hask
    linarith

-- ============================================================== agreement

/-- Calls of finite levels leave a sorted book with a log. -/
theorem exists_logged {ops : List Op} (hops : ∀ op ∈ ops, op.Finite) :
    ∃ b log, (runAll ops).run {} = .ok () b ∧ Logged log b
      ∧ b.Both Levels.Sorted := by
  have hnew : Logged none {} := ⟨fun side => by cases side <;> rfl, rfl⟩
  have hsorted : Both Levels.Sorted {} := fun side => by
    cases side <;> exact Levels.sorted_nil _
  obtain ⟨b, hrun, hlog, hb⟩ := run_runAll ops hops hnew hsorted
  exact ⟨b, _, hrun, hlog, hb⟩

/-- What the two checks find in one book. -/
structure Checked (rows : List BookRow) (g : String × Int) (mid : ℚ)
    (b : OrderBook) : Prop where
  reports : ReportsCrossed rows g ↔ CrossedAt (inBand mid) b
  raises : b.quote = .error .crossedBookError
    ↔ CrossedAt (fun _ => true) b
  raised : ReportsCrossed rows g → b.quote = .error .crossedBookError
  reported : ∀ bid ask, b.bestBid = some bid → b.bestAsk = some ask →
    (∀ q, .finite q = bid.1 ∨ .finite q = ask.1 → inBand mid q = true) →
    b.quote = .error .crossedBookError → ReportsCrossed rows g

/-- Over any calls of finite levels: where the rows of a minute are the
in-band levels of the book, the test reports the minute exactly when a
bid and an ask of the band are crossed; the book raises whenever any
are. So what is reported was raised, and what is raised is reported if
the touch is in the band. -/
theorem crossedBook_iff {ops : List Op} (hops : ∀ op ∈ ops, op.Finite)
    (hrun : (runAll ops).run {} = .ok () b)
    (hrows : (group BookRow.gridKey rows g).Perm (liveRows g mid b)) :
    Checked rows g mid b := by
  obtain ⟨b', log, hrun', hlog, hb⟩ := exists_logged hops
  obtain rfl : b' = b := by
    rw [hrun] at hrun'
    cases hrun'
    rfl
  have hreports := reportsCrossed_live hrows
  have hraises := quote_crossed_iff hlog hb
  refine ⟨hreports, hraises, fun h => ?_, fun bid ask hbid hask hband h => ?_⟩
  · obtain ⟨bid, bidSize, ask, askSize, hbid, hask, -, -, hle⟩ :=
      hreports.mp h
    exact hraises.mpr ⟨bid, bidSize, ask, askSize, hbid, hask, rfl, rfl, hle⟩
  · obtain ⟨x, xSize, y, ySize, hx, hy, hle⟩ := (hlog.crossed_iff hb).mp h
    obtain rfl := Option.some.inj (hx.symm.trans hbid)
    obtain rfl := Option.some.inj (hy.symm.trans hask)
    rw [hlog.best.1] at hx
    rw [hlog.best.2] at hy
    exact hreports.mpr ⟨x, xSize, y, ySize, List.mem_of_mem_head? hx,
      List.mem_of_mem_head? hy, hband x (Or.inl rfl), hband y (Or.inr rfl),
      hle⟩

/-- All the rows of a live book are of its minute. -/
theorem group_liveRows : group BookRow.gridKey (liveRows g mid b) g
    = liveRows g mid b := by
  refine List.filter_eq_self.mpr fun r hr => decide_eq_true ?_
  obtain ⟨side, q, s, -, -, rfl⟩ := mem_liveRows.mp hr
  rfl

/-- A level of a whole price. -/
theorem finiteLevel_int {side : Side} {price size : String} (n : Int) (s : ℚ)
    (hprice : decimal (.str price) = .ok (.finite n))
    (hsize : decimal (.str size) = .ok (.finite s)) (hdigits : |n| < 10 ^ 28)
    (hlog : Int.log 10 |(n : ℚ)| ≤ 999999) :
    FiniteLevel side (.str price) (.str size) :=
  ⟨n, s, hprice, hsize, fun _ =>
    ⟨⟨n, 0, by rw [zpow_zero, mul_one], hdigits, by decide⟩, hlog⟩⟩

/-- A bid of 100, an ask of 101, and then a bid at a price. -/
def lateBid (price : String) : List Op :=
  [.applySnapshot [(.str "100", .str "1")] [(.str "101", .str "1")],
    .applyUpdates [(.str "buy", .str price, .str "2")]]

/-- A bid at 101 crosses inside the band. -/
theorem crossedBook_iff_lateBid :
    ∃ b, (runAll (lateBid "101")).run {} = .ok () b
      ∧ Checked (liveRows ("BTC-USD", 0) (201 / 2) b) ("BTC-USD", 0)
        (201 / 2) b := by
  have hops : ∀ op ∈ lateBid "101", op.Finite := by
    simp only [lateBid, List.forall_mem_cons, List.not_mem_nil,
      false_implies, implies_true, and_true, Op.Finite]
    refine ⟨⟨?_, ?_⟩, .buy, rfl, ?_⟩
    · exact finiteLevel_int 100 1 (by decide +kernel) (by decide +kernel)
        (by decide +kernel) (by decide +kernel)
    · exact finiteLevel_int 101 1 (by decide +kernel) (by decide +kernel)
        (by decide +kernel) (by decide +kernel)
    · exact finiteLevel_int 101 2 (by decide +kernel) (by decide +kernel)
        (by decide +kernel) (by decide +kernel)
  obtain ⟨b, -, hrun, -⟩ := exists_logged hops
  exact ⟨b, hrun, crossedBook_iff hops hrun (by rw [group_liveRows])⟩

end MarketPlatform.Warehouse
