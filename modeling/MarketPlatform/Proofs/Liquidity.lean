/-
One book, measured by the warehouse and by the consumer.

`fct_liquidity_1m` and `OrderBook` compute the same figures from the
same levels, the one in SQL and the other in Python. With exact
arithmetic the two agree on every one of them (`sql_and_python_agree`):
the touch, the mid and the spread, and the size resting within 5, 10 and
25 basis points of the mid.

# Two ways to the same figures

The consumer takes the first level of each side, which is the best one
because its levels are sorted. The warehouse takes the maximum of the
bid prices and the minimum of the ask prices, of rows in any order. The
consumer adds a band of `mid * bps / 10000` to the mid, the warehouse
scales the mid by `1 ± bps / 10000`, and both include the edge.

Either sum is the sum of the sizes of the levels that count, so that the
agreement is one of the predicates (`TwoSides.depthWithinBps`). The
Python side is a loop with decimals in which each comparison and
addition could raise. With finite levels none does, and the loop is a
sum of rationals (`depthOf_exact`).

# The book

`Uncrossed` is what the agreement asks of a book: it is ready, its
prices are finite, distinct and in order, its prices and sizes are
positive, neither side is empty, and the best bid is below the best ask.
`TwoSides` is the same book written out, its two best levels apart from
the rest. `levelRows` is the book as the rows of one product and minute;
the warehouse's rows may be any permutation of them.

# The imbalance

The imbalance of `fct_liquidity_1m` lies between -1 and 1, and is null
exactly when no level lies within 25 basis points of the mid, a wide
book whose own touch is outside of the band.
-/
import MarketPlatform.Proofs.BookAgreement
import MarketPlatform.Proofs.BookMap

namespace MarketPlatform.Consumer

open Lib

-- ============================================================ finite levels

namespace Levels

/-- Levels of finite prices and sizes. -/
def ofPairs (xs : List (ℚ × ℚ)) : Levels :=
  xs.map fun x => (.finite x.1, .finite x.2)

theorem exists_ofPairs {d : Levels} (hd : Plain d) :
    ∃ xs, d = ofPairs xs := by
  obtain ⟨hfinite, -⟩ := hd
  induction d with
  | nil => exact ⟨[], rfl⟩
  | cons l d ih =>
      obtain ⟨q, s, rfl⟩ := hfinite l List.mem_cons_self
      obtain ⟨xs, rfl⟩ := ih fun l hl => hfinite l (List.mem_cons_of_mem _ hl)
      exact ⟨(q, s) :: xs, rfl⟩

theorem rests_ofPairs {xs : List (ℚ × ℚ)} {q s : ℚ} :
    (ofPairs xs).Rests q s ↔ (q, s) ∈ xs := by
  unfold Rests ofPairs
  rw [List.mem_map]
  constructor
  · intro hx
    obtain ⟨x, hx, heq⟩ := hx
    obtain ⟨h₁, h₂⟩ := Prod.mk.inj heq
    obtain rfl := Decimal.finite.inj h₁
    obtain rfl := Decimal.finite.inj h₂
    exact hx
  · exact fun hx => ⟨(q, s), hx, rfl⟩

theorem plain_ofPairs {xs : List (ℚ × ℚ)} (h : (xs.map Prod.fst).Nodup) :
    Plain (ofPairs xs) := by
  constructor
  · intro l hl
    obtain ⟨x, -, rfl⟩ := List.mem_map.mp hl
    exact ⟨x.1, x.2, rfl⟩
  · have hfst : (ofPairs xs).map Prod.fst
        = (xs.map Prod.fst).map Decimal.finite := by
      rw [ofPairs, List.map_map, List.map_map]
      rfl
    rw [hfst]
    exact h.map fun q r hqr => Decimal.finite.inj hqr

/-- The best price comes first, as in a side that is `Sorted`. -/
def BestFirst (side : Side) (d : Levels) : Prop :=
  d.Pairwise fun l m => ∀ q r, l.1 = .finite q → m.1 = .finite r →
    side.Before q r

theorem bestFirst_ofPairs {side : Side} {xs : List (ℚ × ℚ)}
    (h : xs.Pairwise fun x y => side.Before x.1 y.1) :
    BestFirst side (ofPairs xs) := by
  refine List.pairwise_map.mpr (h.imp fun {x y} hxy q r hq hr => ?_)
  obtain rfl := Decimal.finite.inj hq
  obtain rfl := Decimal.finite.inj hr
  exact hxy

theorem before_of_bestFirst {side : Side} {x y : ℚ × ℚ}
    {xs : List (ℚ × ℚ)} (h : BestFirst side (ofPairs (x :: xs)))
    (hy : y ∈ xs) : side.Before x.1 y.1 :=
  (List.pairwise_cons.mp h).1 _ (List.mem_map_of_mem hy) _ _ rfl rfl

end Levels

-- ======================================================== exact arithmetic

theorem add_exact (a b : ℚ) :
    Decimal.add Context.exact (.finite a) (.finite b)
      = .ok (.finite (a + b)) := rfl

theorem sub_exact (a b : ℚ) :
    Decimal.sub Context.exact (.finite a) (.finite b)
      = .ok (.finite (a - b)) := by
  rw [sub_eq_add_neg]
  rfl

theorem mul_exact (a b : ℚ) :
    Decimal.mul Context.exact (.finite a) (.finite b)
      = .ok (.finite (a * b)) := rfl

theorem div_exact (a : ℚ) {b : ℚ} (hb : b ≠ 0) :
    Decimal.div Context.exact (.finite a) (.finite b)
      = .ok (.finite (a / b)) := by
  show (if b = 0 then _ else _) = _
  rw [if_neg hb]
  rfl

theorem ge_finite (a b : ℚ) :
    Decimal.ge (.finite a) (.finite b) = .ok (decide (b ≤ a)) := by
  unfold Decimal.ge
  rw [if_neg (by simp [Decimal.isNan]), Decimal.lt, ← decide_not]
  exact congrArg _ (decide_eq_decide.mpr not_lt)

theorem addWithin_exact {within : Decimal → Py Bool} {counts : ℚ → Bool}
    (hwithin : ∀ q, within (.finite q) = .ok (counts q)) (t q s : ℚ) :
    OrderBook.addWithin Context.exact within (.finite t)
        (.finite q, .finite s)
      = .ok (.finite (t + if counts q then s else 0)) := by
  unfold OrderBook.addWithin
  rw [hwithin]
  show (if counts q = true then _ else _) = _
  by_cases hq : counts q = true
  · rw [if_pos hq, if_pos hq]
    rfl
  · rw [if_neg hq, if_neg hq, add_zero]
    rfl

/-- The depth of finite levels is the sum of the sizes that count. -/
theorem depthOf_exact {within : Decimal → Py Bool} {counts : ℚ → Bool}
    (hwithin : ∀ q, within (.finite q) = .ok (counts q))
    (xs : List (ℚ × ℚ)) :
    OrderBook.depthOf Context.exact within (Levels.ofPairs xs)
      = .ok (.finite
          (xs.map fun x => if counts x.1 then x.2 else 0).sum) := by
  have hfrom : ∀ total : ℚ, (Levels.ofPairs xs).foldlM
        (OrderBook.addWithin Context.exact within) (.finite total)
      = .ok (.finite
          (total + (xs.map fun x => if counts x.1 then x.2 else 0).sum)) := by
    induction xs with
    | nil =>
        intro total
        rw [List.map_nil, List.sum_nil, add_zero]
        rfl
    | cons x xs ih =>
        intro total
        show (OrderBook.addWithin Context.exact within (.finite total)
          (.finite x.1, .finite x.2) >>= fun total => _) = _
        rw [addWithin_exact hwithin, List.map_cons, List.sum_cons,
          ← add_assoc]
        exact ih _
  rw [OrderBook.depthOf, hfrom, zero_add]

end MarketPlatform.Consumer

namespace MarketPlatform.Warehouse

open Lib Lib.Rfc3339 Lib.Relation
open Consumer Consumer.OrderBook

variable {g : String × Int} {b : OrderBook}

-- ============================================================ the two sides

/-- The row of a level. -/
def levelRow (g : String × Int) (side : Side) :
    Decimal × Decimal → Option BookRow
  | (.finite q, .finite s) => some (rowAt g (some side.name, some q) s)
  | _ => none

/-- A book as one product and minute of `int_book_state_1m`. -/
def levelRows (g : String × Int) (b : OrderBook) : List BookRow :=
  [Side.buy, Side.sell].flatMap fun side =>
    (b.levels side).filterMap (levelRow g side)

/-- A ready book of positive prices and sizes, both sides in their order,
the best bid below the best ask. -/
structure Uncrossed (b : OrderBook) : Prop where
  ready : b.ready = true
  plain : ∀ side, (b.levels side).Plain
  bestFirst : ∀ side, (b.levels side).BestFirst side
  price_pos : ∀ side q s, (b.levels side).Rests q s → 0 < q
  size_pos : ∀ side q s, (b.levels side).Rests q s → 0 < s
  bids : b.bids ≠ []
  asks : b.asks ≠ []
  uncrossed : ∀ q s r t, b.bids.Rests q s → b.asks.Rests r t → q < r

/-- The rows of one side. -/
def sideRows (g : String × Int) (side : Side) (xs : List (ℚ × ℚ)) :
    List BookRow :=
  xs.map fun x => rowAt g (some side.name, some x.1) x.2

/-- An uncrossed book, with its two sides written out. -/
structure TwoSides (b : OrderBook) (x y : ℚ × ℚ) (xs ys : List (ℚ × ℚ)) :
    Prop where
  bids : b.bids = Levels.ofPairs (x :: xs)
  asks : b.asks = Levels.ofPairs (y :: ys)
  bid_le : ∀ z ∈ xs, z.1 ≤ x.1
  le_ask : ∀ z ∈ ys, y.1 ≤ z.1
  uncrossed : x.1 < y.1
  price_pos : 0 < x.1

theorem Uncrossed.exists_sides (hb : Uncrossed b) :
    ∃ x y xs ys, TwoSides b x y xs ys := by
  obtain ⟨bids, hbids⟩ := Levels.exists_ofPairs (hb.plain .buy)
  obtain ⟨asks, hasks⟩ := Levels.exists_ofPairs (hb.plain .sell)
  have hbids' : b.bids = Levels.ofPairs bids := hbids
  have hasks' : b.asks = Levels.ofPairs asks := hasks
  cases bids with
  | nil => exact absurd hbids' hb.bids
  | cons x xs =>
      cases asks with
      | nil => exact absurd hasks' hb.asks
      | cons y ys =>
          have hx : (b.levels .buy).Rests x.1 x.2 := by
            rw [hbids, Levels.rests_ofPairs]
            exact List.mem_cons_self
          have hy : (b.levels .sell).Rests y.1 y.2 := by
            rw [hasks, Levels.rests_ofPairs]
            exact List.mem_cons_self
          refine ⟨x, y, xs, ys, hbids', hasks', fun z hz => ?_,
            fun z hz => ?_, hb.uncrossed _ _ _ _ hx hy,
            hb.price_pos .buy _ _ hx⟩
          · have horder := hb.bestFirst .buy
            rw [hbids] at horder
            exact (Levels.before_of_bestFirst horder hz).le
          · have horder := hb.bestFirst .sell
            rw [hasks] at horder
            exact (Levels.before_of_bestFirst horder hz).le

theorem filterMap_levelRow (side : Side) (xs : List (ℚ × ℚ)) :
    (Levels.ofPairs xs).filterMap (levelRow g side) = sideRows g side xs := by
  induction xs with
  | nil => rfl
  | cons x xs ih =>
      show rowAt g (some side.name, some x.1) x.2
        :: (Levels.ofPairs xs).filterMap (levelRow g side) = _
      rw [ih]
      rfl

variable {x y : ℚ × ℚ} {xs ys : List (ℚ × ℚ)}

theorem TwoSides.rows (h : TwoSides b x y xs ys) :
    levelRows g b
      = sideRows g .buy (x :: xs) ++ sideRows g .sell (y :: ys) := by
  rw [levelRows, List.flatMap_cons, List.flatMap_cons, List.flatMap_nil,
    List.append_nil]
  show b.bids.filterMap _ ++ b.asks.filterMap _ = _
  rw [h.bids, h.asks, filterMap_levelRow, filterMap_levelRow]

-- =============================================================== the touch

theorem bookPrices_sideRows (side side' : Side) (xs : List (ℚ × ℚ)) :
    bookPrices side.name (sideRows g side' xs)
      = if side' = side then xs.map Prod.fst else [] := by
  have hside : ∀ r ∈ sideRows g side' xs, r.side = some side'.name := by
    intro r hr
    obtain ⟨z, -, rfl⟩ := List.mem_map.mp hr
    rfl
  unfold bookPrices
  by_cases heq : side' = side
  · subst heq
    rw [if_pos rfl, List.filter_eq_self.mpr fun r hr =>
      decide_eq_true (hside r hr)]
    unfold sideRows
    rw [List.filterMap_map]
    exact congrFun (List.filterMap_eq_map' (f := Prod.fst)) xs
  · rw [if_neg heq, List.filter_eq_nil_iff.mpr fun r hr => ?_]
    · rfl
    · rw [decide_eq_true_eq, hside r hr]
      exact fun hname => heq (Side.name_inj (Option.some.inj hname))

theorem bookPrices_append (side : String) (rows rows' : List BookRow) :
    bookPrices side (rows ++ rows')
      = bookPrices side rows ++ bookPrices side rows' := by
  unfold bookPrices
  rw [List.filter_append, List.filterMap_append]

theorem TwoSides.bestBid (h : TwoSides b x y xs ys) :
    maxOf (bookPrices "buy" (levelRows g b)) = some x.1 := by
  have hprices : bookPrices Side.buy.name (levelRows g b)
      = (x :: xs).map Prod.fst := by
    rw [h.rows, bookPrices_append, bookPrices_sideRows, bookPrices_sideRows,
      if_pos rfl, if_neg (by decide), List.append_nil]
  have hbuy : bookPrices "buy" (levelRows g b) = (x :: xs).map Prod.fst :=
    hprices
  rw [hbuy, maxOf_eq_some_iff]
  refine ⟨List.mem_cons_self, fun q hq => ?_⟩
  obtain ⟨z, hz, rfl⟩ := List.mem_map.mp hq
  rcases List.mem_cons.mp hz with rfl | hz
  · exact le_refl _
  · exact h.bid_le z hz

theorem TwoSides.bestAsk (h : TwoSides b x y xs ys) :
    minOf (bookPrices "sell" (levelRows g b)) = some y.1 := by
  have hprices : bookPrices Side.sell.name (levelRows g b)
      = (y :: ys).map Prod.fst := by
    rw [h.rows, bookPrices_append, bookPrices_sideRows, bookPrices_sideRows,
      if_pos rfl, if_neg (by decide), List.nil_append]
  have hsell : bookPrices "sell" (levelRows g b) = (y :: ys).map Prod.fst :=
    hprices
  rw [hsell, minOf_eq_some_iff]
  refine ⟨List.mem_cons_self, fun q hq => ?_⟩
  obtain ⟨z, hz, rfl⟩ := List.mem_map.mp hq
  rcases List.mem_cons.mp hz with rfl | hz
  · exact le_refl _
  · exact h.le_ask z hz

/-- The quote of the consumer is at the same prices. -/
theorem TwoSides.quote (h : TwoSides b x y xs ys) (hready : b.ready = true) :
    b.quote = .ok (some ⟨.finite x.1, .finite x.2, .finite y.1,
      .finite y.2⟩) := by
  have hbid : b.bestBid = some (.finite x.1, .finite x.2) := by
    rw [OrderBook.bestBid, if_pos hready, h.bids]
    rfl
  have hask : b.bestAsk = some (.finite y.1, .finite y.2) := by
    rw [OrderBook.bestAsk, if_pos hready, h.asks]
    rfl
  have hlt : Decimal.lt (.finite x.1) (.finite y.1) = true :=
    decide_eq_true h.uncrossed
  unfold OrderBook.quote
  rw [hbid, hask]
  show (if _ then _ else if Decimal.lt (.finite x.1) (.finite y.1) = true
    then _ else _) = _
  rw [if_neg (by simp [Decimal.isNan]), if_pos hlt]

theorem mid_exact (bid bidSize ask askSize : ℚ) :
    Quote.mid Context.exact ⟨.finite bid, .finite bidSize, .finite ask,
      .finite askSize⟩ = .ok (.finite ((bid + ask) / 2)) := by
  show Decimal.div Context.exact (.finite (ask + bid)) (.finite 2) = _
  rw [div_exact _ two_ne_zero, add_comm]

theorem spread_exact (bid bidSize ask askSize : ℚ) :
    Quote.spread Context.exact ⟨.finite bid, .finite bidSize, .finite ask,
      .finite askSize⟩ = .ok (.finite (ask - bid)) :=
  sub_exact ask bid

theorem spreadBps_exact (bid bidSize ask askSize : ℚ)
    (hmid : (bid + ask) / 2 ≠ 0) :
    Quote.spreadBps Context.exact ⟨.finite bid, .finite bidSize, .finite ask,
      .finite askSize⟩
      = .ok (.finite ((ask - bid) / ((bid + ask) / 2) * 10000)) := by
  unfold Quote.spreadBps
  rw [spread_exact, ok_bind, mid_exact, ok_bind, div_exact _ hmid, ok_bind,
    mul_exact]

-- =============================================================== the depths

theorem depth_append (counts : BookRow → Bool) (rows rows' : List BookRow) :
    depth counts (rows ++ rows')
      = depth counts rows + depth counts rows' := by
  rw [depth, List.map_append, List.sum_append]
  rfl

theorem depth_sideRows (counts : BookRow → Bool) (side : Side)
    (xs : List (ℚ × ℚ)) :
    depth counts (sideRows g side xs) = (xs.map fun z =>
      if counts (rowAt g (some side.name, some z.1) z.2) then z.2
      else 0).sum := by
  rw [depth, sideRows, List.map_map]
  rfl

theorem depth_eq_zero {counts : BookRow → Bool} {rows : List BookRow}
    (h : ∀ r ∈ rows, counts r = false) : depth counts rows = 0 := by
  apply List.sum_eq_zero
  intro q hq
  obtain ⟨r, hr, rfl⟩ := List.mem_map.mp hq
  exact if_neg (by rw [h r hr]; exact Bool.false_ne_true)

variable {mid width : ℚ}

theorem bidWithin_rowAt (side : Side) (q s : ℚ) :
    Arithmetic.exact.bidWithin mid width (rowAt g (some side.name, some q) s)
      = (decide (side = .buy) && decide (mid * (1 - width) ≤ q)) := by
  cases side <;> rfl

theorem askWithin_rowAt (side : Side) (q s : ℚ) :
    Arithmetic.exact.askWithin mid width (rowAt g (some side.name, some q) s)
      = (decide (side = .sell) && decide (q ≤ mid * (1 + width))) := by
  cases side <;> rfl

/-- The bids of the band, summed up. -/
theorem TwoSides.bidDepth (h : TwoSides b x y xs ys) :
    depth (Arithmetic.exact.bidWithin mid width) (levelRows g b)
      = ((x :: xs).map fun z =>
          if decide (mid * (1 - width) ≤ z.1) then z.2 else 0).sum := by
  have hasks : depth (Arithmetic.exact.bidWithin mid width)
      (sideRows g .sell (y :: ys)) = 0 := by
    apply depth_eq_zero
    intro r hr
    obtain ⟨z, -, rfl⟩ := List.mem_map.mp hr
    exact bidWithin_rowAt .sell z.1 z.2
  rw [h.rows, depth_append, hasks, add_zero, depth_sideRows]
  rfl

theorem TwoSides.askDepth (h : TwoSides b x y xs ys) :
    depth (Arithmetic.exact.askWithin mid width) (levelRows g b)
      = ((y :: ys).map fun z =>
          if decide (z.1 ≤ mid * (1 + width)) then z.2 else 0).sum := by
  have hbids : depth (Arithmetic.exact.askWithin mid width)
      (sideRows g .buy (x :: xs)) = 0 := by
    apply depth_eq_zero
    intro r hr
    obtain ⟨z, -, rfl⟩ := List.mem_map.mp hr
    exact askWithin_rowAt .buy z.1 z.2
  rw [h.rows, depth_append, hbids, zero_add, depth_sideRows]
  rfl

/-- The consumer's two depths: a band is added to the mid, the same as
scaling the mid. -/
theorem TwoSides.depthWithinBps_sum (h : TwoSides b x y xs ys)
    (hready : b.ready = true) (bps : Int) (hmid : mid = (x.1 + y.1) / 2)
    (hwidth : width = bps / 10000) :
    b.depthWithinBps Context.exact bps
      = .ok (.finite ((x :: xs).map fun z =>
            if decide (mid * (1 - width) ≤ z.1) then z.2 else 0).sum,
          .finite ((y :: ys).map fun z =>
            if decide (z.1 ≤ mid * (1 + width)) then z.2 else 0).sum) := by
  have hfloor : mid - mid * bps / 10000 = mid * (1 - width) := by
    rw [hwidth]
    ring
  have hceil : mid + mid * bps / 10000 = mid * (1 + width) := by
    rw [hwidth]
    ring
  unfold OrderBook.depthWithinBps
  rw [h.quote hready, ok_bind]
  dsimp only
  rw [mid_exact, ← hmid, ok_bind, mul_exact, ok_bind,
    div_exact _ (by norm_num), ok_bind, sub_exact, ok_bind, add_exact,
    ok_bind, hfloor, hceil, h.bids,
    depthOf_exact fun q => ge_finite q (mid * (1 - width)), ok_bind, h.asks,
    depthOf_exact fun q => ge_finite (mid * (1 + width)) q, ok_bind]
  rfl

/-- The warehouse sums the same sizes. -/
theorem TwoSides.depthWithinBps (h : TwoSides b x y xs ys)
    (hready : b.ready = true) (bps : Int) (hmid : mid = (x.1 + y.1) / 2)
    (hwidth : width = bps / 10000) :
    b.depthWithinBps Context.exact bps
      = .ok (.finite (depth (Arithmetic.exact.bidWithin mid width)
            (levelRows g b)),
          .finite (depth (Arithmetic.exact.askWithin mid width)
            (levelRows g b))) := by
  rw [h.depthWithinBps_sum hready bps hmid hwidth, h.bidDepth, h.askDepth]

-- ========================================================== the imbalance

theorem depth_nonneg {counts : BookRow → Bool} {rows : List BookRow}
    (hpos : ∀ r ∈ rows, 0 < r.size.getD 0) : 0 ≤ depth counts rows := by
  apply List.sum_nonneg
  intro q hq
  obtain ⟨r, hr, rfl⟩ := List.mem_map.mp hq
  show 0 ≤ if counts r = true then _ else _
  split
  · exact (hpos r hr).le
  · exact le_refl _

theorem depth_eq_zero_iff {counts : BookRow → Bool} {rows : List BookRow}
    (hpos : ∀ r ∈ rows, 0 < r.size.getD 0) :
    depth counts rows = 0 ↔ ∀ r ∈ rows, counts r = false := by
  have hnone : depth counts (rows.filter fun _ => false) = depth counts rows
      ↔ ∀ r ∈ rows, counts r = true → false = true :=
    depth_filter_eq_iff hpos
  have hnil : depth counts [] = 0 := rfl
  rw [List.filter_false, hnil, eq_comm] at hnone
  simpa using hnone

/-- The imbalance of two sizes lies between -1 and 1. -/
theorem imbalance_bounds {bid ask q : ℚ} (hbid : 0 ≤ bid) (hask : 0 ≤ ask)
    (h : Arithmetic.exact.safeDivide (bid - ask) (bid + ask) = some q) :
    -1 ≤ q ∧ q ≤ 1 := by
  unfold Arithmetic.safeDivide at h
  split at h
  · cases h
  · next hne =>
      obtain rfl := Option.some.inj h
      have hpos : 0 < bid + ask :=
        lt_of_le_of_ne (add_nonneg hbid hask) (Ne.symm hne)
      show -1 ≤ (bid - ask) / (bid + ask) ∧ (bid - ask) / (bid + ask) ≤ 1
      rw [le_div_iff₀ hpos, div_le_one hpos]
      constructor <;> linarith

/-- There is none when there is no size. -/
theorem imbalance_eq_none_iff {bid ask : ℚ} (hbid : 0 ≤ bid)
    (hask : 0 ≤ ask) :
    Arithmetic.exact.safeDivide (bid - ask) (bid + ask) = none
      ↔ bid = 0 ∧ ask = 0 := by
  unfold Arithmetic.safeDivide
  rw [ite_eq_left_iff, ← add_eq_zero_iff_of_nonneg hbid hask]
  simp

theorem mem_levelRows (h : TwoSides b x y xs ys) {r : BookRow} :
    r ∈ levelRows g b ↔ ∃ side q s, (b.levels side).Rests q s
      ∧ rowAt g (some side.name, some q) s = r := by
  have hside : ∀ (side : Side) zs, r ∈ sideRows g side zs
      ↔ ∃ q s, (Levels.ofPairs zs).Rests q s
        ∧ rowAt g (some side.name, some q) s = r := by
    intro side zs
    rw [sideRows, List.mem_map, Prod.exists]
    simp only [Levels.rests_ofPairs]
  rw [h.rows, List.mem_append, hside, hside, ← h.bids, ← h.asks]
  constructor
  · intro hr
    rcases hr with hr | hr
    · exact ⟨.buy, hr⟩
    · exact ⟨.sell, hr⟩
  · intro hr
    obtain ⟨side, hr⟩ := hr
    cases side with
    | buy => exact Or.inl hr
    | sell => exact Or.inr hr

/-- The bids and asks of the band are the levels near the mid. A bid is
never above the mid and an ask never below it, so one inequality for
each side says how far the level is. -/
theorem TwoSides.counted_iff (h : TwoSides b x y xs ys)
    (hmid : mid = (x.1 + y.1) / 2) {side : Side} {q s : ℚ}
    (hrests : (b.levels side).Rests q s) :
    |q - mid| ≤ mid * width
      ↔ Arithmetic.exact.bidWithin mid width
            (rowAt g (some side.name, some q) s) = true
        ∨ Arithmetic.exact.askWithin mid width
            (rowAt g (some side.name, some q) s) = true := by
  have huncrossed := h.uncrossed
  rw [bidWithin_rowAt, askWithin_rowAt]
  cases side with
  | buy =>
      have hle : q ≤ x.1 := by
        have hmem : (q, s) ∈ x :: xs := by
          rw [← Levels.rests_ofPairs, ← h.bids]
          exact hrests
        rcases List.mem_cons.mp hmem with rfl | hmem
        · exact le_refl _
        · exact h.bid_le _ hmem
      rw [abs_of_nonpos (by linarith)]
      simp only [decide_true, Bool.true_and, decide_eq_true_eq,
        reduceCtorEq, decide_false, Bool.false_and, Bool.false_eq_true,
        or_false]
      constructor <;> intro hx <;> linarith
  | sell =>
      have hle : y.1 ≤ q := by
        have hmem : (q, s) ∈ y :: ys := by
          rw [← Levels.rests_ofPairs, ← h.asks]
          exact hrests
        rcases List.mem_cons.mp hmem with rfl | hmem
        · exact le_refl _
        · exact h.le_ask _ hmem
      rw [abs_of_nonneg (by linarith)]
      simp only [decide_true, Bool.true_and, decide_eq_true_eq,
        reduceCtorEq, decide_false, Bool.false_and, Bool.false_eq_true,
        false_or]
      constructor <;> intro hx <;> linarith

/-- No row counts when every level is outside the band. -/
theorem TwoSides.none_counted_iff (h : TwoSides b x y xs ys)
    (hmid : mid = (x.1 + y.1) / 2) :
    ((∀ r ∈ levelRows g b, Arithmetic.exact.bidWithin mid width r = false)
        ∧ ∀ r ∈ levelRows g b, Arithmetic.exact.askWithin mid width r = false)
      ↔ ∀ side q s, (b.levels side).Rests q s → mid * width < |q - mid| := by
  constructor
  · intro hnone side q s hrests
    have hrow := (mem_levelRows h (g := g)).mpr ⟨side, q, s, hrests, rfl⟩
    rw [← not_le, h.counted_iff (g := g) hmid hrests, hnone.1 _ hrow,
      hnone.2 _ hrow]
    simp
  · intro hfar
    have hout : ∀ r ∈ levelRows g b,
        Arithmetic.exact.bidWithin mid width r = false
          ∧ Arithmetic.exact.askWithin mid width r = false := by
      intro r hr
      obtain ⟨side, q, s, hrests, rfl⟩ := (mem_levelRows h).mp hr
      have hq := hfar side q s hrests
      rw [← not_le, h.counted_iff (g := g) hmid hrests, not_or] at hq
      exact ⟨Bool.eq_false_iff.mpr hq.1, Bool.eq_false_iff.mpr hq.2⟩
    exact ⟨fun r hr => (hout r hr).1, fun r hr => (hout r hr).2⟩

-- ============================================================== agreement

/-- A row of `fct_liquidity_1m` shows what the consumer's book measures,
with nothing rounded on either side. -/
structure SameLiquidity (b : OrderBook) (l : Liquidity) : Prop where
  quote : ∃ q spreadBps, b.quote = .ok (some q)
    ∧ q.bidPrice = .finite l.bestBid ∧ q.askPrice = .finite l.bestAsk
    ∧ q.mid Context.exact = .ok (.finite l.mid)
    ∧ q.spread Context.exact = .ok (.finite l.spread)
    ∧ q.spreadBps Context.exact = .ok (.finite spreadBps)
    ∧ l.spreadBps = some spreadBps
  depth5 : b.depthWithinBps Context.exact 5
    = .ok (.finite l.bidDepth5bps, .finite l.askDepth5bps)
  depth10 : b.depthWithinBps Context.exact 10
    = .ok (.finite l.bidDepth10bps, .finite l.askDepth10bps)
  depth25 : b.depthWithinBps Context.exact 25
    = .ok (.finite l.bidDepth25bps, .finite l.askDepth25bps)
  imbalance : ∀ q, l.bookImbalance = some q → -1 ≤ q ∧ q ≤ 1
  noImbalance : l.bookImbalance = none ↔ ∀ side q s,
    (b.levels side).Rests q s → l.mid * (25 / 10000) < |q - l.mid|

/-- The warehouse and the consumer measure an uncrossed book alike. Both
are computed on the book written out; the sums of the warehouse do not
depend on the order of its rows. -/
theorem sql_and_python_agree {b : OrderBook} (hb : Uncrossed b)
    (g : String × Int) (rows : List BookRow)
    (hrows : (group BookRow.gridKey rows g).Perm (levelRows g b)) :
    ∃ l, group Liquidity.gridKey (Arithmetic.exact.fctLiquidity1m rows) g
        = [l]
      ∧ SameLiquidity b l := by
  obtain ⟨x, y, xs, ys, h⟩ := hb.exists_sides
  have hpos : ∀ r ∈ levelRows g b, 0 < r.size.getD 0 := by
    intro r hr
    obtain ⟨side, q, s, hrests, rfl⟩ := (mem_levelRows h).mp hr
    exact hb.size_pos side q s hrests
  have hmid : 0 < (x.1 + y.1) / 2 := by
    have hx := h.price_pos
    have hxy := h.uncrossed
    linarith
  rw [Arithmetic.group_fctLiquidity1m, Arithmetic.liquidityOf_perm hrows]
  unfold Arithmetic.liquidityOf
  rw [h.bestBid, h.bestAsk]
  have hbid : 0 ≤ depth (Arithmetic.exact.bidWithin ((x.1 + y.1) / 2)
      (25 / 10000)) (levelRows g b) := depth_nonneg hpos
  have hask : 0 ≤ depth (Arithmetic.exact.askWithin ((x.1 + y.1) / 2)
      (25 / 10000)) (levelRows g b) := depth_nonneg hpos
  refine ⟨_, rfl, ?_⟩
  exact {
    quote := ⟨_, _, h.quote hb.ready, rfl, rfl, mid_exact .., spread_exact ..,
      spreadBps_exact _ _ _ _ hmid.ne',
      congrArg (Option.map _) (if_neg hmid.ne')⟩
    depth5 := h.depthWithinBps hb.ready 5 rfl (by norm_num)
    depth10 := h.depthWithinBps hb.ready 10 rfl (by norm_num)
    depth25 := h.depthWithinBps hb.ready 25 rfl (by norm_num)
    imbalance := fun q hq => imbalance_bounds hbid hask hq
    noImbalance := by
      refine (imbalance_eq_none_iff hbid hask).trans ?_
      rw [depth_eq_zero_iff hpos, depth_eq_zero_iff hpos]
      exact h.none_counted_iff rfl }

/-- Two sides in their order, the one below the other. -/
theorem uncrossed_ofPairs {bids asks : List (ℚ × ℚ)}
    (hready : b.ready = true) (hbids : b.bids = Levels.ofPairs bids)
    (hasks : b.asks = Levels.ofPairs asks) (hne : bids ≠ [] ∧ asks ≠ [])
    (hdown : bids.Pairwise fun x y => y.1 < x.1)
    (hup : asks.Pairwise fun x y => x.1 < y.1)
    (hpos : ∀ x ∈ bids ++ asks, 0 < x.1 ∧ 0 < x.2)
    (hcross : ∀ x ∈ bids, ∀ y ∈ asks, x.1 < y.1) : Uncrossed b := by
  have hmem : ∀ side q s, (b.levels side).Rests q s →
      (q, s) ∈ bids ++ asks := by
    intro side q s hrests
    cases side with
    | buy =>
        have hbid : b.bids.Rests q s := hrests
        rw [hbids, Levels.rests_ofPairs] at hbid
        exact List.mem_append_left _ hbid
    | sell =>
        have hask : b.asks.Rests q s := hrests
        rw [hasks, Levels.rests_ofPairs] at hask
        exact List.mem_append_right _ hask
  exact {
    ready := hready
    plain := fun side => by
      cases side with
      | buy =>
          show b.bids.Plain
          rw [hbids]
          apply Levels.plain_ofPairs
          exact List.pairwise_map.mpr (hdown.imp ne_of_gt)
      | sell =>
          show b.asks.Plain
          rw [hasks]
          apply Levels.plain_ofPairs
          exact List.pairwise_map.mpr (hup.imp ne_of_lt)
    bestFirst := fun side => by
      cases side with
      | buy =>
          show b.bids.BestFirst .buy
          rw [hbids]
          exact Levels.bestFirst_ofPairs hdown
      | sell =>
          show b.asks.BestFirst .sell
          rw [hasks]
          exact Levels.bestFirst_ofPairs hup
    price_pos := fun side q s hrests => (hpos _ (hmem side q s hrests)).1
    size_pos := fun side q s hrests => (hpos _ (hmem side q s hrests)).2
    bids := by
      rw [hbids]
      exact mt List.map_eq_nil_iff.mp hne.1
    asks := by
      rw [hasks]
      exact mt List.map_eq_nil_iff.mp hne.2
    uncrossed := fun q s r t hbid hask => by
      rw [hbids, Levels.rests_ofPairs] at hbid
      rw [hasks, Levels.rests_ofPairs] at hask
      exact hcross _ hbid _ hask }

/-- Around a mid of 100, levels at the very edges of the bands of 5 and 25
basis points, and one outside of them. -/
def edgeBook : OrderBook where
  bids := Levels.ofPairs [(1999 / 20, 2), (399 / 4, 3), (90, 1)]
  asks := Levels.ofPairs [(2001 / 20, 4), (401 / 4, 1)]
  ready := true

theorem sql_and_python_agree_edge :
    ∃ l, group Liquidity.gridKey (Arithmetic.exact.fctLiquidity1m
          (levelRows ("BTC-USD", 0) edgeBook)) ("BTC-USD", 0) = [l]
      ∧ SameLiquidity edgeBook l := by
  have hgroup : group BookRow.gridKey (levelRows ("BTC-USD", 0) edgeBook)
      ("BTC-USD", 0) = levelRows ("BTC-USD", 0) edgeBook := by
    decide +kernel
  apply sql_and_python_agree
  · apply uncrossed_ofPairs rfl rfl rfl
    · exact ⟨List.cons_ne_nil _ _, List.cons_ne_nil _ _⟩
    · decide +kernel
    · decide +kernel
    · decide +kernel
    · decide +kernel
  · rw [hgroup]

example : edgeBook.depthWithinBps Context.exact 5
    = .ok (.finite 2, .finite 4) := by decide +kernel

end MarketPlatform.Warehouse
