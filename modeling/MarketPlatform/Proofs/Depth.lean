/-
The two depths of a quoted book.

# One width for both

The mid is as far from the best bid as from the best ask, so a band
about it reaches the two in one and the same width, half of the spread:
below that both depths are zero, and from there on neither is
(`depth_is_monotone_and_two_sided`). In between the depths only grow,
and neither exceeds what rests on its side.

# What it rests on

The best prices being extremal, and no size being zero or negative.
Every call on the book keeps both, raise or not (`Levels.Positive`,
`positive_of_reached`): a call can only raise between two levels, and a
size of zero removes its level instead of being stored. The order of the
bids is that of their negated prices, so the bids have to be negated
exactly; within the default context those that fit are
(`positiveLevel_of_fits`).

# The sums

The depth of a band is the sum of the sizes whose prices count. It is
monotone in what counts (`sumWithin_mono`), and zero exactly when the
best level does not count (`sumWithin_eq_zero_iff`), since what comes
before a price that counts does too. Everything here is computed
exactly; what rounding does to it is not looked at.
-/
import MarketPlatform.Proofs.Liquidity

namespace MarketPlatform.Consumer

open Lib EStateM

-- ============================================================== one side

namespace Levels

variable {n : Negation} {side : Side} {d d' : Levels} {q s : ℚ}

/-- A sorted side of positive prices and sizes. -/
structure Positive (n : Negation) (side : Side) (d : Levels) : Prop where
  sorted : SortedBy n side d
  price_pos : ∀ q s, d.Rests q s → 0 < q
  size_pos : ∀ q s, d.Rests q s → 0 < s

/-- A side without levels is one of them. -/
theorem positive_nil (n : Negation) (side : Side) : Positive n side [] where
  sorted := sortedBy_nil n side
  price_pos := fun _ _ h => by cases h
  size_pos := fun _ _ h => by cases h

/-- A size of zero removes its level, so the sizes that rest stay
positive. -/
theorem Positive.setBy (hd : Positive n side d)
    (hexact : side = .buy → n.ExactAt q) (hq : 0 < q) (hs : 0 ≤ s)
    (h : d.setBy n side (.finite q) (.finite s) = .ok d') :
    Positive n side d' := by
  obtain ⟨d'', hset, hsorted⟩ := hd.sorted.setBy hexact s
  obtain rfl := Except.ok.inj (hset.symm.trans h)
  have hplain := hd.sorted.plain
  exact {
    sorted := hsorted
    price_pos := hplain.forall_setBy hset hd.price_pos fun _ => hq
    size_pos := hplain.forall_setBy hset hd.size_pos fun hne =>
      lt_of_le_of_ne hs hne.symm }

/-- `sum(levels.values(), Decimal(0))`. -/
def totalSize (ctx : Context) (d : Levels) : Py Decimal :=
  d.foldlM (fun (total : Decimal) l => total.add ctx l.2) (.finite 0)

/-- Computed exactly, it is the sum of the sizes. -/
theorem totalSize_exact (xs : List (ℚ × ℚ)) :
    (ofPairs xs).totalSize Context.exact
      = .ok (.finite (xs.map Prod.snd).sum) :=
  @depthOf_exact (fun _ => .ok true) (fun _ => true) (fun _ => rfl) xs

end Levels

-- ============================================================== the sums

section Sums

variable {counts counts' : ℚ → Bool} {x : ℚ × ℚ} {xs : List (ℚ × ℚ)}

/-- The sizes whose prices count, summed up. -/
def sumWithin (counts : ℚ → Bool) (xs : List (ℚ × ℚ)) : ℚ :=
  (xs.map fun z => if counts z.1 then z.2 else 0).sum

/-- If more prices count, the sum is no smaller. -/
theorem sumWithin_mono (hpos : ∀ z ∈ xs, 0 < z.2)
    (h : ∀ q, counts q = true → counts' q = true) :
    sumWithin counts xs ≤ sumWithin counts' xs := by
  apply List.sum_le_sum
  intro z hz
  by_cases hc : counts z.1 = true
  · rw [if_pos hc, if_pos (h _ hc)]
  · rw [if_neg hc]
    split
    · exact (hpos z hz).le
    · exact le_refl _

/-- It is never more than all sizes. -/
theorem sumWithin_le_total (hpos : ∀ z ∈ xs, 0 < z.2) :
    sumWithin counts xs ≤ (xs.map Prod.snd).sum :=
  List.sum_le_sum fun z hz => by
    split
    · exact le_refl _
    · exact (hpos z hz).le

/-- Nothing counts when the best level does not. -/
theorem sumWithin_eq_zero_iff (hpos : ∀ z ∈ x :: xs, 0 < z.2)
    (hbest : ∀ z ∈ xs, counts z.1 = true → counts x.1 = true) :
    sumWithin counts (x :: xs) = 0 ↔ counts x.1 = false := by
  obtain ⟨hx, hxs⟩ := List.forall_mem_cons.mp hpos
  have hrest : 0 ≤ sumWithin counts xs := by
    apply List.sum_nonneg
    intro s hs
    obtain ⟨z, hz, rfl⟩ := List.mem_map.mp hs
    split
    · exact (hxs z hz).le
    · exact le_refl _
  have hcons : sumWithin counts (x :: xs)
      = (if counts x.1 then x.2 else 0) + sumWithin counts xs :=
    List.sum_cons
  rw [hcons]
  cases hc : counts x.1 with
  | true =>
      rw [if_pos rfl]
      have hpos : 0 < x.2 + sumWithin counts xs :=
        add_pos_of_pos_of_nonneg hx hrest
      exact iff_of_false hpos.ne' nofun
  | false =>
      rw [if_neg Bool.false_ne_true, zero_add]
      refine iff_of_true (List.sum_eq_zero fun s hs => ?_) rfl
      obtain ⟨z, hz, rfl⟩ := List.mem_map.mp hs
      refine if_neg fun hz' => ?_
      rw [hbest z hz hz'] at hc
      cases hc

end Sums

-- =============================================================== the band

section Band

variable {side : Side} {x y mid bps q r : ℚ} {k l : Int}

/-- The prices that count within a band about the mid. -/
def inBand (mid : ℚ) (k : Int) : Side → ℚ → Bool
  | .buy, q => decide (mid * (1 - k / 10000) ≤ q)
  | .sell, q => decide (q ≤ mid * (1 + k / 10000))

/-- A wider band counts what a narrower one does. -/
theorem inBand_mono (hmid : 0 < mid) (hkl : k ≤ l)
    (h : inBand mid k side q = true) : inBand mid l side q = true := by
  have hle : mid * (k / 10000) ≤ mid * (l / 10000) := by
    have hcast : (k : ℚ) ≤ l := Int.cast_le.mpr hkl
    gcongr
  cases side with
  | buy =>
      have hq : mid * (1 - k / 10000) ≤ q := of_decide_eq_true h
      apply decide_eq_true
      linarith
  | sell =>
      have hq : q ≤ mid * (1 + k / 10000) := of_decide_eq_true h
      apply decide_eq_true
      linarith

/-- What comes before a price that counts does, too. -/
theorem inBand_of_not_before (hbefore : ¬ side.Before q r)
    (h : inBand mid k side q = true) : inBand mid k side r = true := by
  cases side with
  | buy =>
      have hq : mid * (1 - k / 10000) ≤ q := of_decide_eq_true h
      exact decide_eq_true (hq.trans (not_lt.mp hbefore))
  | sell =>
      have hq : q ≤ mid * (1 + k / 10000) := of_decide_eq_true h
      exact decide_eq_true ((not_lt.mp hbefore).trans hq)

/-- A band is less than half of the spread when it ends before either of
the best prices. -/
theorem lt_half_spread_iff (hpos : 0 < mid)
    (hbps : bps = (y - x) / mid * 10000) :
    (k : ℚ) < bps / 2 ↔ mid * (k / 10000) < (y - x) / 2 := by
  have hhalf : bps / 2 = (y - x) / 2 * 10000 / mid := by
    rw [hbps]
    ring
  rw [hhalf, lt_div_iff₀ hpos]
  constructor <;> intro h <;> linarith

/-- The best bid is out of the band when this is less than half the
spread. -/
theorem inBand_bid_iff (hmid : mid = (x + y) / 2) (hpos : 0 < mid)
    (hbps : bps = (y - x) / mid * 10000) :
    inBand mid k .buy x = false ↔ (k : ℚ) < bps / 2 := by
  rw [lt_half_spread_iff hpos hbps, inBand, decide_eq_false_iff_not,
    not_le]
  constructor <;> intro h <;> linarith

/-- So is the best ask. -/
theorem inBand_ask_iff (hmid : mid = (x + y) / 2) (hpos : 0 < mid)
    (hbps : bps = (y - x) / mid * 10000) :
    inBand mid k .sell y = false ↔ (k : ℚ) < bps / 2 := by
  rw [lt_half_spread_iff hpos hbps, inBand, decide_eq_false_iff_not,
    not_le]
  constructor <;> intro h <;> linarith

end Band

-- ================================================================= a book

namespace OrderBook

variable {n : Negation} {b : OrderBook}

/-- A positive price and a size that is not negative, where they can be
read; a bid's price is negated exactly. -/
def PositiveLevel (n : Negation) (side : Side) (price size : Json) : Prop :=
  (∀ p, decimal price = .ok p → ∃ q, p = .finite q ∧ 0 < q
      ∧ (side = .buy → n.ExactAt q))
    ∧ ∀ s, decimal size = .ok s → ∃ r, s = .finite r ∧ 0 ≤ r

-- Where nothing is rounded, a bid has only to be positive.
example {price size : Json}
    (hprice : ∀ p, decimal price = .ok p → ∃ q, p = .finite q ∧ 0 < q)
    (hsize : ∀ s, decimal size = .ok s → ∃ r, s = .finite r ∧ 0 ≤ r) :
    PositiveLevel .exact .buy price size := by
  refine ⟨fun p hp => ?_, hsize⟩
  obtain ⟨q, rfl, hq⟩ := hprice p hp
  exact ⟨q, rfl, hq, fun _ => Negation.exactAt_exact q⟩

/-- A book that calls of positive levels lead to, whether or not they
raised. -/
inductive ReachedBy (n : Negation) : OrderBook → Prop where
  | new : ReachedBy n {}
  | call {b : OrderBook} (h : ReachedBy n b) (op : Op)
      (hop : op.Each (PositiveLevel n)) :
      ReachedBy n ((op.runBy n).run b).state

/-- Levels of this kind keep the sides so. -/
theorem stable_positive (n : Negation) :
    Stable n (Levels.Positive n) (PositiveLevel n) where
  nil := Levels.positive_nil n
  set := fun side d price size p s d' hd h hp hs hset => by
    obtain ⟨q, rfl, hq, hexact⟩ := h.1 p hp
    obtain ⟨r, rfl, hr⟩ := h.2 s hs
    exact hd.setBy hexact hq hr hset

/-- Every book that is reached is one of them, by induction on the
calls. -/
theorem positive_of_reached (hb : ReachedBy n b) :
    b.Both (Levels.Positive n) := by
  induction hb with
  | new =>
      intro side
      cases side <;> exact Levels.positive_nil n _
  | @call b hb op hop ih => exact (stable_positive n).preserves_runBy hop b ih

/-- A quote is that of the first levels. -/
theorem exists_best {q : Quote} (h : b.quote = .ok (some q)) :
    b.ready = true ∧ ∃ bid ask, b.bids.head? = some bid
      ∧ b.asks.head? = some ask ∧ bid.1.lt ask.1 = true := by
  unfold OrderBook.quote bestBid bestAsk at h
  cases hready : b.ready with
  | false =>
      rw [hready] at h
      cases h
  | true =>
      rw [hready, if_pos rfl, if_pos rfl] at h
      refine ⟨rfl, ?_⟩
      cases hbid : b.bids.head? with
      | none =>
          rw [hbid] at h
          cases h
      | some bid =>
          cases hask : b.asks.head? with
          | none =>
              rw [hbid, hask] at h
              cases h
          | some ask =>
              rw [hbid, hask] at h
              dsimp only at h
              split at h
              · cases h
              · split at h
                · next hlt => exact ⟨bid, ask, rfl, rfl, hlt⟩
                · cases h

/-- A book of positive sides with a quote is uncrossed. -/
theorem uncrossed_of_quote (hb : b.Both (Levels.Positive n)) {q : Quote}
    (h : b.quote = .ok (some q)) : Warehouse.Uncrossed b := by
  obtain ⟨hready, bid, ask, hbid, hask, hlt⟩ := exists_best h
  have hbids : b.bids ≠ [] := by
    intro hnil
    rw [hnil] at hbid
    cases hbid
  have hasks : b.asks ≠ [] := by
    intro hnil
    rw [hnil] at hask
    cases hask
  have hbuy : (b.levels .buy).SortedBy n .buy := (hb .buy).sorted
  have hsell : (b.levels .sell).SortedBy n .sell := (hb .sell).sorted
  obtain ⟨x, xs, hx⟩ := exists_head hbuy.plain hbids
  obtain ⟨y, ys, hy⟩ := exists_head hsell.plain hasks
  obtain rfl := Option.some.inj (hbid.symm.trans hx)
  obtain rfl := Option.some.inj (hask.symm.trans hy)
  have hxy : x < y := decide_eq_true_iff.mp hlt
  exact {
    ready := hready
    plain := fun side => (hb side).sorted.plain
    bestFirst := fun side => (hb side).sorted.order
    price_pos := fun side => (hb side).price_pos
    size_pos := fun side => (hb side).size_pos
    bids := hbids
    asks := hasks
    uncrossed := fun q s r t hq hr => by
      have hqx : q ≤ x := not_lt.mp ((hbuy.head.mp hx).2 q s hq)
      have hyr : y ≤ r := not_lt.mp ((hsell.head.mp hy).2 r t hr)
      exact hqx.trans_lt (hxy.trans_le hyr) }

-- ============================================================== the depths

/-- The depths of a quoted book: monotone in the band, no more than what
rests on their side, and zero on both sides alike, within less than half
of the spread. -/
structure TwoSided (b : OrderBook) (q : Quote) (mid bps : ℚ)
    (depth : Int → Side → ℚ) (total : Side → ℚ) : Prop where
  mid_eq : q.mid Context.exact = .ok (.finite mid)
  spreadBps_eq : q.spreadBps Context.exact = .ok (.finite bps)
  depth_eq : ∀ k, b.depthWithinBps Context.exact k
    = .ok (.finite (depth k .buy), .finite (depth k .sell))
  total_eq : ∀ side, (b.levels side).totalSize Context.exact
    = .ok (.finite (total side))
  mid_ne_zero : mid ≠ 0
  spreadBps_pos : 0 < bps
  spreadBps_lt : bps < 20000
  monotone : ∀ k l, k ≤ l → ∀ side, depth k side ≤ depth l side
  le_total : ∀ k side, depth k side ≤ total side
  alike : ∀ k, depth k .buy = 0 ↔ depth k .sell = 0
  empty : ∀ k side, depth k side = 0 ↔ k < bps / 2

/-- The levels of one side, of those of the two. -/
def bySide (bids asks : List (ℚ × ℚ)) : Side → List (ℚ × ℚ)
  | .buy => bids
  | .sell => asks

section Sides

open Warehouse

variable {x y : ℚ × ℚ} {xs ys : List (ℚ × ℚ)}

/-- Either side, written out. -/
theorem levels_eq_bySide (h : TwoSides b x y xs ys) (side : Side) :
    b.levels side = Levels.ofPairs (bySide (x :: xs) (y :: ys) side) := by
  cases side with
  | buy => exact h.bids
  | sell => exact h.asks

/-- The depths of two sides that are written out. A band holds a level
of a side when it holds the best one, which lies half the spread away
from the mid on either side. -/
theorem twoSided_of_sides (h : TwoSides b x y xs ys)
    (hready : b.ready = true)
    (hsizes : ∀ side, ∀ z ∈ bySide (x :: xs) (y :: ys) side, 0 < z.2) :
    ∃ mid bps depth total, TwoSided b ⟨.finite x.1, .finite x.2,
      .finite y.1, .finite y.2⟩ mid bps depth total := by
  have hx := h.price_pos
  have hxy := h.uncrossed
  have hmid : 0 < (x.1 + y.1) / 2 := by linarith
  set mid := (x.1 + y.1) / 2 with hmid_eq
  set bps := (y.1 - x.1) / mid * 10000 with hbps_eq
  let sides := bySide (x :: xs) (y :: ys)
  let depth : Int → Side → ℚ := fun k side =>
    sumWithin (inBand mid k side) (sides side)
  have hempty : ∀ k side, depth k side = 0 ↔ (k : ℚ) < bps / 2 := by
    intro k side
    cases side with
    | buy =>
        rw [← inBand_bid_iff hmid_eq hmid hbps_eq]
        exact sumWithin_eq_zero_iff (hsizes .buy) fun z hz =>
          inBand_of_not_before (not_lt.mpr (h.bid_le z hz))
    | sell =>
        rw [← inBand_ask_iff hmid_eq hmid hbps_eq]
        exact sumWithin_eq_zero_iff (hsizes .sell) fun z hz =>
          inBand_of_not_before (not_lt.mpr (h.le_ask z hz))
  refine ⟨mid, bps, depth, fun side => ((sides side).map Prod.snd).sum, ?_⟩
  exact {
    mid_eq := mid_exact _ _ _ _
    spreadBps_eq := spreadBps_exact _ _ _ _ hmid.ne'
    depth_eq := fun k => h.depthWithinBps_sum hready k rfl rfl
    total_eq := fun side => by
      rw [levels_eq_bySide h, Levels.totalSize_exact]
    mid_ne_zero := hmid.ne'
    spreadBps_pos := by
      have hspread : 0 < y.1 - x.1 := sub_pos.mpr hxy
      positivity
    spreadBps_lt := by
      have hratio : (y.1 - x.1) / mid < 2 := by
        rw [div_lt_iff₀ hmid]
        linarith
      linarith
    monotone := fun k l hkl side =>
      sumWithin_mono (hsizes side) fun q => inBand_mono hmid hkl
    le_total := fun k side => sumWithin_le_total (hsizes side)
    alike := fun k => (hempty k .buy).trans (hempty k .sell).symm
    empty := hempty }

end Sides

/-- Every quoted book of positive levels has depths of this kind.

The sides are positive (`positive_of_reached`), so they can be written
out as lists of prices and sizes with the best first; the rest is about
these lists (`twoSided_of_sides`). -/
theorem depth_is_monotone_and_two_sided (hb : ReachedBy n b) {q : Quote}
    (hq : b.quote = .ok (some q)) :
    ∃ mid bps depth total, TwoSided b q mid bps depth total := by
  have huncrossed := uncrossed_of_quote (positive_of_reached hb) hq
  obtain ⟨x, y, xs, ys, h⟩ := huncrossed.exists_sides
  obtain rfl := Option.some.inj
    (Except.ok.inj (hq.symm.trans (h.quote huncrossed.ready)))
  apply twoSided_of_sides h huncrossed.ready
  intro side z hz
  apply huncrossed.size_pos side z.1 z.2
  rw [levels_eq_bySide h]
  exact Levels.rests_ofPairs.mpr hz

/-- Within the default context the bids that fit will do. -/
theorem positiveLevel_of_fits {side : Side} {price size : Json} {q s : ℚ}
    (hprice : decimal price = .ok (.finite q))
    (hsize : decimal size = .ok (.finite s)) (hq : 0 < q) (hs : 0 ≤ s)
    (hfits : side = .buy → Fits q) :
    PositiveLevel .default side price size := by
  constructor
  · intro p hp
    obtain rfl := Except.ok.inj (hprice.symm.trans hp)
    exact ⟨q, rfl, hq, fun h => neg_of_fits (hfits h)⟩
  · intro p hp
    obtain rfl := Except.ok.inj (hsize.symm.trans hp)
    exact ⟨s, rfl, hs⟩

/-- Two levels on each side. -/
def wideSnapshot : Op :=
  .applySnapshot [(.str "99", .str "2"), (.str "98", .str "1")]
    [(.str "102", .str "3"), (.str "101", .str "4")]

/-- A bid is removed, and a side that is none ends the call. -/
def brokenUpdate : Op :=
  .applyUpdates [(.str "buy", .str "98.0", .str "0.00"),
    (.str "hold", .str "101", .str "0")]

theorem depth_is_monotone_and_two_sided_wide :
    ∃ mid bps depth total, TwoSided
      ((brokenUpdate.runBy .default).run
        ((wideSnapshot.runBy .default).run {}).state).state
      ⟨.finite 99, .finite 2, .finite 101, .finite 4⟩ mid bps depth
      total := by
  have hlevel : ∀ {side : Side} {price size : String} (n : Int) (s : ℚ),
      decimal (.str price) = .ok (.finite n) →
      decimal (.str size) = .ok (.finite s) → 0 < n → 0 ≤ s →
      |n| < 10 ^ 28 → Int.log 10 |(n : ℚ)| ≤ 999999 →
      PositiveLevel .default side (.str price) (.str size) :=
    fun n s hn hs hpos hnonneg hdigits hlog =>
      positiveLevel_of_fits hn hs (Int.cast_pos.mpr hpos) hnonneg fun _ =>
        ⟨⟨n, 0, by rw [zpow_zero, mul_one], hdigits, by decide⟩, hlog⟩
  have hsnapshot : wideSnapshot.Each (PositiveLevel .default) := by
    simp only [wideSnapshot, List.forall_mem_cons, List.not_mem_nil,
      false_implies, implies_true, and_true, Op.Each]
    refine ⟨⟨?_, ?_⟩, ?_, ?_⟩
    · exact hlevel 99 2 (by decide +kernel) (by decide +kernel)
        (by decide) (by decide) (by decide) (by decide +kernel)
    · exact hlevel 98 1 (by decide +kernel) (by decide +kernel)
        (by decide) (by decide) (by decide) (by decide +kernel)
    · exact hlevel 102 3 (by decide +kernel) (by decide +kernel)
        (by decide) (by decide) (by decide) (by decide +kernel)
    · exact hlevel 101 4 (by decide +kernel) (by decide +kernel)
        (by decide) (by decide) (by decide) (by decide +kernel)
  have hupdate : brokenUpdate.Each (PositiveLevel .default) := by
    simp only [brokenUpdate, List.forall_mem_cons, List.not_mem_nil,
      false_implies, implies_true, and_true, Op.Each]
    refine ⟨fun side _ => ?_, fun side hside => by cases hside⟩
    exact hlevel 98 0 (by decide +kernel) (by decide +kernel)
      (by decide) (by decide) (by decide) (by decide +kernel)
  refine depth_is_monotone_and_two_sided (n := .default) ?_ ?_
  · exact (ReachedBy.new.call _ hsnapshot).call _ hupdate
  · decide +kernel

end OrderBook

end MarketPlatform.Consumer
