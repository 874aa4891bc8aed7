/-
When the price filter is unobservable.

`int_book_state_1m` keeps, of the rows since a product's latest snapshot,
the levels within 1% of the snapshot's mid, to save scanning; its comment
says that no published number can change. `fullBookState1m` is the model
without the filter. This file compares what `fct_liquidity_1m` publishes
from the two, at every product and minute (`pruning_unobservable_iff`).

# The two books

Every price level is filtered as a whole: its events of a minute are all
kept or all dropped (`group_relevant`). So at a minute that both models
have, the pruned book is the full book restricted to the band
(`pruned_perm`). A minute in which only far levels changed is not in the
pruned model at all.

# The published numbers

A book without a bid or without an ask publishes nothing. Otherwise its
best prices are those of some rows, and its depths are sums over the rows
that they count; all sizes are positive, so that a sum is the same without
some rows exactly when it counts none of them (`depth_filter_eq_iff`).
Hence the touch and every counted level have to be inside the band
(`Covered`). The depth bands follow the mid of the minute, which may have
left the snapshot's behind: that is how the pruning shows
(`drift_hides_an_ask`).
-/
import Mathlib.Algebra.Order.BigOperators.Group.List
import MarketPlatform.Proofs.BookRows
import MarketPlatform.Proofs.Staged

namespace MarketPlatform.Warehouse

open Lib Lib.Rfc3339 Lib.Relation

-- ============================================================ the two books

/-- The rows of the latest snapshots and after, at any price. -/
def unpruned (es : List BookEvent) : List BookEvent :=
  es.filter (sinceSnapshot es)

/-- `int_book_state_1m` without the price filter. -/
def fullBookState1m (E : Engine) (es : List StgL2Event) : List BookRow :=
  reconstruct E (minuteGrid (unpruned (bookEvents es)))
    (unpruned (bookEvents es))

/-- The price of a book row lies in the band around the mid of the
latest snapshot of its product. -/
def BookRow.nearMid (es : List BookEvent) (r : BookRow) : Bool :=
  match referenceMid es r.productId, r.price with
  | some mid, some price => inBand mid price
  | _, _ => false

variable {E : Engine} {es : List BookEvent} {g : String × Int}

theorem mem_relevant {e : BookEvent} :
    e ∈ relevant es ↔ e ∈ unpruned es ∧ nearMid es e = true := by
  simp only [relevant, unpruned, List.mem_filter, Bool.and_eq_true,
    and_assoc]

/-- The filter reads only what events of one level share. -/
theorem nearMid_congr {e e' : BookEvent} (hp : e.productId = e'.productId)
    (hlevel : e.level = e'.level) : nearMid es e = nearMid es e' := by
  have hprice : e.price = e'.price := congrArg Prod.snd hlevel
  rw [nearMid, nearMid, hp, hprice]

/-- A level's events of one minute are all kept or all dropped. -/
theorem group_relevant {e : BookEvent} (he : nearMid es e = true) :
    group BookEvent.levelMinuteKey (relevant es) e.levelMinuteKey
      = group BookEvent.levelMinuteKey (unpruned es) e.levelMinuteKey := by
  rw [relevant, unpruned, group, group, List.filter_filter,
    List.filter_filter]
  refine List.filter_congr fun e' _ => ?_
  by_cases hkey : e'.levelMinuteKey = e.levelMinuteKey
  · have hp : e'.productId = e.productId := congrArg Prod.fst hkey
    have hlevel : e'.level = e.level := by
      have hside := congrArg (fun k => k.2.1) hkey
      have hprice := congrArg (fun k => k.2.2.1) hkey
      exact Prod.ext hside hprice
    rw [nearMid_congr hp hlevel, he, Bool.and_true]
  · simp only [hkey, decide_false, Bool.false_and]

theorem carriedFrom_relevant {e : BookEvent} :
    CarriedFrom (relevant es) g e
      ↔ CarriedFrom (unpruned es) g e ∧ nearMid es e = true := by
  constructor
  · intro h
    obtain ⟨hmem, hnear⟩ := mem_relevant.mp h.mem
    refine ⟨⟨hmem, h.product, h.before, fun e' he' hp hlevel hle => ?_⟩,
      hnear⟩
    refine h.latest e' (mem_relevant.mpr ⟨he', ?_⟩) hp hlevel hle
    rw [nearMid_congr (hp.trans h.product.symm) hlevel, hnear]
  · intro hx
    obtain ⟨h, hnear⟩ := hx
    refine ⟨mem_relevant.mpr ⟨h.mem, hnear⟩, h.product, h.before,
      fun e' he' hp hlevel hle => ?_⟩
    exact h.latest e' (mem_relevant.mp he').1 hp hlevel hle

/-- At a minute of the grid, the pruned book is the full book's levels
inside the band. An event is pruned by its product's reference mid and
its price, so a level is kept or dropped with all of its events. -/
theorem mem_carried_relevant {r : BookRow} :
    r ∈ carried E (levelMinute E (relevant es)) g
      ↔ r ∈ carried E (levelMinute E (unpruned es)) g
        ∧ r.nearMid es = true := by
  have hnear : ∀ e, CarriedFrom (unpruned es) g e →
      (rowOf E (unpruned es) g e).nearMid es = nearMid es e := by
    intro e he
    rw [BookRow.nearMid, nearMid, he.product]
    rfl
  have hrow : ∀ e, nearMid es e = true →
      rowOf E (relevant es) g e = rowOf E (unpruned es) g e := by
    intro e he
    rw [rowOf, rowOf, minuteSize, minuteSize, group_relevant he]
  rw [mem_carried, mem_carried]
  constructor
  · intro h
    obtain ⟨e, he, rfl⟩ := h
    obtain ⟨he, hk⟩ := carriedFrom_relevant.mp he
    rw [hrow e hk]
    exact ⟨⟨e, he, rfl⟩, (hnear e he).trans hk⟩
  · intro h
    obtain ⟨⟨e, he, rfl⟩, hk⟩ := h
    rw [hnear e he] at hk
    exact ⟨e, carriedFrom_relevant.mpr ⟨he, hk⟩, hrow e hk⟩

/-- The rows of a minute that is in both grids: those of the pruned book
are the full book's inside the band. -/
theorem pruned_perm {grid grid' : List (String × Int)} (hgrid : grid.Nodup)
    (hgrid' : grid'.Nodup) (hg : g ∈ grid) (hg' : g ∈ grid') :
    (group BookRow.gridKey (reconstruct E grid (relevant es)) g).Perm
      ((group BookRow.gridKey (reconstruct E grid' (unpruned es)) g).filter
        (BookRow.nearMid es)) := by
  refine (List.perm_ext_iff_of_nodup (nodup_group_reconstruct hgrid)
    ((nodup_group_reconstruct hgrid').filter _)).mpr fun r => ?_
  rw [List.mem_filter, group_reconstruct hgrid hg,
    group_reconstruct hgrid' hg']
  simp only [List.mem_filter, mem_carried_relevant]
  tauto

/-- Every minute of the pruned book is one of the full book. -/
theorem mem_grid_unpruned (hg : g ∈ minuteGrid (relevant es)) :
    g ∈ minuteGrid (unpruned es) := by
  obtain ⟨e, he, heq⟩ := List.mem_map.mp (List.mem_dedup.mp hg)
  exact List.mem_dedup.mpr
    (List.mem_map.mpr ⟨e, (mem_relevant.mp he).1, heq⟩)

-- ================================================================== depth

/-- Every row rests: its size is positive. -/
theorem size_pos {grid : List (String × Int)} {r : BookRow}
    (hr : r ∈ group BookRow.gridKey (reconstruct E grid es) g) :
    0 < r.size.getD 0 := by
  have hrest := (mem_reconstruct.mp (mem_group.mp hr).1).2.1
  unfold BookRow.isResting at hrest
  cases hs : r.size with
  | none => rw [hs] at hrest; cases hrest
  | some s =>
      rw [hs] at hrest
      exact of_decide_eq_true hrest

theorem depth_cons {counts : BookRow → Bool} {r : BookRow}
    {rows : List BookRow} :
    depth counts (r :: rows)
      = (if counts r then r.size.getD 0 else 0) + depth counts rows := by
  rw [depth, List.map_cons, List.sum_cons]
  rfl

theorem depth_filter_le {counts keep : BookRow → Bool}
    {rows : List BookRow} (hpos : ∀ r ∈ rows, 0 < r.size.getD 0) :
    depth counts (rows.filter keep) ≤ depth counts rows := by
  induction rows with
  | nil => exact le_refl _
  | cons r rows ih =>
      have hr : 0 < r.size.getD 0 := hpos r List.mem_cons_self
      have ih := ih fun s hs => hpos s (List.mem_cons_of_mem r hs)
      have hadd : 0 ≤ if counts r then r.size.getD 0 else 0 := by
        split
        · exact hr.le
        · exact le_refl _
      rw [List.filter_cons, depth_cons]
      split
      · rw [depth_cons]
        exact add_le_add_right ih _
      · exact ih.trans (le_add_of_nonneg_left hadd)

/-- A depth is the same without the dropped rows exactly when it counts
none of them. -/
theorem depth_filter_eq_iff {counts keep : BookRow → Bool}
    {rows : List BookRow} (hpos : ∀ r ∈ rows, 0 < r.size.getD 0) :
    depth counts (rows.filter keep) = depth counts rows
      ↔ ∀ r ∈ rows, counts r = true → keep r = true := by
  induction rows with
  | nil => simp
  | cons r rows ih =>
      have hr : 0 < r.size.getD 0 := hpos r List.mem_cons_self
      have hpos := fun s hs => hpos s (List.mem_cons_of_mem r hs)
      rw [List.forall_mem_cons, ← ih hpos, depth_cons, List.filter_cons]
      by_cases hk : keep r = true
      · rw [if_pos hk, depth_cons, add_right_inj]
        simp only [hk, implies_true, true_and]
      · have hle : depth counts (rows.filter keep) ≤ depth counts rows :=
          depth_filter_le hpos
        rw [if_neg hk]
        by_cases hc : counts r = true
        · rw [if_pos hc]
          constructor
          · intro h
            rw [h] at hle
            exact absurd hle (not_le.mpr (lt_add_of_pos_left _ hr))
          · exact fun h => absurd (h.1 hc) hk
        · rw [if_neg hc, zero_add]
          simp only [hc, false_implies, true_and, Bool.false_eq_true]

-- ============================================================ the published

/-- The columns of `fct_liquidity_1m` that the pruning must not
affect. -/
structure Published where
  bestBid : ℚ
  bestAsk : ℚ
  mid : ℚ
  spreadBps : Option ℚ
  bidDepth5bps : ℚ
  askDepth5bps : ℚ
  bidDepth10bps : ℚ
  askDepth10bps : ℚ
  bidDepth25bps : ℚ
  askDepth25bps : ℚ
  bookImbalance : Option ℚ
  deriving DecidableEq

def Liquidity.published (l : Liquidity) : Published where
  bestBid := l.bestBid
  bestAsk := l.bestAsk
  mid := l.mid
  spreadBps := l.spreadBps
  bidDepth5bps := l.bidDepth5bps
  askDepth5bps := l.askDepth5bps
  bidDepth10bps := l.bidDepth10bps
  askDepth10bps := l.askDepth10bps
  bidDepth25bps := l.bidDepth25bps
  askDepth25bps := l.askDepth25bps
  bookImbalance := l.bookImbalance

/-- What is published for a product and minute, from the rows of a
book. -/
def publishedAt (rows : List BookRow) (g : String × Int) :
    List Published :=
  (group Liquidity.gridKey (fctLiquidity1m rows) g).map
    Liquidity.published

theorem publishedAt_eq {rows : List BookRow} :
    publishedAt rows g
      = ((liquidityOf g (group BookRow.gridKey rows g)).map
          Liquidity.published).toList := by
  rw [publishedAt, group_fctLiquidity1m, Option.toList_map]

/-- The widths of the depth bands. -/
def widths : List ℚ := [5 / 10000, 10 / 10000, 25 / 10000]

/-- A row that some depth band around a mid counts. -/
def BookRow.counted (mid : ℚ) (r : BookRow) : Bool :=
  widths.any fun w => bidWithin mid w r || askWithin mid w r

/-- A row at the best bid or at the best ask. -/
def BookRow.atTouch (bid ask : ℚ) (r : BookRow) : Bool :=
  r.side = some "buy" && r.price = some bid
    || r.side = some "sell" && r.price = some ask

/-- If a book has two sides, its touch and every level that is counted
lie in the band around the mid of the latest snapshot. -/
def Covered (es : List BookEvent) (book : List BookRow) : Prop :=
  ∀ bid ∈ maxOf (bookPrices "buy" book),
  ∀ ask ∈ minOf (bookPrices "sell" book), ∀ r ∈ book,
    (r.atTouch bid ask || r.counted (divNumeric (bid + ask) 2)) = true →
      r.nearMid es = true

/-- The book has a bid and an ask. -/
def HasSides (book : List BookRow) : Prop :=
  bookPrices "buy" book ≠ [] ∧ bookPrices "sell" book ≠ []

instance (book : List BookRow) : Decidable (HasSides book) :=
  inferInstanceAs (Decidable (_ ∧ _))

/-- The published columns, from the touch. -/
def publishedOf (bid ask : ℚ) (rows : List BookRow) : Published :=
  let mid := divNumeric (bid + ask) 2
  let bid25 := depth (bidWithin mid (25 / 10000)) rows
  let ask25 := depth (askWithin mid (25 / 10000)) rows
  { bestBid := bid
    bestAsk := ask
    mid
    spreadBps := (safeDivide (ask - bid) mid).map fun q =>
      mulNumeric q 10000
    bidDepth5bps := depth (bidWithin mid (5 / 10000)) rows
    askDepth5bps := depth (askWithin mid (5 / 10000)) rows
    bidDepth10bps := depth (bidWithin mid (10 / 10000)) rows
    askDepth10bps := depth (askWithin mid (10 / 10000)) rows
    bidDepth25bps := bid25
    askDepth25bps := ask25
    bookImbalance := safeDivide (bid25 - ask25) (bid25 + ask25) }

theorem published_eq_some_iff {rows : List BookRow} {p : Published} :
    (liquidityOf g rows).map Liquidity.published = some p
      ↔ ∃ bid ∈ maxOf (bookPrices "buy" rows),
        ∃ ask ∈ minOf (bookPrices "sell" rows),
          publishedOf bid ask rows = p := by
  cases hbid : maxOf (bookPrices "buy" rows) with
  | none => simp [liquidityOf, hbid]
  | some bid =>
      cases hask : minOf (bookPrices "sell" rows) with
      | none => simp [liquidityOf, hbid, hask]
      | some ask =>
          have hrow : (liquidityOf g rows).map Liquidity.published
              = some (publishedOf bid ask rows) := by
            simp only [liquidityOf, hbid, hask, Option.bind_eq_bind,
              Option.bind_some, Option.pure_def, Option.map_some]
            rfl
          rw [hrow]
          simp

/-- A book publishes something exactly when it has two sides. -/
theorem published_isSome_iff {rows : List BookRow} :
    ((liquidityOf g rows).map Liquidity.published).isSome = true
      ↔ HasSides rows := by
  rw [Option.isSome_iff_exists]
  constructor
  · rintro ⟨p, hp⟩
    obtain ⟨bid, hbid, ask, hask, -⟩ := published_eq_some_iff.mp hp
    exact ⟨List.ne_nil_of_mem (mem_of_maxOf hbid),
      List.ne_nil_of_mem (mem_of_minOf hask)⟩
  · rintro ⟨hbuy, hsell⟩
    obtain ⟨x, hx⟩ := List.exists_mem_of_ne_nil _ hbuy
    obtain ⟨y, hy⟩ := List.exists_mem_of_ne_nil _ hsell
    obtain ⟨bid, hbid⟩ := exists_maxOf hx
    obtain ⟨ask, hask⟩ := exists_minOf hy
    exact ⟨_, published_eq_some_iff.mpr ⟨bid, hbid, ask, hask, rfl⟩⟩

/-- Dropping rows changes nothing of what is published from a touch
exactly when no dropped row is counted. The sizes are positive, so a
depth without a row that it counts is smaller. -/
theorem publishedOf_filter_iff {bid ask : ℚ} {keep : BookRow → Bool}
    {rows : List BookRow} (hpos : ∀ r ∈ rows, 0 < r.size.getD 0) :
    publishedOf bid ask (rows.filter keep) = publishedOf bid ask rows
      ↔ ∀ r ∈ rows, r.counted (divNumeric (bid + ask) 2) = true →
          keep r = true := by
  have hiff : ∀ counts, depth counts (rows.filter keep) = depth counts rows
      ↔ ∀ r ∈ rows, counts r = true → keep r = true := fun _ =>
    depth_filter_eq_iff hpos
  constructor
  · intro h r hr hc
    simp only [publishedOf, Published.mk.injEq, true_and, hiff] at h
    obtain ⟨hb5, ha5, hb10, ha10, hb25, ha25, -⟩ := h
    simp only [BookRow.counted, widths, List.any_cons, List.any_nil,
      Bool.or_eq_true, Bool.false_eq_true, or_false] at hc
    rcases hc with (hc | hc) | (hc | hc) | hc | hc
    · exact hb5 r hr hc
    · exact ha5 r hr hc
    · exact hb10 r hr hc
    · exact ha10 r hr hc
    · exact hb25 r hr hc
    · exact ha25 r hr hc
  · intro h
    have hbid : ∀ w ∈ widths,
        depth (bidWithin (divNumeric (bid + ask) 2) w) (rows.filter keep)
          = depth (bidWithin (divNumeric (bid + ask) 2) w) rows := by
      intro w hw
      refine (hiff _).mpr fun r hr hc => h r hr ?_
      exact List.any_eq_true.mpr ⟨w, hw, by rw [hc, Bool.true_or]⟩
    have hask : ∀ w ∈ widths,
        depth (askWithin (divNumeric (bid + ask) 2) w) (rows.filter keep)
          = depth (askWithin (divNumeric (bid + ask) 2) w) rows := by
      intro w hw
      refine (hiff _).mpr fun r hr hc => h r hr ?_
      exact List.any_eq_true.mpr ⟨w, hw, by rw [hc, Bool.or_true]⟩
    simp only [widths, List.forall_mem_cons] at hbid hask
    simp only [publishedOf, hbid.1, hbid.2.1, hbid.2.2.1, hask.1,
      hask.2.1, hask.2.2.1]

-- ============================================================== the result

/-- The filter reads only a row's product and price. -/
theorem rowNearMid_congr {r r' : BookRow}
    (hp : r.productId = r'.productId) (hprice : r.price = r'.price) :
    r.nearMid es = r'.nearMid es := by
  rw [BookRow.nearMid, BookRow.nearMid, hp, hprice]

section Covered

variable {book : List BookRow} {bid ask : ℚ}

theorem mem_bookPrices_of_filter {side : String} {keep : BookRow → Bool}
    {x : ℚ} (h : x ∈ bookPrices side (book.filter keep)) :
    x ∈ bookPrices side book := by
  obtain ⟨r, hr, hr'⟩ := mem_bookPrices.mp h
  exact mem_bookPrices.mpr ⟨r, (List.mem_filter.mp hr).1, hr'⟩

theorem atTouch_iff {r : BookRow} : r.atTouch bid ask = true
    ↔ r.side = some "buy" ∧ r.price = some bid
      ∨ r.side = some "sell" ∧ r.price = some ask := by
  simp only [BookRow.atTouch, Bool.or_eq_true, Bool.and_eq_true,
    decide_eq_true_eq]

/-- A covered touch stays the touch. -/
theorem touch_of_covered (h : Covered es book)
    (hbid : maxOf (bookPrices "buy" book) = some bid)
    (hask : minOf (bookPrices "sell" book) = some ask) :
    maxOf (bookPrices "buy" (book.filter (BookRow.nearMid es)))
        = some bid
      ∧ minOf (bookPrices "sell" (book.filter (BookRow.nearMid es)))
        = some ask := by
  have hnear := h bid hbid ask hask
  have hkept : ∀ r ∈ book, r.atTouch bid ask = true →
      r ∈ book.filter (BookRow.nearMid es) := by
    intro r hr ht
    exact List.mem_filter.mpr ⟨hr, hnear r hr (by rw [ht, Bool.true_or])⟩
  rw [maxOf_eq_some_iff] at hbid
  rw [minOf_eq_some_iff] at hask
  constructor
  · obtain ⟨r, hr, hside, hprice⟩ := mem_bookPrices.mp hbid.1
    have ht := atTouch_iff.mpr (Or.inl (b := r.side = some "sell"
      ∧ r.price = some ask) ⟨hside, hprice⟩)
    refine maxOf_eq_some_iff.mpr ⟨?_, fun x hx =>
      hbid.2 x (mem_bookPrices_of_filter hx)⟩
    exact mem_bookPrices.mpr ⟨r, hkept r hr ht, hside, hprice⟩
  · obtain ⟨r, hr, hside, hprice⟩ := mem_bookPrices.mp hask.1
    have ht := atTouch_iff.mpr (Or.inr (a := r.side = some "buy"
      ∧ r.price = some bid) ⟨hside, hprice⟩)
    refine minOf_eq_some_iff.mpr ⟨?_, fun x hx =>
      hask.2 x (mem_bookPrices_of_filter hx)⟩
    exact mem_bookPrices.mpr ⟨r, hkept r hr ht, hside, hprice⟩

theorem published_of_covered (h : Covered es book)
    (hpos : ∀ r ∈ book, 0 < r.size.getD 0) :
    (liquidityOf g (book.filter (BookRow.nearMid es))).map
        Liquidity.published
      = (liquidityOf g book).map Liquidity.published := by
  refine Option.ext fun p => ?_
  rw [published_eq_some_iff, published_eq_some_iff]
  have hsame : ∀ bid ∈ maxOf (bookPrices "buy" book),
      ∀ ask ∈ minOf (bookPrices "sell" book),
        publishedOf bid ask (book.filter (BookRow.nearMid es))
          = publishedOf bid ask book := by
    intro bid hbid ask hask
    refine (publishedOf_filter_iff hpos).mpr fun r hr hc => ?_
    exact h bid hbid ask hask r hr (by rw [hc, Bool.or_true])
  constructor
  · intro hx
    obtain ⟨bid, hbid, ask, hask, rfl⟩ := hx
    -- the full book has two sides, so its touch is the pruned one's
    obtain ⟨bid', hbid'⟩ := exists_maxOf
      (mem_bookPrices_of_filter (mem_of_maxOf hbid))
    obtain ⟨ask', hask'⟩ := exists_minOf
      (mem_bookPrices_of_filter (mem_of_minOf hask))
    obtain ⟨hb, ha⟩ := touch_of_covered h hbid' hask'
    obtain rfl : bid' = bid := Option.some.inj (hb.symm.trans hbid)
    obtain rfl : ask' = ask := Option.some.inj (ha.symm.trans hask)
    exact ⟨bid', hbid', ask', hask', (hsame _ hbid' _ hask').symm⟩
  · intro hx
    obtain ⟨bid, hbid, ask, hask, rfl⟩ := hx
    obtain ⟨hb, ha⟩ := touch_of_covered h hbid hask
    exact ⟨bid, hb, ask, ha, hsame bid hbid ask hask⟩

theorem covered_of_published
    (hprod : ∀ r ∈ book, r.productId = g.1)
    (hpos : ∀ r ∈ book, 0 < r.size.getD 0)
    (h : (liquidityOf g (book.filter (BookRow.nearMid es))).map
        Liquidity.published
      = (liquidityOf g book).map Liquidity.published) :
    Covered es book := by
  intro bid hbid ask hask
  have hfull : (liquidityOf g book).map Liquidity.published
      = some (publishedOf bid ask book) :=
    published_eq_some_iff.mpr ⟨bid, hbid, ask, hask, rfl⟩
  obtain ⟨bid', hbid', ask', hask', heq⟩ :=
    published_eq_some_iff.mp (h.trans hfull)
  obtain rfl : bid' = bid := congrArg Published.bestBid heq
  obtain rfl : ask' = ask := congrArg Published.bestAsk heq
  -- a kept row at the touch speaks for every row there
  have htouch : ∀ side x,
      x ∈ bookPrices side (book.filter (BookRow.nearMid es)) →
        ∀ r ∈ book, r.price = some x → r.nearMid es = true := by
    intro side x hx r hr hprice
    obtain ⟨s, hs, -, hsprice⟩ := mem_bookPrices.mp hx
    obtain ⟨hs, hnear⟩ := List.mem_filter.mp hs
    rw [← hnear]
    refine rowNearMid_congr ?_ (hprice.trans hsprice.symm)
    rw [hprod r hr, hprod s hs]
  intro r hr hcase
  rw [Bool.or_eq_true] at hcase
  rcases hcase with ht | hc
  · rcases atTouch_iff.mp ht with ⟨-, hprice⟩ | ⟨-, hprice⟩
    · exact htouch "buy" bid' (mem_of_maxOf hbid') r hr hprice
    · exact htouch "sell" ask' (mem_of_minOf hask') r hr hprice
  · exact (publishedOf_filter_iff hpos).mp heq r hr hc

end Covered

/-- The pruning leaves every published number of a product and minute as
it is exactly when, if the full book of that minute has two sides, some
level inside the band has changed in the minute, and it drops neither the
touch of the book nor a level that one of the depths counts.

Without such a change the minute is missing from the pruned model, which
then publishes nothing; with one, the two books differ by the filter
alone. -/
theorem pruning_unobservable_iff (E : Engine) (es : List StgL2Event)
    (g : String × Int) :
    publishedAt (intBookState1m E es) g
        = publishedAt (fullBookState1m E es) g
      ↔ (HasSides (group BookRow.gridKey (fullBookState1m E es) g) →
          g ∈ minuteGrid (relevant (bookEvents es)))
        ∧ Covered (bookEvents es)
          (group BookRow.gridKey (fullBookState1m E es) g) := by
  have hlist : ∀ a b : Option Published, a.toList = b.toList ↔ a = b := by
    intro a b
    cases a <;> cases b <;> simp
  rw [publishedAt_eq, publishedAt_eq, hlist]
  by_cases hg : g ∈ minuteGrid (relevant (bookEvents es))
  · have hperm : (group BookRow.gridKey (intBookState1m E es) g).Perm
        ((group BookRow.gridKey (fullBookState1m E es) g).filter
          (BookRow.nearMid (bookEvents es))) :=
      pruned_perm (List.nodup_dedup _) (List.nodup_dedup _) hg
        (mem_grid_unpruned hg)
    have hprod : ∀ r ∈ group BookRow.gridKey (fullBookState1m E es) g,
        r.productId = g.1 := fun r hr =>
      congrArg Prod.fst (mem_group.mp hr).2
    rw [liquidityOf_perm hperm]
    constructor
    · exact fun h => ⟨fun _ => hg,
        covered_of_published hprod (fun r hr => size_pos hr) h⟩
    · exact fun h => published_of_covered h.2 fun r hr => size_pos hr
  · -- the pruned model has no such minute
    have hnil : group BookRow.gridKey (intBookState1m E es) g = [] :=
      group_reconstruct_of_notMem hg
    have hnone : ∀ o : Option Published,
        none = o ↔ ¬ o.isSome = true := by
      intro o
      cases o <;> simp
    rw [hnil]
    refine (hnone _).trans ?_
    rw [published_isSome_iff]
    constructor
    · intro hsides
      refine ⟨fun h => absurd h hsides, fun bid hbid ask hask => ?_⟩
      exact absurd ⟨List.ne_nil_of_mem (mem_of_maxOf hbid),
        List.ne_nil_of_mem (mem_of_minOf hask)⟩ hsides
    · exact fun h hsides => hg (h.1 hsides)

/-- A mid of 100.5, and a minute later one of 101.3: an ask at 101.55 is
24.7 basis points away and outside the snapshot's band. -/
def drift : List RawL2 := [
  btcRow "snapshot" ("\x7b\"bids\": [[\"100\", \"1\"]], "
    ++ "\"asks\": [[\"101\", \"1\"], [\"101.4\", \"3\"]]\x7d") 0,
  btcRow "l2update" ("\x7b\"changes\": [[\"buy\", \"101.2\", \"1\"], "
    ++ "[\"sell\", \"101\", \"0\"], [\"sell\", \"101.55\", \"2\"]]\x7d")
    60000]

/-- Once the market has drifted, a depth is published without a level
that it counts. -/
theorem drift_hides_an_ask :
    ∃ es, stgL2Events {} 0 drift = some es
      ∧ ("BTC-USD", minute) ∈ minuteGrid (relevant (bookEvents es))
      ∧ (publishedAt (intBookState1m Engine.inOrder es)
          ("BTC-USD", minute)).map Published.askDepth25bps = [3]
      ∧ (publishedAt (fullBookState1m Engine.inOrder es)
          ("BTC-USD", minute)).map Published.askDepth25bps = [5] := by
  refine ⟨(stgL2Events {} 0 drift).getD [], ?_⟩
  decide +kernel

end MarketPlatform.Warehouse
