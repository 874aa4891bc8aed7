/-
Streaming and batch compute the same bar.

A window's bar is computed twice, by the streaming job in Python and by
the warehouse in SQL. The job sorts the elements of a pane by trade id
and folds the list; the warehouse numbers the rows of a minute in both
directions and aggregates.

# The same figures

Both take the open from the least id and the close from the greatest
(`ends_of_ordered`), and the rest does not depend on an order: extremes,
sums and counts of the same trades. So with exact arithmetic the two
bars are one (`sameBar_of_perm`), but that the batch rounds the quotient
of its average price to nine digits. Both have no average price exactly
when there is no volume. The elements may have arrived in any order;
that no two trades of a window have one id is what the warehouse's
deduplication ensures.

# The same window

The trade itself lands in the same minute on both sides, since both read
its time from the same text (`windowOf_of_derived`). Its price and size
are the same numbers when staging rounded nothing (`StagedExactly`),
since the one side casts the text to NUMERIC and the other reads it as a
float.

# What is not in it

Doubles are not exact, and the streaming job uses them. The results that
hold of both arithmetics, by order alone, are in `Proofs/Restated`; how
many trades the two sides count is in `Proofs/StreamBatch`.
-/
import MarketPlatform.Proofs.Bars
import MarketPlatform.Proofs.StreamBatch

namespace MarketPlatform.Warehouse

open Lib Lib.Numeral Lib.Rfc3339 Lib.Relation Consumer Streaming

-- ======================================================= exact arithmetic

/-- Exact arithmetic, with nothing rounded at the end. -/
def exactly : Floats ℚ where
  ofText := fun text => (parse (strip text.toList)).getD 0
  mul := fun a b => a * b
  div := fun a b => a / b
  sum := List.sum
  max := fun xs => (maxOf xs).getD 0
  min := fun xs => (minOf xs).getD 0
  isZero := fun a => a = 0
  round9 := fun a => a

/-- A trade of the warehouse as an element of the stream. -/
def FctTrade.element (t : FctTrade) : Element ℚ where
  productId := t.productId
  tradeId := t.tradeId
  price := t.price
  size := t.size
  timestamp := t.eventTime

/-- Staging rounded nothing. -/
structure StagedExactly (r : RawTrade) (st : StgTrade) : Prop where
  staged : derived r = some st
  price : parse (strip r.price.toList) = some st.price
  size : parse (strip r.size.toList) = some st.size
  notional : st.notional = st.price * st.size

/-- What the job makes of the message of a staged trade. -/
theorem parseTrade_of_stagedExactly {r : RawTrade} {st : StgTrade}
    (h : StagedExactly r st) {m : Trade} (hm : r.Holds m) :
    ParseTrade.process exactly m
      = .ok (FctTrade.ofStaged st).element := by
  obtain ⟨hstaged, hprice, hsize, -⟩ := h
  have hcolumns : m.productId = r.productId ∧ m.tradeId = r.tradeId
      ∧ m.price = r.price ∧ m.size = r.size ∧ m.eventTime = r.eventTime :=
    ⟨congrArg RawTrade.productId hm.symm, congrArg RawTrade.tradeId hm.symm,
      congrArg RawTrade.price hm.symm, congrArg RawTrade.size hm.symm,
      congrArg RawTrade.eventTime hm.symm⟩
  obtain ⟨hproduct, hid, hmp, hms, hmt⟩ := hcolumns
  simp only [derived, Option.bind_eq_bind, Option.bind_eq_some_iff,
    Option.pure_def, Option.some.injEq] at hstaged
  obtain ⟨price, hp, size, hs, t, ht, _, _, _, _, rfl⟩ := hstaged
  unfold ParseTrade.process pyFloat
  rw [hmt, timestampOf_of_instant ht, hmp, hms, isFloat_of_castNumeric hp,
    isFloat_of_castNumeric hs, hproduct, hid]
  show Except.ok _ = Except.ok _
  simp only [exactly, hprice, hsize, Option.getD_some]
  rfl

-- ============================================================ the two bars

/-- A streaming bar and a batch bar show the same trades; only the batch
rounds its quotient. -/
structure SameBar (s : StreamBar) (b : Bar) : Prop where
  key : s.key = b.key
  barEnd : s.barEnd = b.barEnd
  openPrice : b.openPrice = some s.openPrice
  high : b.high = some s.high
  low : b.low = some s.low
  closePrice : b.closePrice = some s.closePrice
  volume : b.volume = s.volume
  tradeCount : b.tradeCount = s.tradeCount
  firstTradeId : b.firstTradeId = some s.firstTradeId
  lastTradeId : b.lastTradeId = some s.lastTradeId
  vwap : b.vwap = s.vwap.map (roundAway 9)
  noVwap : b.vwap = none ↔ b.volume = 0

section Agree

variable {E : Engine} {w : String × Int} {trades : List FctTrade}
  {pane : Pane ℚ}

/-- The ends of the ordered elements are the trades that the two row
numbers select. -/
theorem ends_of_ordered {ordered : List (Element ℚ)}
    (hids : (trades.map FctTrade.tradeId).Nodup)
    (hperm : ordered.Perm (trades.map FctTrade.element))
    (hsorted : ordered.Pairwise fun a b => a.tradeId ≤ b.tradeId) :
    ordered.head? = (E.first FctTrade.tradeId trades).map FctTrade.element
      ∧ ordered.getLast?
        = (E.last FctTrade.tradeId trades).map FctTrade.element := by
  have hsame : ∀ t ∈ trades, ∀ u ∈ trades, t.tradeId = u.tradeId →
      t.element = u.element := fun t ht u hu hid =>
    congrArg FctTrade.element (List.inj_on_of_nodup_map hids ht hu hid)
  have hinj : ∀ x ∈ ordered, ∀ y ∈ ordered, x.tradeId = y.tradeId →
      x = y := by
    intro x hx y hy hid
    obtain ⟨t, ht, rfl⟩ := List.mem_map.mp (hperm.mem_iff.mp hx)
    obtain ⟨u, hu, rfl⟩ := List.mem_map.mp (hperm.mem_iff.mp hy)
    exact hsame t ht u hu hid
  constructor
  · have hmap : E.first Element.tradeId (trades.map FctTrade.element)
        = (E.first FctTrade.tradeId trades).map FctTrade.element :=
      first_map hsame
    rw [head?_of_pairwise (E := E) hsorted hinj, first_congr hperm hinj, hmap]
  · have hmap : E.last Element.tradeId (trades.map FctTrade.element)
        = (E.last FctTrade.tradeId trades).map FctTrade.element :=
      last_map hsame
    rw [getLast?_of_pairwise (E := E) hsorted hinj, last_congr hperm hinj,
      hmap]

/-- The quotient of the warehouse is the exact one, rounded. -/
theorem safeDivide_eq (a b : ℚ) :
    safeDivide a b = (if exactly.isZero b then none
      else some (exactly.div a b)).map (roundAway 9) := by
  by_cases hb : b = 0
  · simp [safeDivide, exactly, hb]
  · simp [safeDivide, exactly, hb, divNumeric]

theorem safeDivide_eq_none_iff {a b : ℚ} :
    safeDivide a b = none ↔ b = 0 := by
  unfold safeDivide
  split
  · next hb => exact iff_of_true rfl hb
  · next hb => exact iff_of_false (Option.some_ne_none _) hb

/-- The bar of a minute's trades and the bar of a pane that holds them.
The job's ordered elements are a permutation of the rows, and their two
ends are the rows that the warehouse numbers first. -/
theorem sameBar_of_perm (hne : trades ≠ [])
    (hids : (trades.map FctTrade.tradeId).Nodup)
    (hexact : ∀ t ∈ trades, t.notional = t.price * t.size)
    (hpane : pane.window = w)
    (harrived : pane.trades.Perm (trades.map FctTrade.element)) :
    ∃ s, BuildBar.process exactly pane = some s
      ∧ SameBar s (barOf E w trades) := by
  have hperm : (pane.trades.insertionSort fun a b =>
      a.tradeId ≤ b.tradeId).Perm (trades.map FctTrade.element) :=
    (List.perm_insertionSort _ _).trans harrived
  have hsorted := List.pairwise_insertionSort
    (fun a b : Element ℚ => a.tradeId ≤ b.tradeId) pane.trades
  unfold BuildBar.process
  generalize (pane.trades.insertionSort fun a b => a.tradeId ≤ b.tradeId)
    = ordered at hperm hsorted ⊢
  obtain ⟨a, ha⟩ := exists_first E FctTrade.tradeId hne
  obtain ⟨z, hz⟩ := exists_last E FctTrade.tradeId hne
  obtain ⟨hhead, hlast⟩ := ends_of_ordered (E := E) hids hperm hsorted
  rw [ha, Option.map_some] at hhead
  rw [hz, Option.map_some] at hlast
  have hmap : ∀ {τ : Type} (f : Element ℚ → τ), (ordered.map f).Perm
      (trades.map fun t => f t.element) := by
    intro τ f
    have h := hperm.map f
    rwa [List.map_map] at h
  have hlen : ordered.length = trades.length := by
    rw [hperm.length_eq, List.length_map]
  have hmem : a.price ∈ trades.map FctTrade.price :=
    List.mem_map_of_mem (mem_of_first ha)
  obtain ⟨high, hhigh⟩ := exists_maxOf hmem
  obtain ⟨low, hlow⟩ := exists_minOf hmem
  have hhigh' : exactly.max (ordered.map Element.price) = high := by
    have hmax := maxOf_congr fun x => (hmap Element.price).mem_iff (a := x)
    show (maxOf (ordered.map Element.price)).getD 0 = high
    rw [hmax]
    exact congrArg (fun o => Option.getD o 0) hhigh
  have hlow' : exactly.min (ordered.map Element.price) = low := by
    have hmin := minOf_congr fun x => (hmap Element.price).mem_iff (a := x)
    show (minOf (ordered.map Element.price)).getD 0 = low
    rw [hmin]
    exact congrArg (fun o => Option.getD o 0) hlow
  have hvolume : exactly.sum (ordered.map Element.size)
      = (trades.map FctTrade.size).sum := (hmap Element.size).sum_eq
  have hnotional : exactly.sum (ordered.map fun t =>
      exactly.mul t.price t.size) = (trades.map FctTrade.notional).sum := by
    rw [List.map_congr_left hexact]
    exact (hmap fun t => t.price * t.size).sum_eq
  dsimp only
  rw [hhead, hlast, hhigh', hlow', hvolume, hnotional]
  refine ⟨_, rfl, ?_⟩
  exact {
    key := hpane
    barEnd := congrArg (fun k => k.2 + minute) hpane
    openPrice := congrArg (Option.map FctTrade.price) ha
    high := hhigh
    low := hlow
    closePrice := congrArg (Option.map FctTrade.price) hz
    volume := rfl
    tradeCount := hlen.symm
    firstTradeId := minOf_map.trans
      (congrArg (Option.map FctTrade.tradeId) ha)
    lastTradeId := maxOf_map.trans
      (congrArg (Option.map FctTrade.tradeId) hz)
    vwap := safeDivide_eq _ _
    noVwap := safeDivide_eq_none_iff }

/-- A pane holds the trades that `fct_trades` has of its window: some
trades, no two with one id, in whatever order they arrived. -/
structure Arrived (rows : List FctTrade) (pane : Pane ℚ) : Prop where
  nonempty : group FctTrade.barKey rows pane.window ≠ []
  distinct : ((group FctTrade.barKey rows pane.window).map
    FctTrade.tradeId).Nodup
  notional : ∀ t ∈ group FctTrade.barKey rows pane.window,
    t.notional = t.price * t.size
  arrived : pane.trades.Perm
    ((group FctTrade.barKey rows pane.window).map FctTrade.element)

/-- `fct_bars_1m` has one row of a window with trades. -/
theorem group_fctBars1m {rows : List FctTrade}
    (h : group FctTrade.barKey rows w ≠ []) :
    group Bar.key (fctBars1m E rows) w
      = [barOf E w (group FctTrade.barKey rows w)] :=
  group_eq_singleton nodup_fctBars1m
    (mem_groupBy.mpr ⟨w, group_ne_nil_iff.mp h, rfl⟩)

end Agree

/-- Streaming and batch compute the same bar of a window's trades, and a
trade has the same window on both sides: its product, and the minute of
`fct_trades`. -/
theorem stream_and_batch_agree (E : Engine) (rows : List FctTrade) :
    (∀ pane, Arrived rows pane → ∃ s b,
        BuildBar.process exactly pane = some s
          ∧ group Bar.key (fctBars1m E rows) pane.window = [b]
          ∧ SameBar s b)
      ∧ ∀ m r st, RawTrade.Holds r m → derived r = some st →
        (∀ (F : Type) (fl : Floats F),
          windowOf fl m = some (FctTrade.ofStaged st).barKey)
        ∧ (StagedExactly r st → ParseTrade.process exactly m
            = .ok (FctTrade.ofStaged st).element) := by
  constructor
  · intro pane h
    obtain ⟨s, hs, hsame⟩ :=
      sameBar_of_perm (E := E) h.nonempty h.distinct h.notional rfl h.arrived
    exact ⟨s, _, hs, group_fctBars1m h.nonempty, hsame⟩
  · intro m r st hm hst
    refine ⟨fun F fl => ?_, fun hexact => parseTrade_of_stagedExactly hexact hm⟩
    have hproduct : m.productId = st.productId := by
      simp only [derived, Option.bind_eq_bind, Option.bind_eq_some_iff,
        Option.pure_def, Option.some.injEq] at hst
      obtain ⟨_, -, _, -, _, -, _, -, _, -, rfl⟩ := hst
      exact congrArg RawTrade.productId hm.symm
    rw [windowOf_of_derived hst (congrArg RawTrade.price hm.symm)
      (congrArg RawTrade.size hm.symm) (congrArg RawTrade.eventTime hm.symm),
      hproduct]
    rfl

/-- Three trades of a minute, two of them at one second. -/
def minuteTrades : List FctTrade :=
  [btcFct 10 61 100 2, btcFct 11 61 (201 / 2) 1, btcFct 12 62 99 (1 / 10)]

/-- The last of them arrived first, and the first last. -/
def shuffledPane : Pane ℚ where
  window := ("BTC-USD", minute)
  index := 0
  isLast := true
  trades := minuteTrades.reverse.map FctTrade.element
  writtenAt := 0

/-- The message of the first of them. -/
def minuteMessage : Trade where
  sequence := 10
  productId := "BTC-USD"
  tradeId := 10
  price := "100"
  size := "2"
  side := "sell"
  makerOrderId := ""
  takerOrderId := ""
  eventTime := .other "1970-01-01T00:01:01Z"
  ingestTime := .other "1970-01-01T00:01:01Z"

theorem stream_and_batch_agree_shuffled :
    (∃ s b, BuildBar.process exactly shuffledPane = some s
        ∧ group Bar.key (fctBars1m Engine.inOrder minuteTrades)
          shuffledPane.window = [b]
        ∧ SameBar s b)
      ∧ windowOf doubles minuteMessage = some shuffledPane.window
      ∧ (ParseTrade.process exactly minuteMessage).toOption.map
          (fun e => (e.tradeId, e.price, e.size)) = some (10, 100, 2) := by
  have hagree := stream_and_batch_agree Engine.inOrder minuteTrades
  obtain ⟨st, hst⟩ : ∃ st, derived (RawTrade.ofMessage minuteMessage none)
      = some st := Option.isSome_iff_exists.mp (by decide +kernel)
  have hexact : ∀ st ∈ derived (RawTrade.ofMessage minuteMessage none),
      (parse "100".toList = some st.price ∧ parse "2".toList = some st.size
        ∧ st.notional = st.price * st.size)
      ∧ (FctTrade.ofStaged st).barKey = shuffledPane.window
      ∧ (st.tradeId, st.price, st.size) = (10, 100, 2) := by
    decide +kernel
  obtain ⟨⟨hprice, hsize, hnotional⟩, hkey, hcolumns⟩ := hexact st hst
  have hmessage := hagree.2 minuteMessage
    (RawTrade.ofMessage minuteMessage none) st rfl hst
  have hgroup : group FctTrade.barKey minuteTrades shuffledPane.window
      = minuteTrades := by decide +kernel
  refine ⟨hagree.1 _ {
    nonempty := by
      rw [hgroup]
      exact List.cons_ne_nil _ _
    distinct := by
      rw [hgroup]
      decide
    notional := by
      rw [hgroup]
      decide +kernel
    arrived := by
      rw [hgroup]
      exact (List.reverse_perm minuteTrades).map _ },
    (hmessage.1 _ doubles).trans (congrArg some hkey), ?_⟩
  rw [hmessage.2 ⟨hst, hprice, hsize, hnotional⟩]
  exact congrArg some hcolumns

end MarketPlatform.Warehouse
