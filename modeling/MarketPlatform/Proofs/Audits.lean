/-
The two audits of lost trades: `assert_trade_ids_contiguous` by day, and
`fct_data_quality` by hour.

# What an audit misses

Both compare a span of ids with the ids received in it, so each misses
the ids between two of its parts: the hours those over the hour, the
days those over midnight. What one level counts is never more than what
the next one counts, and exactly as much when no missing id lies between
its parts (`audits_nest`). Each level is an instance of the general fact
about the holes of successive parts; that the days follow one another in
their ids is what the rows' order by hour gives (`successive_days`), and
the table of a day's trades is the day's part of the table
(`fctDataQuality_day`), so that the statement about hours can be used
for each day.

# The threshold

The test divides in `FLOAT64`s. For ids of up to 48 bits that makes no
difference: it passes exactly when of every ten thousand ids of a day at
most one is missing (`contiguous_iff`). The quotient of two such counts
and the threshold are either equal or further apart than the rounding
can bridge (`lt_divInt64_iff`), and a comparison of values that far
apart is decided before it.
-/
import MarketPlatform.Proofs.Completeness
import MarketPlatform.Warehouse.Tests

namespace MarketPlatform.Warehouse

open Lib Lib.Rfc3339 Lib.Relation Lib.Numeral Lib.Gaps

-- ========================================================== the threshold

/-- Counts of at most 48 bits are divided as they are. -/
theorem divInt64_eq {a b : Int} (ha : 0 ≤ a) (hb : 0 < b) (hab : a ≤ b)
    (hbound : b ≤ 2 ^ 48) : divInt64 a b = float64 ((a : ℚ) / b) := by
  rw [divInt64, float64_intCast ha (by omega),
    float64_intCast hb.le (by omega)]

/-- A quotient of integers of 48 bits is told apart from the threshold:
the two differ by a fraction with denominator ten thousand times the
divisor, or not at all. -/
theorem lt_divInt64_iff {m s : Int} (hm : 0 ≤ m) (hs : 0 < s) (hms : m ≤ s)
    (hbound : s ≤ 2 ^ 48) :
    float64 (1 / 10000) < divInt64 m s ↔ s < 10000 * m := by
  rcases hm.eq_or_lt with rfl | hm
  · have hzero : divInt64 0 s = 0 := by simp [divInt64, float64]
    have hpos : 0 < float64 (1 / 10000) := float64_pos (by norm_num)
    rw [hzero]
    exact iff_of_false (not_lt.mpr hpos.le) (by omega)
  have hs' : (0 : ℚ) < s := by exact_mod_cast hs
  have hm' : (0 : ℚ) < m := by exact_mod_cast hm
  have hover : (1 / 10000 : ℚ) < m / s ↔ s < 10000 * m := by
    rw [div_lt_div_iff₀ (by norm_num) hs', one_mul, mul_comm (m : ℚ)]
    exact_mod_cast Iff.rfl
  rw [divInt64_eq hm.le hs hms hbound, ← hover]
  refine float64_lt_iff (by norm_num) (div_pos hm' hs') fun h => ?_
  -- the quotient is above the threshold by the 2^-48th part of it
  have hstep : (s + 1 : ℚ) ≤ 10000 * m := by exact_mod_cast hover.mp h
  have hsmall : (s : ℚ) ≤ 2 ^ 48 := by exact_mod_cast hbound
  have hq : (1 / 10000 + 1 / (10000 * 2 ^ 48) : ℚ) ≤ m / s := by
    rw [le_div_iff₀ hs']
    linarith
  rw [add_div]
  linarith

-- ================================================================ a day

/-- The received ids of a product and day. -/
def dayIds (trades : List FctTrade) (k : String × Int) : Finset Int :=
  ((group FctTrade.dayKey trades k).map FctTrade.tradeId).toFinset

/-- The ids of some rows, in the span that `idSpan` gives. -/
theorem exists_idSpan {rows : List FctTrade} (hne : rows ≠ []) :
    ∃ first ∈ (rows.map FctTrade.tradeId).toFinset,
      ∃ last ∈ (rows.map FctTrade.tradeId).toFinset,
        idSpan rows = some (last - first + 1)
          ∧ ((holes (rows.map FctTrade.tradeId).toFinset).card : Int)
            = last - first + 1
              - (rows.map FctTrade.tradeId).toFinset.card := by
  obtain ⟨t, ht⟩ := List.exists_mem_of_ne_nil _ hne
  have hmem : t.tradeId ∈ rows.map FctTrade.tradeId :=
    List.mem_map_of_mem ht
  obtain ⟨first, hfirst⟩ := exists_minOf hmem
  obtain ⟨last, hlast⟩ := exists_maxOf hmem
  obtain ⟨hfmem, hmin⟩ := minOf_eq_some_iff.mp hfirst
  obtain ⟨hlmem, hmax⟩ := maxOf_eq_some_iff.mp hlast
  refine ⟨first, List.mem_toFinset.mpr hfmem, last,
    List.mem_toFinset.mpr hlmem, ?_, ?_⟩
  · unfold idSpan
    rw [hfirst, hlast]
    rfl
  · exact card_holes (List.mem_toFinset.mpr hfmem)
      (List.mem_toFinset.mpr hlmem)
      (fun a ha => hmin a (List.mem_toFinset.mp ha))
      fun a ha => hmax a (List.mem_toFinset.mp ha)

/-- The share of a day is over the threshold when more than one id in
ten thousand is missing. The span of a day's ids is the ids seen and the
holes together, and up to 48 bits the rounded quotient compares as the
exact one. -/
theorem missingShare_iff {k : String × Int} {rows : List FctTrade}
    (hne : rows ≠ [])
    (hids : ∀ t ∈ rows, 0 < t.tradeId ∧ t.tradeId ≤ 2 ^ 48) :
    ((ProductDay.mk k.1 k.2 (rows.map FctTrade.tradeId).dedup.length
        (idSpan rows)).missingShare.any fun share =>
          float64 (1 / 10000) < share) = true
      ↔ (holes (rows.map FctTrade.tradeId).toFinset).card
          + (rows.map FctTrade.tradeId).toFinset.card
        < 10000 * (holes (rows.map FctTrade.tradeId).toFinset).card := by
  obtain ⟨first, hfirst, last, hlast, hspan, hcard⟩ := exists_idSpan hne
  have hbounds : ∀ i ∈ (rows.map FctTrade.tradeId).toFinset,
      0 < i ∧ i ≤ 2 ^ 48 := by
    intro i hi
    obtain ⟨t, ht, rfl⟩ := List.mem_map.mp (List.mem_toFinset.mp hi)
    exact hids t ht
  have hseen : (rows.map FctTrade.tradeId).dedup.length
      = (rows.map FctTrade.tradeId).toFinset.card :=
    (List.card_toFinset _).symm
  have hpos : 0 < (rows.map FctTrade.tradeId).toFinset.card :=
    Finset.card_pos.mpr ⟨first, hfirst⟩
  have hf := hbounds first hfirst
  have hl := hbounds last hlast
  unfold ProductDay.missingShare
  dsimp only
  rw [hspan, hseen]
  generalize (rows.map FctTrade.tradeId).toFinset.card = n at hcard hpos ⊢
  generalize (holes (rows.map FctTrade.tradeId).toFinset).card = m
    at hcard ⊢
  have hmissing : last - first + 1 - (n : Int) = m := hcard.symm
  have hspan' : last - first + 1 = (m + n : Int) := by omega
  show ((safeDivideInt64 (last - first + 1 - n) (last - first + 1)).any
    fun share => float64 (1 / 10000) < share) = true ↔ _
  rw [hmissing, hspan', safeDivideInt64, if_neg (by omega), Option.any_some,
    decide_eq_true_eq, lt_divInt64_iff (by omega) (by omega) (by omega)
      (by omega)]
  omega

/-- The product and date of a row of the test. -/
def ProductDay.key (r : ProductDay) : String × Int :=
  (r.productId, r.eventDate)

/-- The test selects the whole days of the lookback on which more than
one id in ten thousand is missing. Its filter keeps or drops a day as a
whole, so that the trades of a kept day are all of the day's trades. -/
theorem selected_iff (vars : Vars) (now : Int) (trades : List FctTrade)
    (hids : ∀ t ∈ trades, 0 < t.tradeId ∧ t.tradeId ≤ 2 ^ 48)
    (k : String × Int) :
    (∃ r ∈ assertTradeIdsContiguous vars now trades, r.key = k)
      ↔ k.2 < dateOf now ∧ inLookback vars now k.2 = true
        ∧ (holes (dayIds trades k)).card + (dayIds trades k).card
          < 10000 * (holes (dayIds trades k)).card := by
  unfold assertTradeIdsContiguous byProductDay
  have hrows : ∀ k : String × Int, k.2 < dateOf now →
      inLookback vars now k.2 = true →
      group (fun t => (t.productId, t.eventDate)) (trades.filter fun t =>
        t.eventDate < dateOf now && inLookback vars now t.eventDate) k
        = group FctTrade.dayKey trades k := by
    intro k hday hin
    rw [group_filter, List.filter_eq_self.mpr]
    · rfl
    · intro t ht
      have hdate : t.eventDate = k.2 := congrArg Prod.snd (mem_group.mp ht).2
      rw [hdate, hin, decide_eq_true hday]
      rfl
  constructor
  · intro h
    obtain ⟨r, hr, rfl⟩ := h
    obtain ⟨hr, hshare⟩ := List.mem_filter.mp hr
    obtain ⟨k, hk, rfl⟩ := mem_groupBy.mp hr
    obtain ⟨t, ht, hkey⟩ := mem_groups.mp hk
    obtain ⟨-, hkeep⟩ := List.mem_filter.mp ht
    rw [Bool.and_eq_true, decide_eq_true_eq] at hkeep
    have hdate : t.eventDate = k.2 := congrArg Prod.snd hkey
    rw [hdate] at hkeep
    have hne : group FctTrade.dayKey trades k ≠ [] := by
      rw [← hrows k hkeep.1 hkeep.2]
      exact group_ne_nil_iff.mpr hk
    rw [hrows k hkeep.1 hkeep.2, missingShare_iff hne fun t ht =>
      hids t (mem_group.mp ht).1] at hshare
    exact ⟨hkeep.1, hkeep.2, hshare⟩
  · intro h
    obtain ⟨hday, hin, hshare⟩ := h
    have hne : group FctTrade.dayKey trades k ≠ [] := by
      intro hnil
      rw [dayIds, hnil] at hshare
      exact absurd hshare (by decide)
    refine ⟨_, List.mem_filter.mpr ⟨mem_groupBy.mpr ⟨k, ?_, rfl⟩, ?_⟩, rfl⟩
    · rw [← group_ne_nil_iff, hrows k hday hin]
      exact hne
    · rw [hrows k hday hin, missingShare_iff hne fun t ht =>
        hids t (mem_group.mp ht).1]
      exact hshare

/-- `assert_trade_ids_contiguous` passes exactly when on every whole day
of the lookback at most one id in ten thousand is missing. -/
theorem contiguous_iff (vars : Vars) (now : Int) (trades : List FctTrade)
    (hids : ∀ t ∈ trades, 0 < t.tradeId ∧ t.tradeId ≤ 2 ^ 48) :
    assertTradeIdsContiguous vars now trades = []
      ↔ ∀ k : String × Int, k.2 < dateOf now →
        inLookback vars now k.2 = true →
        10000 * (holes (dayIds trades k)).card
          ≤ (holes (dayIds trades k)).card + (dayIds trades k).card := by
  rw [List.eq_nil_iff_forall_not_mem]
  constructor
  · intro hnone k hday hin
    by_contra hover
    obtain ⟨r, hr, -⟩ := (selected_iff vars now trades hids k).mpr
      ⟨hday, hin, not_le.mp hover⟩
    exact hnone r hr
  · intro hall r hr
    obtain ⟨hday, hin, hover⟩ :=
      (selected_iff vars now trades hids r.key).mp ⟨r, hr, rfl⟩
    exact absurd hover (not_lt.mpr (hall r.key hday hin))

-- =========================================================== the two levels

/-- The date is that of the trade's time. -/
def FctTrade.OnItsDay (t : FctTrade) : Prop := t.eventDate = dateOf t.eventTime

/-- An hour lies within a day. -/
theorem dateOf_hour (t : Int) : dateOf (truncate hour t) = dateOf t := by
  simp only [dateOf, truncate, day, hour, minute, second]
  omega

/-- The days on which trades of a product were received. -/
def days (p : String) (trades : List FctTrade) : Finset Int :=
  ((group FctTrade.productId trades p).map FctTrade.eventDate).toFinset

section Levels

variable {p : String} {trades : List FctTrade} {d : Int}

/-- The ids of a day are those of its trades. -/
theorem mem_dayIds {k : String × Int} {i : Int} :
    i ∈ dayIds trades k
      ↔ ∃ t ∈ trades, t.dayKey = k ∧ t.tradeId = i := by
  simp only [dayIds, List.mem_toFinset, List.mem_map, mem_group, and_assoc]

/-- A day is one with a trade. -/
theorem mem_days : d ∈ days p trades ↔ ∃ t ∈ trades, t.dayKey = (p, d) := by
  simp only [days, List.mem_toFinset, List.mem_map, mem_group,
    FctTrade.dayKey, Prod.mk.injEq, and_assoc]

/-- The received ids of a product are those of its days. -/
theorem receivedIds_eq_days :
    receivedIds p trades
      = (days p trades).biUnion fun d => dayIds trades (p, d) := by
  ext i
  simp only [receivedIds, List.mem_toFinset, List.mem_map, mem_group,
    Finset.mem_biUnion, mem_days, mem_dayIds]
  constructor
  · intro h
    obtain ⟨t, ⟨ht, hp⟩, hi⟩ := h
    have hkey : t.dayKey = (p, t.eventDate) := by
      rw [← hp]
      rfl
    exact ⟨_, ⟨t, ht, hkey⟩, t, ht, hkey, hi⟩
  · intro h
    obtain ⟨d, _, t, ht, hkey, hi⟩ := h
    exact ⟨t, ⟨ht, congrArg Prod.fst hkey⟩, hi⟩

/-- The ids of one day come before those of the next, when those of an
hour come before those of the next. -/
theorem successive_days (hrows : HoursFollow p trades)
    (hday : ∀ t ∈ trades, t.OnItsDay) :
    Successive (days p trades) fun d => dayIds trades (p, d) := by
  intro d _ d' _ hlt i hi j hj
  obtain ⟨a, ha, hka, rfl⟩ := mem_dayIds.mp hi
  obtain ⟨b, hb, hkb, rfl⟩ := mem_dayIds.mp hj
  by_contra hnot
  have hle : dateOf (truncate hour b.eventTime)
      ≤ dateOf (truncate hour a.eventTime) :=
    Int.ediv_le_ediv (by decide) (hrows.mono b hb a ha
      (congrArg Prod.fst hkb) (congrArg Prod.fst hka) (not_lt.mp hnot))
  rw [dateOf_hour, dateOf_hour, ← hday a ha, ← hday b hb] at hle
  have hda : a.eventDate = d := congrArg Prod.snd hka
  have hdb : b.eventDate = d' := congrArg Prod.snd hkb
  omega

/-- The trades of a product and day. -/
def dayTrades (trades : List FctTrade) (k : String × Int) : List FctTrade :=
  group FctTrade.dayKey trades k

/-- The trades of a day are of one product. -/
theorem group_dayTrades :
    group FctTrade.productId (dayTrades trades (p, d)) p
      = dayTrades trades (p, d) := by
  refine List.filter_eq_self.mpr fun t ht => ?_
  exact decide_eq_true (congrArg Prod.fst (mem_group.mp ht).2)

/-- The ids received in a day's trades are the day's. -/
theorem receivedIds_dayTrades :
    receivedIds p (dayTrades trades (p, d)) = dayIds trades (p, d) := by
  rw [receivedIds, group_dayTrades]
  rfl

/-- And so are the missing. -/
theorem missingIds_dayTrades :
    missingIds p (dayTrades trades (p, d)) = holes (dayIds trades (p, d)) := by
  rw [missingIds, receivedIds_dayTrades]

/-- Within a day the hours follow one another as they do overall. -/
theorem HoursFollow.dayTrades (hrows : HoursFollow p trades) :
    HoursFollow p (dayTrades trades (p, d)) where
  nodup := hrows.nodup.sublist (((List.filter_sublist).filter _).map _)
  mono := fun a ha b hb =>
    hrows.mono a (mem_group.mp ha).1 b (mem_group.mp hb).1

-- ============================================================= the table

/-- The product and date of a row. -/
def DataQuality.dayKey (q : DataQuality) : String × Int :=
  (q.productId, q.eventDate)

variable {E : Engine} {approxQuantile : Nat → List Int → Option Int}
  {vars : Vars} {now : Int} {raw : List RawTrade} {out : List DataQuality}

/-- The row of an hour is of the hour's product and date. -/
theorem dayKey_of_qualityOf {counts : List RawCount} {k : String × Int}
    {rows : List FctTrade} {q : DataQuality}
    (hday : ∀ t ∈ rows, t.eventDate = dateOf k.2)
    (h : qualityOf E approxQuantile counts k rows = some q) :
    q.dayKey = (k.1, dateOf k.2) := by
  unfold qualityOf at h
  simp only [Option.bind_eq_bind, Option.bind_eq_some_iff, Option.pure_def,
    Option.some.injEq] at h
  obtain ⟨_, -, _, -, _, -, _, -, t, ht, rfl⟩ := h
  show (k.1, t.eventDate) = _
  rw [hday t (E.mem_of_pick ht)]

/-- The rows of a day are the table of the day's trades. A trade's hour
lies on its day, so restricting the trades to a day restricts the hours
to those of the day and changes none of them. -/
theorem fctDataQuality_day (hday : ∀ t ∈ trades, t.OnItsDay)
    (hquery : fctDataQuality E approxQuantile vars now raw trades
      = some out) (k : String × Int) :
    fctDataQuality E approxQuantile vars now raw (dayTrades trades k)
      = some (group DataQuality.dayKey out k) := by
  obtain ⟨counts, hcounts, rfl⟩ := Option.map_eq_some_iff.mp hquery
  have hon : ∀ t ∈ trades, t.dayKey = (t.hourKey.1, dateOf t.hourKey.2) := by
    intro t ht
    show (t.productId, t.eventDate)
      = (t.productId, dateOf (truncate hour t.eventTime))
    rw [dateOf_hour, hday t ht]
  have hrows : dayTrades trades k = trades.filter fun t =>
      decide ((t.hourKey.1, dateOf t.hourKey.2) = k) :=
    List.filter_congr fun t ht => by rw [hon t ht]
  unfold fctDataQuality
  rw [hcounts, Option.map_some, hrows,
    groupBy_filter fun h : String × Int => decide ((h.1, dateOf h.2) = k)]
  congr 1
  rw [List.filterMap_map, List.filterMap_filter, group,
    List.filter_filterMap, groupBy, List.filterMap_map]
  refine List.filterMap_congr fun h hh => ?_
  have hkey : ∀ q, qualityOf E approxQuantile counts h
      (group FctTrade.hourKey trades h) = some q →
      q.dayKey = (h.1, dateOf h.2) := by
    intro q hq
    refine dayKey_of_qualityOf (fun t ht => ?_) hq
    obtain ⟨ht, hth⟩ := mem_group.mp ht
    rw [← hth]
    exact congrArg Prod.snd (hon t ht)
  simp only [Function.comp_apply, id_eq]
  cases hq : qualityOf E approxQuantile counts h
      (group FctTrade.hourKey trades h) with
  | none => simp
  | some q => simp [Option.filter, hkey q hq]

/-- What each level of the audit counts is part of what the next one
does. -/
structure Nested (p : String) (trades : List FctTrade)
    (out : List DataQuality) : Prop where
  byHour : ∀ d, ((group DataQuality.dayKey out (p, d)).map
    DataQuality.tradesMissing).sum ≤ (holes (dayIds trades (p, d))).card
  byHourExact : ∀ d, ((group DataQuality.dayKey out (p, d)).map
      DataQuality.tradesMissing).sum = (holes (dayIds trades (p, d))).card
    ↔ Enclosed p (dayTrades trades (p, d))
  byDay : (∑ d ∈ days p trades, (holes (dayIds trades (p, d))).card)
    ≤ (missingIds p trades).card
  byDayExact : (∑ d ∈ days p trades, (holes (dayIds trades (p, d))).card)
      = (missingIds p trades).card
    ↔ ∀ i ∈ missingIds p trades, ∃ d ∈ days p trades,
      i ∈ holes (dayIds trades (p, d))

/-- The hours of a day count no more than the day, and the days no more
than the product, with equality exactly when no missing id lies between
two parts. For the hours this is the statement about the table of a
day's trades; for the days it is the general one about successive
parts. -/
theorem audits_nest (hrows : HoursFollow p trades)
    (hday : ∀ t ∈ trades, t.OnItsDay)
    (hquery : fctDataQuality E approxQuantile vars now raw trades
      = some out) : Nested p trades out := by
  have hdays := successive_days hrows hday
  have hsame : ∀ d, group DataQuality.productId
      (group DataQuality.dayKey out (p, d)) p
        = group DataQuality.dayKey out (p, d) := fun d =>
    List.filter_eq_self.mpr fun q hq =>
      decide_eq_true (congrArg Prod.fst (mem_group.mp hq).2)
  have htable := fun d => fctDataQuality_day hday hquery (p, d)
  refine ⟨fun d => ?_, fun d => ?_, ?_, ?_⟩
  · have hsum := sum_missing hrows.dayTrades (htable d)
    rw [hsame] at hsum
    rw [hsum, ← missingIds_dayTrades, missingIds, receivedIds_eq]
    exact_mod_cast sum_card_holes_le (successive_hours hrows.dayTrades)
  · have hexact := counted_iff hrows.dayTrades (htable d)
    rwa [hsame, missingIds_dayTrades] at hexact
  · rw [missingIds, receivedIds_eq_days]
    exact sum_card_holes_le hdays
  · rw [missingIds, receivedIds_eq_days]
    exact sum_card_holes_eq_iff hdays

end Levels

-- ========================================================== two boundaries

/-- Ids are missing over the hour and over midnight. -/
def gappyTape : List FctTrade :=
  [btcFct 1 3599 100 1, btcFct 3 3600 101 1, btcFct 4 86399 101 1,
    btcFct 6 86400 102 1]

/-- The hours count neither, the day counts the first of them. -/
theorem audits_nest_gappy :
    Nested "BTC-USD" gappyTape (qualityTable gappyTape)
      ∧ (qualityTable gappyTape).map DataQuality.tradesMissing
        = [0, 0, 0, 0]
      ∧ (days "BTC-USD" gappyTape).sum
          (fun d => (holes (dayIds gappyTape ("BTC-USD", d))).card) = 1
      ∧ missingIds "BTC-USD" gappyTape = {2, 5} := by
  have hday : ∀ t ∈ gappyTape, t.OnItsDay := by
    unfold FctTrade.OnItsDay
    decide +kernel
  refine ⟨audits_nest (E := Engine.inOrder)
    ⟨by decide +kernel, by decide +kernel⟩ hday
    (rfl : fctDataQuality Engine.inOrder quantileAt {} 0 [] gappyTape
      = some (qualityTable gappyTape)), ?_, ?_, ?_⟩
  · decide +kernel
  · decide +kernel
  · decide +kernel

/-- So the test stops a build over it, once both days are whole. -/
theorem contiguous_iff_gappy :
    assertTradeIdsContiguous {} (2 * day) gappyTape ≠ []
      ∧ ¬ ∀ k : String × Int, k.2 < dateOf (2 * day) →
        inLookback {} (2 * day) k.2 = true →
        10000 * (holes (dayIds gappyTape k)).card
          ≤ (holes (dayIds gappyTape k)).card + (dayIds gappyTape k).card := by
  have hfails : assertTradeIdsContiguous {} (2 * day) gappyTape ≠ [] := by
    decide +kernel
  exact ⟨hfails, fun h => hfails
    ((contiguous_iff {} (2 * day) gappyTape (by decide +kernel)).mpr h)⟩

end MarketPlatform.Warehouse
