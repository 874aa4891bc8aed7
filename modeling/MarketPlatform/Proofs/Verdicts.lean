/-
Two verdicts on one promise of 99.99%: `assert_data_quality_meets_sla`,
which warns by the hour, and `assert_trade_ids_contiguous`, which stops
the build by the day.

# Excess

An hour is short when more than one id in ten thousand is missing from
it. `excess` is by how many ids too many, in ten thousandths: ten
thousand for each missing id, less one for each expected. It is an
integer, and adding it up over hours compares their missing ids with
their expected ones, whatever the sizes of the hours.

# The day

A day's missing ids are those of its hours and those between two of its
hours (`betweenHours`), which no hour can see: an hour's span goes from
its own first id to its own last. So the day is judged by the sum of its
hours' excesses and by the ids missing between them
(`day_selected_iff`). A day that stops the build has a short hour, which
the warning shows, or a gap over the hour (`exists_warned`). The
implication goes this way only: a sum of excesses can be negative with
one of them positive.

# Arithmetic

The verdicts are taken of `FLOAT64`s, the hour's at a threshold near
one. A quotient of two integers is rounded, and so is 0.9999; up to
spans of 38 bits the comparison is the one of the exact numbers
(`divInt64_lt_iff`), since two quotients that differ do so by more than
the rounding. There a longer span could be misjudged, which is why the
results bound the ids.
-/
import MarketPlatform.Proofs.Accounted
import MarketPlatform.Proofs.Audits

namespace MarketPlatform.Warehouse

open Lib Lib.Rfc3339 Lib.Relation Lib.Numeral Lib.Gaps

-- ================================================================ an hour

/-- A share of integers of 38 bits is told apart from the threshold: if
it is not equal to 0.9999, it differs from it by more than the two
roundings together. -/
theorem divInt64_lt_iff {n s : Int} (hn : 0 < n) (hns : n ≤ s)
    (hbound : s ≤ 2 ^ 38) :
    divInt64 n s < float64 (9999 / 10000) ↔ 10000 * n < 9999 * s := by
  have hs : 0 < s := hn.trans_le hns
  have hs' : (0 : ℚ) < s := by exact_mod_cast hs
  have hn' : (0 : ℚ) < n := by exact_mod_cast hn
  have hunder : (n / s : ℚ) < 9999 / 10000 ↔ 10000 * n < 9999 * s := by
    rw [div_lt_div_iff₀ hs' (by norm_num), mul_comm (n : ℚ)]
    exact_mod_cast Iff.rfl
  rw [divInt64_eq hn.le hs hns (by omega), ← hunder]
  refine float64_lt_iff (div_pos hn' hs') (by norm_num) fun h => ?_
  -- the share is below the threshold by the 2^-38th part of it
  have hstep : (10000 * n + 1 : ℚ) ≤ 9999 * s := by
    exact_mod_cast hunder.mp h
  have hsmall : (s : ℚ) ≤ 2 ^ 38 := by exact_mod_cast hbound
  have hq : (n / s : ℚ) ≤ 9999 / 10000 - 1 / (10000 * 2 ^ 38) := by
    rw [div_le_iff₀ hs']
    linarith
  rw [add_div]
  linarith

/-- How many more ids are missing than the promise allows, in ten
thousandths. -/
def DataQuality.excess (q : DataQuality) : Int :=
  10000 * q.tradesMissing - q.tradesExpected

/-- The counts of an hour and its verdict. -/
structure Judged (rows : List FctTrade) (q : DataQuality) : Prop where
  expected : q.tradesExpected = q.tradesMissing + q.tradesReceived
  missing : 0 ≤ q.tradesMissing
  received : 0 < q.tradesReceived
  span : ∃ a ∈ rows, ∃ b ∈ rows,
    q.tradesExpected = b.tradeId - a.tradeId + 1
  verdict : q.meetsCompletenessSla = some (decide
    (float64 (9999 / 10000) ≤ divInt64 q.tradesReceived q.tradesExpected))

section Hour

variable {E : Engine} {approxQuantile : Nat → List Int → Option Int}
  {counts : List RawCount} {k : String × Int} {rows : List FctTrade}
  {q : DataQuality}

/-- The row of an hour is judged by its own ids, all of which are in the
hour. -/
theorem judged_of_qualityOf (hids : (rows.map FctTrade.tradeId).Nodup)
    (h : qualityOf E approxQuantile counts k rows = some q) :
    Judged rows q := by
  unfold qualityOf at h
  simp only [Option.bind_eq_bind, Option.bind_eq_some_iff, Option.pure_def,
    Option.some.injEq] at h
  obtain ⟨first, hfirst, last, hlast, _, -, _, -, _, -, rfl⟩ := h
  obtain ⟨hfmem, hmin⟩ := minOf_eq_some_iff.mp hfirst
  obtain ⟨hlmem, hmax⟩ := maxOf_eq_some_iff.mp hlast
  obtain ⟨a, ha, hfa⟩ := List.mem_map.mp hfmem
  obtain ⟨b, hb, hlb⟩ := List.mem_map.mp hlmem
  -- the ids are distinct, so there are no more of them than in the span
  have hcard := card_holes (List.mem_toFinset.mpr hfmem)
    (List.mem_toFinset.mpr hlmem)
    (fun i hi => hmin i (List.mem_toFinset.mp hi))
    fun i hi => hmax i (List.mem_toFinset.mp hi)
  rw [List.toFinset_card_of_nodup hids, List.length_map] at hcard
  have hle : first ≤ last := hmin last hlmem
  have hspan : last - first + 1 ≠ 0 := by omega
  constructor
  · dsimp only
    omega
  · exact le_max_right _ _
  · exact List.length_pos_of_mem ha
  · refine ⟨a, ha, b, hb, ?_⟩
    rw [hfa, hlb]
  · dsimp only
    rw [safeDivideInt64, if_neg hspan]
    rfl

/-- The verdict of an hour is that too many of its ids are missing. -/
theorem Judged.short_iff (h : Judged rows q)
    (hids : ∀ t ∈ rows, 0 < t.tradeId ∧ t.tradeId ≤ 2 ^ 38) :
    q.meetsCompletenessSla = some false ↔ 0 < q.excess := by
  obtain ⟨a, ha, b, hb, hspan⟩ := h.span
  have hlow := (hids a ha).1
  have hhigh := (hids b hb).2
  have hexpected := h.expected
  have hmissing := h.missing
  rw [h.verdict, Option.some.injEq, decide_eq_false_iff_not, not_le,
    divInt64_lt_iff (by exact_mod_cast h.received) (by omega) (by omega),
    DataQuality.excess]
  omega

end Hour

-- =============================================================== the table

section Table

variable {E : Engine} {approxQuantile : Nat → List Int → Option Int}
  {vars : Vars} {now : Int} {raw : List RawTrade} {p : String}
  {trades : List FctTrade} {out : List DataQuality}

theorem judged_of_mem (hrows : HoursFollow p trades)
    (hquery : fctDataQuality E approxQuantile vars now raw trades
      = some out) {q : DataQuality} (hq : q ∈ out) (hp : q.productId = p) :
    Judged (group FctTrade.hourKey trades q.key) q := by
  obtain ⟨counts, rfl⟩ := fctDataQuality_eq hquery
  obtain ⟨k, hk, hqk⟩ := List.mem_filterMap.mp hq
  obtain ⟨rfl, -⟩ := of_qualityOf hqk
  refine judged_of_qualityOf ?_ hqk
  have hkey : q.key = (p, q.eventHour) := by
    rw [← hp]
    rfl
  rw [hkey]
  exact hrows.nodup_hour

/-- The hours' trades are the table's. -/
theorem sum_received
    (hquery : fctDataQuality E approxQuantile vars now raw trades
      = some out) :
    (out.map DataQuality.tradesReceived).sum = trades.length := by
  obtain ⟨counts, rfl⟩ := fctDataQuality_eq hquery
  have hrow : ∀ k ∈ groups FctTrade.hourKey trades,
      (qualityOf E approxQuantile counts k
        (group FctTrade.hourKey trades k)).map DataQuality.tradesReceived
      = some (group FctTrade.hourKey trades k).length := by
    intro k hk
    obtain ⟨q, hq, -⟩ : ∃ q, qualityOf E approxQuantile counts k
        (group FctTrade.hourKey trades k) = some q ∧ _ :=
      exists_qualityOf (group_ne_nil_iff.mpr hk)
    rw [hq, Option.map_some, (of_qualityOf hq).2.1]
  have hall : ∀ t ∈ trades, (true = true ↔ t.hourKey
      ∈ groups FctTrade.hourKey trades) := fun t ht =>
    iff_of_true rfl (mem_groups.mpr ⟨t, ht, rfl⟩)
  rw [List.map_filterMap, List.filterMap_congr hrow,
    List.filterMap_eq_map', sum_length_group nodup_groups hall,
    List.filter_true]

/-- What a table's excesses add up to. -/
theorem sum_excess (hrows : HoursFollow p trades)
    (hproduct : ∀ q ∈ out, q.productId = p)
    (hquery : fctDataQuality E approxQuantile vars now raw trades
      = some out) :
    (out.map DataQuality.excess).sum
      = 9999 * (out.map DataQuality.tradesMissing).sum - trades.length := by
  have hrow : ∀ q ∈ out, q.excess + q.tradesReceived
      = 9999 * q.tradesMissing := by
    intro q hq
    have hexpected :=
      (judged_of_mem hrows hquery hq (hproduct q hq)).expected
    rw [DataQuality.excess]
    omega
  have hreceived : (out.map fun q => (q.tradesReceived : Int)).sum
      = trades.length := by
    rw [← sum_received hquery, Nat.cast_list_sum, List.map_map]
    rfl
  have hsum := congrArg List.sum (List.map_congr_left hrow)
  rw [List.sum_map_add, List.sum_map_mul_left, hreceived] at hsum
  omega

-- ================================================================= a day

/-- The ids of a product and day that are missing between two of its
hours. -/
def betweenHours (trades : List FctTrade) (k : String × Int) : Finset Int :=
  (holes (dayIds trades k)).filter fun i =>
    ∀ h ∈ hours k.1 (dayTrades trades k),
      i ∉ holes (hourIds (dayTrades trades k) (k.1, h))

/-- What the verdicts of the hours say of the day's. -/
structure Verdicts (p : String) (vars : Vars) (now : Int)
    (trades : List FctTrade) (out : List DataQuality) : Prop where
  byHour : ∀ q ∈ out, q.productId = p →
    (q.meetsCompletenessSla = some false ↔ 0 < q.excess)
  byDay : ∀ d, d < dateOf now → inLookback vars now d = true →
    ((∃ r ∈ assertTradeIdsContiguous vars now trades, r.key = (p, d))
      ↔ 0 < ((group DataQuality.dayKey out (p, d)).map
          DataQuality.excess).sum
        + 9999 * ((betweenHours trades (p, d)).card : Int))
  warned : ∀ r ∈ assertTradeIdsContiguous vars now trades,
    r.productId = p →
    (∃ q ∈ assertDataQualityMeetsSla now out, q.dayKey = r.key
        ∧ 0 < q.excess)
      ∨ (betweenHours trades r.key).Nonempty

section Day

variable {d : Int}

/-- A day's missing ids are those of its hours and those between. -/
theorem sum_excess_day (hrows : HoursFollow p trades)
    (hday : ∀ t ∈ trades, t.OnItsDay)
    (hquery : fctDataQuality E approxQuantile vars now raw trades
      = some out) :
    ((group DataQuality.dayKey out (p, d)).map DataQuality.excess).sum
        + 9999 * ((betweenHours trades (p, d)).card : Int)
      = 9999 * ((holes (dayIds trades (p, d))).card : Int)
        - (dayIds trades (p, d)).card := by
  have htable := fctDataQuality_day hday hquery (p, d)
  have hproduct : ∀ q ∈ group DataQuality.dayKey out (p, d),
      q.productId = p := fun q hq =>
    congrArg Prod.fst (mem_group.mp hq).2
  have hsame : group DataQuality.productId
      (group DataQuality.dayKey out (p, d)) p
        = group DataQuality.dayKey out (p, d) :=
    List.filter_eq_self.mpr fun q hq => decide_eq_true (hproduct q hq)
  have hmissing := sum_missing hrows.dayTrades htable
  rw [hsame] at hmissing
  have hholes := sum_card_holes_add (successive_hours
    (hrows.dayTrades (d := d)))
  rw [← receivedIds_eq, receivedIds_dayTrades] at hholes
  have hcount : (dayIds trades (p, d)).card
      = (dayTrades trades (p, d)).length := by
    have hnodup := (hrows.dayTrades (d := d)).nodup
    rw [group_dayTrades] at hnodup
    rw [← receivedIds_dayTrades, receivedIds, group_dayTrades,
      List.toFinset_card_of_nodup hnodup, List.length_map]
  have hexcess := sum_excess hrows.dayTrades hproduct htable
  rw [hmissing] at hexcess
  rw [hexcess, hcount, ← hholes]
  show _ + 9999 * ((betweenHours trades (p, d)).card : Int) = _
  push_cast
  rw [betweenHours]
  ring

/-- The hours of a day before today are over. -/
theorem hour_is_over {q : DataQuality} (hday : ∀ t ∈ trades, t.OnItsDay)
    (hquery : fctDataQuality E approxQuantile vars now raw trades
      = some out) (hq : q ∈ out) (hlt : q.eventDate < dateOf now) :
    q.eventHour < truncate hour now := by
  obtain ⟨counts, rfl⟩ := fctDataQuality_eq hquery
  obtain ⟨k, hk, hqk⟩ := List.mem_filterMap.mp hq
  obtain ⟨rfl, -⟩ := of_qualityOf hqk
  have hdate : q.dayKey = (q.key.1, dateOf q.key.2) := by
    refine dayKey_of_qualityOf (fun t ht => ?_) hqk
    obtain ⟨ht, hkey⟩ := mem_group.mp ht
    rw [hday t ht, ← hkey]
    exact (dateOf_hour t.eventTime).symm
  have hhour : q.eventDate = dateOf q.eventHour := congrArg Prod.snd hdate
  by_contra hle
  have hdates : dateOf (truncate hour now) ≤ dateOf q.eventHour :=
    Int.ediv_le_ediv (by decide) (not_lt.mp hle)
  rw [dateOf_hour] at hdates
  omega

/-- The test selects a day when its hours' excesses and the ids missing
between them leave something over. -/
theorem day_selected_iff (hrows : HoursFollow p trades)
    (hday : ∀ t ∈ trades, t.OnItsDay)
    (hids : ∀ t ∈ trades, 0 < t.tradeId ∧ t.tradeId ≤ 2 ^ 38)
    (hquery : fctDataQuality E approxQuantile vars now raw trades
      = some out) :
    (∃ r ∈ assertTradeIdsContiguous vars now trades, r.key = (p, d))
      ↔ d < dateOf now ∧ inLookback vars now d = true
        ∧ 0 < ((group DataQuality.dayKey out (p, d)).map
            DataQuality.excess).sum
          + 9999 * ((betweenHours trades (p, d)).card : Int) := by
  rw [selected_iff vars now trades (fun t ht =>
    ⟨(hids t ht).1, (hids t ht).2.trans (by norm_num)⟩),
    sum_excess_day hrows hday hquery]
  refine and_congr_right fun _ => and_congr_right fun _ => ?_
  omega

/-- Where the excesses of a past day add up to something, the warning
shows one of its hours. -/
theorem exists_warned (hday : ∀ t ∈ trades, t.OnItsDay)
    (hquery : fctDataQuality E approxQuantile vars now raw trades
      = some out)
    (hshort : ∀ q ∈ out, q.productId = p →
      (q.meetsCompletenessSla = some false ↔ 0 < q.excess))
    (hlt : d < dateOf now)
    (hsum : 0 < ((group DataQuality.dayKey out (p, d)).map
      DataQuality.excess).sum) :
    ∃ q ∈ assertDataQualityMeetsSla now out,
      q.dayKey = (p, d) ∧ 0 < q.excess := by
  by_contra hnone
  have hall : ∀ x ∈ (group DataQuality.dayKey out (p, d)).map
      DataQuality.excess, x ≤ 0 := by
    intro x hx
    obtain ⟨q, hq, rfl⟩ := List.mem_map.mp hx
    obtain ⟨hq, hqd⟩ := mem_group.mp hq
    by_contra hpos
    have hfalse := (hshort q hq (congrArg Prod.fst hqd)).mpr
      (not_le.mp hpos)
    have hover : q.eventHour < truncate hour now := by
      refine hour_is_over hday hquery hq ?_
      have hdate : q.eventDate = d := congrArg Prod.snd hqd
      rw [hdate]
      exact hlt
    refine hnone ⟨q, List.mem_filter.mpr ⟨hq, ?_⟩, hqd, not_le.mp hpos⟩
    simp [hover, hfalse]
  have hle := List.sum_le_card_nsmul _ 0 hall
  rw [nsmul_zero] at hle
  omega

/-- The day's verdict is on the sum of the excesses of its hours and the
ids missing between them; where it stops the build, an hour has been
warned of or ids are missing over the hour.

A sum over the hours that is positive has a positive term, and a day
before today has only hours that are over. -/
theorem verdicts (hrows : HoursFollow p trades)
    (hday : ∀ t ∈ trades, t.OnItsDay)
    (hids : ∀ t ∈ trades, 0 < t.tradeId ∧ t.tradeId ≤ 2 ^ 38)
    (hquery : fctDataQuality E approxQuantile vars now raw trades
      = some out) : Verdicts p vars now trades out := by
  have hshort : ∀ q ∈ out, q.productId = p →
      (q.meetsCompletenessSla = some false ↔ 0 < q.excess) :=
    fun q hq hp => (judged_of_mem hrows hquery hq hp).short_iff
      fun t ht => hids t (mem_group.mp ht).1
  have hselected := fun d => day_selected_iff (d := d) hrows hday hids hquery
  refine ⟨hshort, fun d hlt hin => ?_, fun r hr hp => ?_⟩
  · rw [hselected, and_iff_right hlt, and_iff_right hin]
  · have hkey : r.key = (p, r.eventDate) := by
      rw [← hp]
      rfl
    obtain ⟨hlt, -, hover⟩ := (hselected r.eventDate).mp ⟨r, hr, hkey⟩
    rw [hkey]
    by_cases hbetween : (betweenHours trades (p, r.eventDate)).Nonempty
    · exact Or.inr hbetween
    · rw [Finset.not_nonempty_iff_eq_empty] at hbetween
      rw [hbetween, Finset.card_empty] at hover
      exact Or.inl (exists_warned hday hquery hshort hlt (by omega))

end Day

end Table

/-- The id missing over the hour stops the build, and no hour is short. -/
theorem verdicts_gappy :
    Verdicts "BTC-USD" {} (2 * day) gappyTape (qualityTable gappyTape)
      ∧ assertTradeIdsContiguous {} (2 * day) gappyTape ≠ []
      ∧ assertDataQualityMeetsSla (2 * day) (qualityTable gappyTape) = []
      ∧ betweenHours gappyTape ("BTC-USD", 0) = {2} := by
  have hday : ∀ t ∈ gappyTape, t.OnItsDay := by
    unfold FctTrade.OnItsDay
    decide +kernel
  refine ⟨verdicts (E := Engine.inOrder)
    ⟨by decide +kernel, by decide +kernel⟩ hday (by decide +kernel)
    (rfl : fctDataQuality Engine.inOrder quantileAt {} (2 * day) []
      gappyTape = some (qualityTable gappyTape)), ?_, ?_, ?_⟩
  · decide +kernel
  · decide +kernel
  · decide +kernel

end MarketPlatform.Warehouse
