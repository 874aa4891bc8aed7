/-
Recovered trades and the latency measures.

The lag of a backfilled trade is the length of an outage and says
nothing of the path from the exchange to the table. `fct_data_quality`
and `assert_ingest_lag_within_sla` leave such rows out. `fct_bars_1m`
does not: its `avg_ingest_lag_ms` takes every row of the minute.

# What the live rows decide

A table is split into the rows received live (`receivedLive`) and the
recovered ones. `relag` gives the recovered rows any other lags, which
is how the results say that a figure does not depend on them. The three
percentiles and the verdict of an hour are a function of the lags of its
live rows (`latencyOf`), so whatever is recovered these figures are
those of the live rows (`quality_of_live`), and so is the assertion's
(`lagPercentiles_of_live`). An hour that has only recovered rows has no
live figure to compare with.

# What one recovered row can do

An average has no such protection. If a minute has a live and a
recovered row, the recovered one can be given a lag that carries the sum
past any bound (`le_lagSum_relag`), hence the rounded mean past any
bound (`exists_lt_avgLag`). So no recovered lag moves the averages if
and only if no minute with a live row has a recovered one
(`latency_unmoved_iff`). A gap in the feed is usually shorter than a
minute, and then the condition fails at both of its ends.
-/
import MarketPlatform.Proofs.SameBar
import MarketPlatform.Warehouse.Quality

namespace MarketPlatform.Warehouse

open Lib Lib.Rfc3339 Lib.Relation

variable {E : Engine} {approxQuantile : Nat → List Int → Option Int}
  {vars : Vars} {now : Int} {raw raw' : List RawTrade}
  {trades : List FctTrade}

-- ======================================================== two populations

/-- The rows received live. -/
def receivedLive (trades : List FctTrade) : List FctTrade :=
  trades.filter fun t => !t.isBackfilled

/-- The same table, with other lags on the recovered rows. -/
def relag (lags : FctTrade → Int) (trades : List FctTrade) :
    List FctTrade :=
  trades.map fun t =>
    if t.isBackfilled then { t with ingestLagMs := lags t } else t

theorem receivedLive_relag (lags : FctTrade → Int) :
    receivedLive (relag lags trades) = receivedLive trades := by
  unfold receivedLive relag
  induction trades with
  | nil => rfl
  | cons t trades ih =>
      rw [List.map_cons, List.filter_cons, List.filter_cons, ih]
      by_cases ht : t.isBackfilled = true
      · simp [ht]
      · simp [ht]

-- ============================================================== the figures

def DataQuality.key (d : DataQuality) : String × Int :=
  (d.productId, d.eventHour)

/-- The latency figures of a row of `fct_data_quality`. -/
def DataQuality.latency (d : DataQuality) :
    Option Int × Option Int × Option Int × Option Bool :=
  (d.p50IngestLagMs, d.p95IngestLagMs, d.p99IngestLagMs,
    d.meetsLatencySla)

/-- The figures of a product and hour, from its trades. -/
def latencyOf (approxQuantile : Nat → List Int → Option Int)
    (rows : List FctTrade) :
    Option Int × Option Int × Option Int × Option Bool :=
  let lags := rows.filterMap FctTrade.liveLag
  (approxQuantile 50 lags, approxQuantile 95 lags, approxQuantile 99 lags,
    (approxQuantile 99 lags).map fun lag => decide (lag ≤ 5000))

theorem latencyOf_receivedLive (rows : List FctTrade) :
    latencyOf approxQuantile (receivedLive rows)
      = latencyOf approxQuantile rows := by
  have hlags : (receivedLive rows).filterMap FctTrade.liveLag
      = rows.filterMap FctTrade.liveLag := by
    unfold receivedLive
    rw [List.filterMap_filter]
    refine List.filterMap_congr fun t _ => ?_
    unfold FctTrade.liveLag
    by_cases ht : t.isBackfilled = true
    · simp [ht]
    · simp [ht]
  unfold latencyOf
  rw [hlags]

/-- A product and hour with trades has one row. -/
theorem exists_qualityOf {counts : List RawCount} {k : String × Int}
    {rows : List FctTrade} (h : rows ≠ []) :
    ∃ d, qualityOf E approxQuantile counts k rows = some d ∧ d.key = k
      ∧ d.latency = latencyOf approxQuantile rows := by
  obtain ⟨t, ht⟩ := List.exists_mem_of_ne_nil _ h
  obtain ⟨a, ha⟩ := exists_minOf (List.mem_map_of_mem (f := FctTrade.tradeId) ht)
  obtain ⟨b, hb⟩ := exists_maxOf (List.mem_map_of_mem (f := FctTrade.tradeId) ht)
  obtain ⟨c, hc⟩ := exists_minOf (List.mem_map_of_mem (f := FctTrade.eventTime) ht)
  obtain ⟨d, hd⟩ := exists_maxOf (List.mem_map_of_mem (f := FctTrade.eventTime) ht)
  obtain ⟨e, he⟩ := Option.isSome_iff_exists.mp (E.pick_isSome h)
  unfold qualityOf
  rw [ha, hb, hc, hd, he]
  exact ⟨_, rfl, rfl, rfl⟩

/-- The row of `fct_data_quality` for a product and hour. -/
theorem group_fctDataQuality {table : List DataQuality}
    (h : fctDataQuality E approxQuantile vars now raw trades = some table)
    {k : String × Int} (hk : k ∈ groups FctTrade.hourKey trades) :
    (group DataQuality.key table k).map DataQuality.latency
      = [latencyOf approxQuantile (group FctTrade.hourKey trades k)] := by
  obtain ⟨counts, -, rfl⟩ := Option.map_eq_some_iff.mp h
  have hrows : ∀ i ∈ groups FctTrade.hourKey trades, ∃ d,
      qualityOf E approxQuantile counts i (group FctTrade.hourKey trades i)
        = some d ∧ d.key = id i ∧ (id i = k → d.latency
        = latencyOf approxQuantile (group FctTrade.hourKey trades i)) := by
    intro i hi
    obtain ⟨d, hd, hkey, hlatency⟩ := exists_qualityOf (group_ne_nil_iff.mpr hi)
    exact ⟨d, hd, hkey, fun _ => hlatency⟩
  have hone : group id (groups FctTrade.hourKey trades) k = [k] :=
    group_eq_singleton (by rw [List.map_id]; exact nodup_groups) hk
  rw [groupBy, List.filterMap_map, Function.id_comp,
    map_group_filterMap hrows, hone]
  rfl

theorem mem_groups_receivedLive {κ : Type} [DecidableEq κ]
    {part : FctTrade → κ} {k : κ} (h : k ∈ groups part (receivedLive trades)) :
    k ∈ groups part trades := by
  obtain ⟨t, ht, hk⟩ := mem_groups.mp h
  exact mem_groups.mpr ⟨t, (List.mem_filter.mp ht).1, hk⟩

/-- The figures of an hour with live rows are those of its live rows.
The raw counts of the two tables may differ: no latency figure is
computed from them. -/
theorem quality_of_live {table table' : List DataQuality}
    (h : fctDataQuality E approxQuantile vars now raw trades = some table)
    (h' : fctDataQuality E approxQuantile vars now raw' (receivedLive trades)
      = some table') {k : String × Int}
    (hk : k ∈ groups FctTrade.hourKey (receivedLive trades)) :
    (group DataQuality.key table k).map DataQuality.latency
      = (group DataQuality.key table' k).map DataQuality.latency := by
  have hlive : group FctTrade.hourKey (receivedLive trades) k
      = receivedLive (group FctTrade.hourKey trades k) := group_filter
  rw [group_fctDataQuality h (mem_groups_receivedLive hk),
    group_fctDataQuality h' hk, hlive, latencyOf_receivedLive]

theorem lagPercentiles_of_live :
    lagPercentiles approxQuantile now (receivedLive trades)
      = lagPercentiles approxQuantile now trades := by
  unfold lagPercentiles receivedLive
  rw [List.filter_filter]
  congr 1
  refine List.filter_congr fun t _ => ?_
  by_cases ht : t.isBackfilled = true
  · simp [ht]
  · simp [ht]

-- ============================================================== the averages

/-- The sum of the recorded lags. -/
def lagSum (rows : List FctTrade) : ℚ :=
  (rows.map fun t => (t.ingestLagMs : ℚ)).sum

/-- A mean of at least twice a bound rounds to the bound or above.
Rounding moves it by half a millisecond at most, so twice is more than
enough. -/
theorem le_avgLag {rows : List FctTrade} {c : Int} (hc : 0 < c)
    (h : 2 * (c : ℚ) * rows.length ≤ lagSum rows) (hne : rows ≠ []) :
    c ≤ avgLag rows := by
  have hlen : (0 : ℚ) < rows.length := by
    exact_mod_cast List.length_pos_iff.mpr hne
  have hmean : 2 * (c : ℚ) ≤ lagSum rows / rows.length :=
    (le_div_iff₀ hlen).mpr h
  have hc' : (0 : ℚ) < c := by exact_mod_cast hc
  have hpos : (0 : ℚ) < lagSum rows / rows.length := by linarith
  generalize hq : lagSum rows / rows.length = q at hmean hpos
  -- the double of a value is more than half of it
  have hhalf : (c : ℚ) ≤ float64 q := by
    have hlow := (float64_bounds hpos).1
    have hhigh : q < (2 : ℚ) ^ (Int.log 2 q + 1) := by
      exact_mod_cast Int.lt_zpow_succ_log_self (R := ℚ) one_lt_two q
    rw [zpow_add_one₀ two_ne_zero] at hhigh
    linarith
  have havg : avgLag rows = ⌊float64 q + 1 / 2⌋ := by
    unfold avgLag
    rw [← lagSum, hq]
    exact if_pos (by linarith)
  rw [havg, Int.le_floor]
  linarith

/-- The average of a minute's bar. -/
theorem group_avgIngestLagMs {k : String × Int}
    (hk : k ∈ groups FctTrade.barKey trades) :
    (group Bar.key (fctBars1m E trades) k).map Bar.avgIngestLagMs
      = [avgLag (group FctTrade.barKey trades k)] := by
  rw [group_fctBars1m (group_ne_nil_iff.mpr hk)]
  rfl

theorem barKey_relag (lags : FctTrade → Int) (t : FctTrade) :
    FctTrade.barKey (if t.isBackfilled then { t with ingestLagMs := lags t }
      else t) = t.barKey := by
  split
  · rfl
  · rfl

theorem group_relag (lags : FctTrade → Int) (k : String × Int) :
    group FctTrade.barKey (relag lags trades) k
      = relag lags (group FctTrade.barKey trades k) := by
  unfold group relag
  rw [List.filter_map]
  congr 1
  exact List.filter_congr fun t _ => by
    rw [Function.comp_apply, barKey_relag]

/-- The lag of a row, when every recovered row has one lag. -/
def lagWith (lag : Int) (t : FctTrade) : ℚ :=
  if t.isBackfilled then lag else t.ingestLagMs

theorem lagSum_relag (lag : Int) (rows : List FctTrade) :
    lagSum (relag (fun _ => lag) rows) = (rows.map (lagWith lag)).sum := by
  unfold lagSum relag
  rw [List.map_map]
  congr 1
  refine List.map_congr_left fun t _ => ?_
  unfold lagWith
  by_cases ht : t.isBackfilled = true
  · simp [ht]
  · simp [ht]

theorem lagWith_nonneg {lag : Int} (hlag : 0 ≤ lag) (t : FctTrade) :
    0 ≤ lagWith lag t + |(t.ingestLagMs : ℚ)| := by
  unfold lagWith
  split
  · have hlag' : (0 : ℚ) ≤ lag := by exact_mod_cast hlag
    linarith [abs_nonneg (t.ingestLagMs : ℚ)]
  · linarith [neg_abs_le (t.ingestLagMs : ℚ)]

/-- One recovered row can carry the sum as high as one likes: the other
rows take away at most the sum of the sizes of their own lags. -/
theorem le_lagSum_relag {rows : List FctTrade} {t : FctTrade} (ht : t ∈ rows)
    (hback : t.isBackfilled = true) {lag : Int} (hlag : 0 ≤ lag) :
    (lag : ℚ) - (rows.map fun t => |(t.ingestLagMs : ℚ)|).sum
      ≤ lagSum (relag (fun _ => lag) rows) := by
  have hsingle : lagWith lag t + |(t.ingestLagMs : ℚ)|
      ≤ (rows.map fun t => lagWith lag t + |(t.ingestLagMs : ℚ)|).sum := by
    apply List.single_le_sum
    · intro x hx
      obtain ⟨r, -, rfl⟩ := List.mem_map.mp hx
      exact lagWith_nonneg hlag r
    · exact List.mem_map.mpr ⟨t, ht, rfl⟩
  have ht' : lagWith lag t = lag := if_pos hback
  rw [List.sum_map_add, ← lagSum_relag, ht'] at hsingle
  linarith [abs_nonneg (t.ingestLagMs : ℚ)]

/-- Some lag of a recovered row takes the average past any bound. -/
theorem exists_lt_avgLag {rows : List FctTrade} {t : FctTrade}
    (ht : t ∈ rows) (hback : t.isBackfilled = true) (bound : Int) :
    ∃ lag, bound < avgLag (relag (fun _ => lag) rows) := by
  generalize htotal : (rows.map fun r => |(r.ingestLagMs : ℚ)|).sum = total
  have hpos : 0 ≤ total := by
    rw [← htotal]
    apply List.sum_nonneg
    intro x hx
    obtain ⟨r, -, rfl⟩ := List.mem_map.mp hx
    exact abs_nonneg _
  have hceil := Int.le_ceil total
  have hlag : 0 ≤ ⌈total⌉ + 2 * (|bound| + 1) * rows.length := by
    have := Int.ceil_nonneg hpos
    positivity
  have hsum := le_lagSum_relag ht hback hlag
  rw [htotal] at hsum
  generalize hL : ⌈total⌉ + 2 * (|bound| + 1) * (rows.length : Int) = lag
    at hlag hsum
  have hlen : (relag (fun _ => lag) rows).length = rows.length :=
    List.length_map _
  refine ⟨lag, ?_⟩
  have hle : |bound| + 1 ≤ avgLag (relag (fun _ => lag) rows) := by
    apply le_avgLag (by positivity)
    · rw [hlen]
      have hL' : (lag : ℚ) = ⌈total⌉ + 2 * (|bound| + 1) * rows.length := by
        rw [← hL]
        push_cast
        rfl
      rw [hL'] at hsum
      push_cast at hsum ⊢
      linarith
    · intro hnil
      rw [hnil, List.length_nil] at hlen
      exact absurd (List.length_pos_of_mem ht) (by omega)
  have hbound := le_abs_self bound
  omega

theorem relag_of_live {rows : List FctTrade}
    (h : ∀ t ∈ rows, t.isBackfilled = false) (lags : FctTrade → Int) :
    relag lags rows = rows := by
  unfold relag
  conv_rhs => rw [← List.map_id rows]
  refine List.map_congr_left fun t ht => ?_
  rw [h t ht]
  rfl

-- =========================================================== the whole law

/-- Every latency figure is that of the live rows: the averages of the
minutes that have some, the figures of the hours that have some, and the
percentiles of the assertion. -/
structure LatencyUnmoved (E : Engine)
    (approxQuantile : Nat → List Int → Option Int) (vars : Vars)
    (now : Int) (trades : List FctTrade) : Prop where
  averages : ∀ k ∈ groups FctTrade.barKey (receivedLive trades),
    (group Bar.key (fctBars1m E trades) k).map Bar.avgIngestLagMs
      = (group Bar.key (fctBars1m E (receivedLive trades)) k).map
          Bar.avgIngestLagMs
  quality : ∀ raw raw' table table',
    fctDataQuality E approxQuantile vars now raw trades = some table →
    fctDataQuality E approxQuantile vars now raw' (receivedLive trades)
      = some table' →
    ∀ k ∈ groups FctTrade.hourKey (receivedLive trades),
      (group DataQuality.key table k).map DataQuality.latency
        = (group DataQuality.key table' k).map DataQuality.latency
  assertion : lagPercentiles approxQuantile now trades
    = lagPercentiles approxQuantile now (receivedLive trades)

/-- No lag of the recovered rows moves a latency figure if and only if
no minute with live rows has a recovered one.

Forwards, a recovered row in such a minute is given a lag that takes the
minute's average past the one of its live rows. Backwards, a minute with
live rows has no others, so its rows are the same in both tables. -/
theorem latency_unmoved_iff (E : Engine)
    (approxQuantile : Nat → List Int → Option Int) (vars : Vars)
    (now : Int) (trades : List FctTrade) :
    (∀ lags, LatencyUnmoved E approxQuantile vars now (relag lags trades))
      ↔ ∀ t ∈ trades, t.isBackfilled = true →
        t.barKey ∉ groups FctTrade.barKey (receivedLive trades) := by
  constructor
  · intro h t ht hback hlive
    have hmem : t ∈ group FctTrade.barKey trades t.barKey :=
      mem_group.mpr ⟨ht, rfl⟩
    obtain ⟨lag, hlag⟩ := exists_lt_avgLag hmem hback
      (avgLag (group FctTrade.barKey (receivedLive trades) t.barKey))
    have hunmoved := (h fun _ => lag).averages t.barKey
    rw [receivedLive_relag] at hunmoved
    have hlive' : t.barKey ∈ groups FctTrade.barKey
        (receivedLive (relag (fun _ => lag) trades)) := by
      rw [receivedLive_relag]
      exact hlive
    have heq := hunmoved hlive
    rw [group_avgIngestLagMs (mem_groups_receivedLive hlive'),
      group_avgIngestLagMs hlive, group_relag] at heq
    exact absurd (List.cons.inj heq).1 hlag.ne'
  · intro h lags
    refine ⟨fun k hk => ?_, fun _ _ _ _ => quality_of_live,
      lagPercentiles_of_live.symm⟩
    rw [group_avgIngestLagMs (mem_groups_receivedLive hk),
      group_avgIngestLagMs hk]
    rw [receivedLive_relag] at hk ⊢
    have hrows : ∀ t ∈ group FctTrade.barKey trades k,
        t.isBackfilled = false := by
      intro t ht
      obtain ⟨hmem, hkey⟩ := mem_group.mp ht
      exact Bool.eq_false_iff.mpr fun hback => h t hmem hback (hkey ▸ hk)
    have hlive : group FctTrade.barKey (receivedLive trades) k
        = group FctTrade.barKey trades k := by
      unfold receivedLive
      rw [group_filter]
      exact List.filter_eq_self.mpr fun t ht => by rw [hrows t ht]; rfl
    rw [group_relag, relag_of_live hrows, hlive]

/-- A trade at a second, received live with a lag, or recovered. -/
def laggedTrade (tradeId seconds lagMs : Int) (recovered : Bool) :
    FctTrade :=
  { btcFct tradeId seconds 100 1 with
    sequence := if recovered then 0 else tradeId
    isBackfilled := recovered
    ingestLagMs := lagMs }

/-- The exact-rank quantile, of sorted lags. -/
def exactQuantile (pct : Nat) (lags : List Int) : Option Int :=
  let ordered := lags.insertionSort fun a b => a ≤ b
  ordered[pct * (ordered.length - 1) / 100]?

/-- One trade recovered an hour late makes half an hour of a minute's
average lag. -/
theorem recovery_moves_the_average :
    (fctBars1m Engine.inOrder [laggedTrade 1 1 50 false]).map
        Bar.avgIngestLagMs = [50]
      ∧ (fctBars1m Engine.inOrder [laggedTrade 1 1 50 false,
          laggedTrade 2 2 3600000 true]).map Bar.avgIngestLagMs = [1800025]
      ∧ ¬ LatencyUnmoved Engine.inOrder exactQuantile {} 0
        [laggedTrade 1 1 50 false, laggedTrade 2 2 3600000 true] := by
  have halone : (fctBars1m Engine.inOrder [laggedTrade 1 1 50 false]).map
      Bar.avgIngestLagMs = [50] := by decide +kernel
  have hmixed : (fctBars1m Engine.inOrder [laggedTrade 1 1 50 false,
      laggedTrade 2 2 3600000 true]).map Bar.avgIngestLagMs = [1800025] := by
    decide +kernel
  refine ⟨halone, hmixed, fun h => ?_⟩
  have haverages := h.averages ("BTC-USD", 0) (by decide +kernel)
  revert haverages
  decide +kernel

/-- A trade recovered into another minute of the hour moves nothing. -/
theorem latency_unmoved_iff_other_minute :
    LatencyUnmoved Engine.inOrder exactQuantile {} 0
      (relag (fun _ => 3600000)
        [laggedTrade 1 1 50 false, laggedTrade 2 61 60000 true]) :=
  (latency_unmoved_iff Engine.inOrder exactQuantile {} 0
    [laggedTrade 1 1 50 false, laggedTrade 2 61 60000 true]).mpr
      (by decide +kernel) _

end MarketPlatform.Warehouse
