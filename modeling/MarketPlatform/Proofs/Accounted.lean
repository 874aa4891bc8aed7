/-
Every raw row of a trade is accounted for: received, or a duplicate.

# Two numbers from two tables

`fct_data_quality` counts the trades of an hour after staging has kept
one copy of each, and the duplicates as the rows of the raw table less
their distinct ids. The two numbers come from different tables, by hours
that are computed from different copies: a trade is counted in the hour
of the copy that was kept, a raw row in its own. They add up to the raw
rows of the hour, in every hour that has any, exactly when the copies of
a trade agree on the hour (`accounted_iff`).

# The plan

What is removed in an hour is its raw rows less their distinct ids
(`duplicatesOf_eq`), so the sum falls short of the raw rows by the ids
that are not of a trade received in the hour. All trades received in an
hour have ids of the hour's raw rows (`ids_of_hour`), which gives the
inequality; it is an equality exactly when each raw row of the hour is
of one of its trades (`received_iff`). Taken over all hours this says
that every raw row is of a trade that was kept in the row's hour
(`KeptInHour`), and that is to say that the copies agree, since only one
copy was kept (`keptInHour_iff`).
-/
import MarketPlatform.Proofs.Latency

namespace MarketPlatform.Warehouse

open Lib Lib.Rfc3339 Lib.Relation

-- ============================================================ the raw rows

/-- `timestamp_trunc(timestamp(event_time), HOUR)`. -/
def RawTrade.eventHour (r : RawTrade) : Option Int :=
  r.eventTime.instant.map (truncate hour)

/-- What the copies of a trade share. -/
def RawTrade.key (r : RawTrade) : Int × String := (r.tradeId, r.productId)

/-- The raw rows of a product and hour. -/
def hourRaws (vars : Vars) (now : Int) (raw : List RawTrade)
    (k : String × Int) : List RawTrade :=
  (rawTrades vars now raw).filter fun r =>
    r.productId = k.1 && r.eventHour = some k.2

section Raws

variable {vars : Vars} {now : Int} {raw : List RawTrade}
  {k : String × Int} {r : RawTrade}

/-- A raw row of an hour is one that staging reads, of the product,
whose time falls in the hour. -/
theorem mem_hourRaws :
    r ∈ hourRaws vars now raw k
      ↔ r ∈ rawTrades vars now raw ∧ r.productId = k.1
        ∧ r.eventHour = some k.2 := by
  simp only [hourRaws, List.mem_filter, Bool.and_eq_true, decide_eq_true_eq]

/-- The rows that `raw_counts` groups for a product and hour. -/
theorem group_timed (raws : List RawTrade) (k : String × Int) :
    (group (fun r : RawTrade × Int => (r.1.productId, truncate hour r.2))
        (raws.filterMap timed) k).map Prod.fst
      = raws.filter fun r => r.productId = k.1 && r.eventHour = some k.2 := by
  induction raws with
  | nil => rfl
  | cons r raws ih =>
      unfold group at ih ⊢
      cases ht : r.eventTime.instant with
      | none =>
          have hnone : timed r = none := by rw [timed, ht, Option.map_none]
          have hhour : r.eventHour = none := by
            rw [RawTrade.eventHour, ht, Option.map_none]
          rw [List.filterMap_cons_none hnone, ih,
            List.filter_cons_of_neg (by simp [hhour])]
      | some t =>
          have hsome : timed r = some (r, t) := by
            rw [timed, ht, Option.map_some]
          have hhour : r.eventHour = some (truncate hour t) := by
            rw [RawTrade.eventHour, ht, Option.map_some]
          rw [List.filterMap_cons_some hsome]
          by_cases hk : (r.productId, truncate hour t) = k
          · rw [List.filter_cons_of_pos (by simpa using hk), List.map_cons,
              ih, List.filter_cons_of_pos]
            rw [← hk, hhour]
            simp
          · rw [List.filter_cons_of_neg (by simpa using hk), ih,
              List.filter_cons_of_neg]
            rw [hhour]
            simpa [Prod.ext_iff] using hk

/-- What `duplicates_removed` comes to: the raw rows of the hour, less
their distinct ids. -/
theorem duplicatesOf_eq {counts : List RawCount}
    (hcounts : rawCounts vars now raw = some counts) (k : String × Int) :
    duplicatesOf counts k = ((hourRaws vars now raw k).length : Int)
      - ((hourRaws vars now raw k).map RawTrade.tradeId).dedup.length := by
  obtain ⟨ts, hts, rfl⟩ := Option.map_eq_some_iff.mp hcounts
  obtain ⟨-, rfl⟩ := mapM_eq_some_iff.mp hts
  have hkey : ∀ (k : String × Int) (rows : List (RawTrade × Int)),
      ((rawCountOf k rows).productId, (rawCountOf k rows).eventHour) = k :=
    fun _ _ => rfl
  have hrows := group_timed (rawTrades vars now raw) k
  unfold duplicatesOf
  by_cases hk : k ∈ groups (fun r : RawTrade × Int =>
      (r.1.productId, truncate hour r.2))
      ((rawTrades vars now raw).filterMap timed)
  · rw [find?_groupBy hkey hk]
    dsimp only [rawCountOf]
    unfold hourRaws
    rw [← hrows, List.length_map, List.map_map]
    rfl
  · rw [find?_groupBy_eq_none hkey hk]
    have hnil : hourRaws vars now raw k = [] := by
      unfold hourRaws
      rw [← hrows, List.map_eq_nil_iff]
      by_contra hne
      exact hk (group_ne_nil_iff.mp hne)
    rw [hnil]
    rfl

end Raws

-- ============================================================== the table

section Table

variable {E E' : Engine} {approxQuantile : Nat → List Int → Option Int}
  {vars : Vars} {now : Int} {raw : List RawTrade} {staged : List StgTrade}
  {out : List DataQuality}

/-- What staging keeps: one trade for each key, of a raw row with the same
hour. -/
structure StagedFrom (vars : Vars) (now : Int) (raw : List RawTrade)
    (trades : List FctTrade) : Prop where
  nodup : (trades.map FctTrade.key).Nodup
  source : ∀ t ∈ trades, ∃ r ∈ rawTrades vars now raw, r.key = t.key
    ∧ r.eventHour = some t.hourKey.2
  each : ∀ r ∈ rawTrades vars now raw, ∃ t ∈ trades, t.key = r.key

/-- A staged trade has the key and the hour of its raw row. -/
theorem key_of_derived {r : RawTrade} {st : StgTrade}
    (h : derived r = some st) : r.key = (FctTrade.ofStaged st).key
      ∧ r.eventHour = some (FctTrade.ofStaged st).hourKey.2 := by
  simp only [derived, Option.bind_eq_bind, Option.bind_eq_some_iff,
    Option.pure_def, Option.some.injEq] at h
  obtain ⟨_, -, _, -, t, ht, _, -, _, -, rfl⟩ := h
  refine ⟨rfl, ?_⟩
  rw [RawTrade.eventHour, ht]
  rfl

/-- `stg_trades` keeps such trades: one for each key, each from a raw
row. -/
theorem stagedFrom (hstaged : stgTrades E vars now raw = some staged) :
    StagedFrom vars now raw (fctTrades staged) := by
  obtain ⟨ss, hss, rfl⟩ := Option.map_eq_some_iff.mp hstaged
  obtain ⟨hsome, rfl⟩ := mapM_eq_some_iff.mp hss
  refine ⟨?_, fun t ht => ?_, fun r hr => ?_⟩
  · have hkeys : ∀ staged : List StgTrade,
        (fctTrades staged).map FctTrade.key = staged.map StgTrade.key := by
      intro staged
      rw [fctTrades, List.map_map]
      rfl
    rw [hkeys]
    exact nodup_firstBy
  · obtain ⟨st, hst, rfl⟩ := List.mem_map.mp ht
    obtain ⟨r, hr, hderived⟩ := List.mem_filterMap.mp (of_mem_firstBy hst).1
    exact ⟨r, hr, key_of_derived hderived⟩
  · obtain ⟨st, hst⟩ := Option.isSome_iff_exists.mp (hsome r hr)
    obtain ⟨st', hst', hkey⟩ : ∃ st' ∈ firstBy E StgTrade.key
        StgTrade.arrival ((rawTrades vars now raw).filterMap derived),
        st'.key = st.key :=
      exists_mem_firstBy (List.mem_filterMap.mpr ⟨r, hr, hst⟩)
    exact ⟨_, List.mem_map_of_mem hst', hkey.trans (key_of_derived hst).1.symm⟩

/-- The raw rows of every hour are the trades received in it and the
duplicates removed, and every raw row is in an hour of the table. -/
structure Accounted (vars : Vars) (now : Int) (raw : List RawTrade)
    (out : List DataQuality) : Prop where
  row : ∀ q ∈ out, (q.tradesReceived : Int) + q.duplicatesRemoved
    = (hourRaws vars now raw q.key).length
  hour : ∀ r ∈ rawTrades vars now raw, ∃ q ∈ out,
    r ∈ hourRaws vars now raw q.key

/-- The copies of a trade agree on the hour. -/
def SameHour (vars : Vars) (now : Int) (raw : List RawTrade) : Prop :=
  ∀ r ∈ rawTrades vars now raw, ∀ r' ∈ rawTrades vars now raw,
    r.key = r'.key → r.eventHour = r'.eventHour

/-- The row of an hour counts the hour's trades and its duplicates. -/
theorem of_qualityOf {counts : List RawCount} {k : String × Int}
    {rows : List FctTrade} {q : DataQuality}
    (h : qualityOf E approxQuantile counts k rows = some q) :
    q.key = k ∧ q.tradesReceived = rows.length
      ∧ q.duplicatesRemoved = duplicatesOf counts k := by
  unfold qualityOf at h
  simp only [Option.bind_eq_bind, Option.bind_eq_some_iff, Option.pure_def,
    Option.some.injEq] at h
  obtain ⟨_, -, _, -, _, -, _, -, _, -, rfl⟩ := h
  exact ⟨rfl, rfl, rfl⟩

/-- The rows of the table: one for each hour with trades. -/
theorem mem_fctDataQuality {trades : List FctTrade}
    (hquery : fctDataQuality E approxQuantile vars now raw trades
      = some out) :
    (∀ q ∈ out, q.tradesReceived
        = (group FctTrade.hourKey trades q.key).length
      ∧ q.duplicatesRemoved = ((hourRaws vars now raw q.key).length : Int)
        - ((hourRaws vars now raw q.key).map RawTrade.tradeId).dedup.length)
      ∧ ∀ k, (∃ q ∈ out, q.key = k) ↔ k ∈ groups FctTrade.hourKey trades := by
  obtain ⟨counts, hcounts, rfl⟩ := Option.map_eq_some_iff.mp hquery
  rw [groupBy, List.filterMap_map]
  have hmem : ∀ q, q ∈ (groups FctTrade.hourKey trades).filterMap
      (id ∘ fun k => qualityOf E approxQuantile counts k
        (group FctTrade.hourKey trades k))
      ↔ ∃ k ∈ groups FctTrade.hourKey trades, qualityOf E approxQuantile
        counts k (group FctTrade.hourKey trades k) = some q :=
    fun q => List.mem_filterMap
  refine ⟨fun q hq => ?_, fun k => ⟨fun hk => ?_, fun hk => ?_⟩⟩
  · obtain ⟨k, -, hk⟩ := (hmem q).mp hq
    obtain ⟨rfl, hreceived, hduplicates⟩ := of_qualityOf hk
    exact ⟨hreceived, hduplicates.trans (duplicatesOf_eq hcounts _)⟩
  · obtain ⟨q, hq, rfl⟩ := hk
    obtain ⟨k, hk, hqk⟩ := (hmem q).mp hq
    rwa [(of_qualityOf hqk).1]
  · have hrows := group_ne_nil_iff.mpr hk
    obtain ⟨q, hq, hkey, -⟩ : ∃ q, qualityOf E approxQuantile counts k
        (group FctTrade.hourKey trades k) = some q ∧ q.key = k ∧ _ :=
      exists_qualityOf hrows
    exact ⟨q, (hmem q).mpr ⟨k, hk, hq⟩, hkey⟩

-- ============================================================== one hour

section Hour

variable {trades : List FctTrade} {k : String × Int}

/-- The trades of an hour have distinct ids, of raw rows of the hour. -/
theorem ids_of_hour (h : StagedFrom vars now raw trades)
    (k : String × Int) :
    ((group FctTrade.hourKey trades k).map FctTrade.tradeId).Nodup
      ∧ (group FctTrade.hourKey trades k).map FctTrade.tradeId
        ⊆ ((hourRaws vars now raw k).map RawTrade.tradeId).dedup := by
  constructor
  · refine List.Nodup.map_on ?_ (h.nodup.of_map.filter _)
    intro a ha b hb hid
    refine eq_of_mem_group h.nodup ha hb fun hkey => ?_
    exact Prod.ext hid (congrArg Prod.fst hkey)
  · intro i hi
    obtain ⟨t, ht, rfl⟩ := List.mem_map.mp hi
    obtain ⟨ht, hk⟩ := mem_group.mp ht
    obtain ⟨r, hr, hkey, hhour⟩ := h.source t ht
    have hproduct : r.productId = k.1 :=
      (congrArg Prod.snd hkey).trans (congrArg Prod.fst hk)
    rw [hk] at hhour
    rw [List.mem_dedup]
    exact List.mem_map.mpr
      ⟨r, mem_hourRaws.mpr ⟨hr, hproduct, hhour⟩, congrArg Prod.fst hkey⟩

/-- An hour received no fewer trades than its raw rows have ids exactly
when each of these is of a trade of the hour. The trades' ids are
distinct and among the raw rows' ids, so equal numbers leave none
out. -/
theorem received_iff (h : StagedFrom vars now raw trades)
    (k : String × Int) :
    (group FctTrade.hourKey trades k).length
        = ((hourRaws vars now raw k).map RawTrade.tradeId).dedup.length
      ↔ ∀ r ∈ hourRaws vars now raw k,
        ∃ t ∈ group FctTrade.hourKey trades k, t.key = r.key := by
  obtain ⟨hnodup, hsub⟩ := ids_of_hour h k
  have hsubperm := List.subperm_of_subset hnodup hsub
  constructor
  · intro hlength r hr
    have hperm := hsubperm.perm_of_length_le (by
      rw [List.length_map, hlength])
    have hmem : r.tradeId
        ∈ (group FctTrade.hourKey trades k).map FctTrade.tradeId :=
      hperm.mem_iff.mpr (List.mem_dedup.mpr (List.mem_map_of_mem hr))
    obtain ⟨t, ht, hid⟩ := List.mem_map.mp hmem
    refine ⟨t, ht, Prod.ext hid ?_⟩
    have hproduct : t.productId = k.1 :=
      congrArg Prod.fst (mem_group.mp ht).2
    exact hproduct.trans (mem_hourRaws.mp hr).2.1.symm
  · intro hall
    apply le_antisymm
    · have hle := hsubperm.length_le
      rwa [List.length_map] at hle
    · rw [← List.length_map FctTrade.tradeId]
      refine (List.subperm_of_subset (List.nodup_dedup _) ?_).length_le
      intro i hi
      obtain ⟨r, hr, rfl⟩ := List.mem_map.mp (List.mem_dedup.mp hi)
      obtain ⟨t, ht, hkey⟩ := hall r hr
      exact List.mem_map.mpr ⟨t, ht, congrArg Prod.fst hkey⟩

/-- Every raw row is of a trade that was kept in the row's hour. -/
def KeptInHour (vars : Vars) (now : Int) (raw : List RawTrade)
    (trades : List FctTrade) : Prop :=
  ∀ r ∈ rawTrades vars now raw, ∃ t ∈ trades,
    t.key = r.key ∧ r.eventHour = some t.hourKey.2

/-- Each raw row is of a trade kept in its hour exactly when copies
agree on the hour: the one that was kept agrees with itself. -/
theorem keptInHour_iff (h : StagedFrom vars now raw trades) :
    KeptInHour vars now raw trades ↔ SameHour vars now raw := by
  constructor
  · intro hkept r hr r' hr' hkey
    obtain ⟨t, ht, htr, hhour⟩ := hkept r hr
    obtain ⟨t', ht', htr', hhour'⟩ := hkept r' hr'
    have heq : t = t' := List.inj_on_of_nodup_map h.nodup ht ht'
      (htr.trans (hkey.trans htr'.symm))
    rw [hhour, hhour', heq]
  · intro hsame r hr
    obtain ⟨t, ht, hkey⟩ := h.each r hr
    obtain ⟨r', hr', hkey', hhour⟩ := h.source t ht
    refine ⟨t, ht, hkey, ?_⟩
    rw [hsame r hr r' hr' (hkey.symm.trans hkey'.symm), hhour]

/-- A raw row of an hour is of one of the hour's trades. -/
theorem KeptInHour.exists_of_hour (h : KeptInHour vars now raw trades)
    {r : RawTrade} (hr : r ∈ hourRaws vars now raw k) :
    ∃ t ∈ group FctTrade.hourKey trades k, t.key = r.key := by
  obtain ⟨hr, hproduct, hhour⟩ := mem_hourRaws.mp hr
  obtain ⟨t, ht, hkey, hhour'⟩ := h r hr
  rw [hhour, Option.some_inj] at hhour'
  refine ⟨t, mem_group.mpr ⟨ht, Prod.ext ?_ hhour'.symm⟩, hkey⟩
  exact (congrArg Prod.snd hkey).trans hproduct

end Hour

/-- The hours show every raw row when each is of a trade kept in its
hour. An hour's columns add up to its raw rows exactly when it received
as many trades as it has raw ids, and a raw row whose trade is kept in
another hour is the id that is left out. -/
theorem accounted_iff_keptInHour {trades : List FctTrade}
    (hfrom : StagedFrom vars now raw trades)
    (hquery : fctDataQuality E approxQuantile vars now raw trades
      = some out) :
    Accounted vars now raw out ↔ KeptInHour vars now raw trades := by
  obtain ⟨hcolumns, hrows⟩ := mem_fctDataQuality hquery
  constructor
  · intro h r hr
    obtain ⟨q, hq, hmem⟩ := h.hour r hr
    obtain ⟨hreceived, hduplicates⟩ := hcolumns q hq
    have hrow := h.row q hq
    rw [hreceived, hduplicates] at hrow
    obtain ⟨t, ht, htr⟩ := (received_iff hfrom q.key).mp (by omega) r hmem
    obtain ⟨ht, hk⟩ := mem_group.mp ht
    refine ⟨t, ht, htr, ?_⟩
    rw [hk]
    exact (mem_hourRaws.mp hmem).2.2
  · intro h
    refine ⟨fun q hq => ?_, fun r hr => ?_⟩
    · obtain ⟨hreceived, hduplicates⟩ := hcolumns q hq
      have hlength := (received_iff hfrom q.key).mpr fun r hr =>
        h.exists_of_hour hr
      rw [hreceived, hduplicates]
      omega
    · obtain ⟨t, ht, hkey, hhour⟩ := h r hr
      obtain ⟨q, hq, hqk⟩ :=
        (hrows t.hourKey).mpr (mem_groups.mpr ⟨t, ht, rfl⟩)
      refine ⟨q, hq, mem_hourRaws.mpr ⟨hr, ?_, ?_⟩⟩
      · rw [hqk]
        exact (congrArg Prod.snd hkey).symm
      · rw [hqk]
        exact hhour

/-- No hour of the table shows more than its raw rows, and together the
hours show every raw row exactly when the copies of a trade agree on the
hour. -/
theorem accounted_iff (hstaged : stgTrades E vars now raw = some staged)
    (hquery : fctDataQuality E' approxQuantile vars now raw
      (fctTrades staged) = some out) :
    (∀ q ∈ out, (q.tradesReceived : Int) + q.duplicatesRemoved
        ≤ (hourRaws vars now raw q.key).length)
      ∧ (Accounted vars now raw out ↔ SameHour vars now raw) := by
  have hfrom := stagedFrom hstaged
  refine ⟨fun q hq => ?_, ?_⟩
  · obtain ⟨hreceived, hduplicates⟩ := (mem_fctDataQuality hquery).1 q hq
    obtain ⟨hnodup, hsub⟩ := ids_of_hour hfrom q.key
    have hle := (List.subperm_of_subset hnodup hsub).length_le
    rw [List.length_map, ← hreceived] at hle
    omega
  · rw [accounted_iff_keptInHour hfrom hquery, keptInHour_iff hfrom]

end Table

-- ========================================================== three copies

/-- A raw row of BTC-USD whose event time is written so. -/
def rawCopy (tradeId : Int) (eventTime : String) : RawTrade where
  tradeId := tradeId
  productId := "BTC-USD"
  sequence := tradeId
  price := "100"
  size := "1"
  side := "buy"
  makerOrderId := ""
  takerOrderId := ""
  eventTime := .other eventTime
  ingestTime := .other eventTime
  publishTime := none
  partitionTime := some 0

/-- One trade twice, and another. -/
def agreeingCopies : List RawTrade :=
  [rawCopy 10 "1970-01-01T00:59:59Z", rawCopy 10 "1970-01-01T00:59:59Z",
    rawCopy 11 "1970-01-01T01:00:00Z"]

/-- The same, with the copy written an hour late. -/
def strayCopies : List RawTrade :=
  [rawCopy 10 "1970-01-01T00:59:59Z", rawCopy 10 "1970-01-01T01:59:59Z",
    rawCopy 11 "1970-01-01T01:00:00Z"]

/-- The copies as the first build stages them. -/
def stagedCopies (raw : List RawTrade) : List StgTrade :=
  (stgTrades Engine.inOrder {} 0 raw).getD []

/-- The table over them. -/
def copiesTable (raw : List RawTrade) : List DataQuality :=
  (fctDataQuality Engine.inOrder exactQuantile {} 0 raw
    (fctTrades (stagedCopies raw))).getD []

/-- With the same hour the copies are accounted for; with the stray one
neither hour shows it. -/
theorem accounted_iff_copies :
    Accounted {} 0 agreeingCopies (copiesTable agreeingCopies)
      ∧ ¬ Accounted {} 0 strayCopies (copiesTable strayCopies) := by
  have hagree : SameHour {} 0 agreeingCopies := by
    unfold SameHour
    decide +kernel
  have hstray : ¬ SameHour {} 0 strayCopies := by
    unfold SameHour
    decide +kernel
  have hstaged : ∀ raw ∈ [agreeingCopies, strayCopies],
      stgTrades Engine.inOrder {} 0 raw = some (stagedCopies raw)
        ∧ fctDataQuality Engine.inOrder exactQuantile {} 0 raw
          (fctTrades (stagedCopies raw)) = some (copiesTable raw) := by
    decide +kernel
  obtain ⟨hs, hq⟩ := hstaged agreeingCopies (by simp)
  obtain ⟨hs', hq'⟩ := hstaged strayCopies (by simp)
  exact ⟨(accounted_iff hs hq).2.mpr hagree,
    fun h => hstray ((accounted_iff hs' hq').2.mp h)⟩

end MarketPlatform.Warehouse
