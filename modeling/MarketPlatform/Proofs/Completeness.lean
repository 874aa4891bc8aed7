/-
Completeness: which gaps `fct_data_quality` shows.

# The gap between two hours

The span of an hour runs from the first trade received in it to the
last, so an hour counts the ids missing between its own trades. An id
missing between the last trade of one hour and the first of a later one
is in no span, and no row of the table shows it. `misses_no_gap_iff`
says that this is the only way to lose a gap, but for the rounding of
the percentage, which hides a share below one in two million.

# Counts

Ids are taken hour by hour as the parts of `Gaps`; the trades of a later
hour have the greater ids (`successive_hours`). The row of an hour
counts the holes of its part (`missing_eq_card`), the table their sum
(`sum_missing`), and the sum is the number of all missing ids exactly
when each of them is a hole of some part (`counted_iff`).

# Percentages

A percentage below 100 is a share that stays below 1 through two
roundings: that of the quotient to a `FLOAT64` and that of the
percentage to four digits. The shares for which it does are those up to
one threshold (`percent_lt_iff`): the rounding keeps the order, and
there is no `FLOAT64` between two neighbours. For an hour it is enough
to look at two of its trades, since a wider span makes the share smaller
(`divInt64_anti`).
-/
import Mathlib.Algebra.BigOperators.Ring.Finset
import MarketPlatform.Lib.Gaps
import MarketPlatform.Proofs.Bars
import MarketPlatform.Warehouse.Quality

namespace MarketPlatform.Warehouse

open Lib Lib.Rfc3339 Lib.Relation Lib.Numeral Lib.Gaps

-- ==================================================== what should hold

/-- The trade ids of a product that were received. -/
def receivedIds (p : String) (trades : List FctTrade) : Finset Int :=
  ((group FctTrade.productId trades p).map FctTrade.tradeId).toFinset

/-- The ids strictly between the smallest and the largest received one
that were not received. -/
def missingIds (p : String) (trades : List FctTrade) : Finset Int :=
  holes (receivedIds p trades)

/-- Distinct ids, and no trade in an earlier hour than one with a smaller
id. -/
structure HoursFollow (p : String) (trades : List FctTrade) : Prop where
  nodup : ((group FctTrade.productId trades p).map FctTrade.tradeId).Nodup
  mono : ∀ a ∈ trades, ∀ b ∈ trades, a.productId = p → b.productId = p →
    a.tradeId ≤ b.tradeId →
    truncate hour a.eventTime ≤ truncate hour b.eventTime

/-- The table counts every missing id of a product, and if there is one
some hour says so. -/
structure MissesNoGap (p : String) (trades : List FctTrade)
    (out : List DataQuality) : Prop where
  counted : ((group DataQuality.productId out p).map
    DataQuality.tradesMissing).sum = (missingIds p trades).card
  shown : (missingIds p trades).Nonempty →
    ∃ q ∈ out, q.productId = p ∧ 0 < q.tradesMissing
      ∧ ∃ pct, q.completenessPct = some pct ∧ pct < 100

/-- Every missing id lies between two trades of one hour. -/
def Enclosed (p : String) (trades : List FctTrade) : Prop :=
  ∀ i ∈ missingIds p trades, ∃ a ∈ trades, ∃ b ∈ trades,
    a.productId = p ∧ a.hourKey = b.hourKey
      ∧ a.tradeId < i ∧ i < b.tradeId

/-- Between two trades of some hour so many are missing that, of the ids
there, the hour received no more than the 0.9999995th part. -/
def Noticeable (p : String) (trades : List FctTrade) : Prop :=
  ∃ a ∈ trades, ∃ b ∈ trades, a.productId = p ∧ a.hourKey = b.hourKey
    ∧ a.tradeId ≤ b.tradeId
    ∧ divInt64 (group FctTrade.hourKey trades a.hourKey).length
        (b.tradeId - a.tradeId + 1) ≤ float64 (9999995 / 10000000)

-- ============================================================= percentage

/-- The percentage keeps the order. -/
theorem percent_mono {x y : ℚ} (hx : 0 ≤ x) (h : x ≤ y) :
    percent x ≤ percent y := by
  have hfloat : ∀ {z : ℚ}, 0 ≤ z → 0 ≤ float64 z := fun {z} hz => by
    have hle := float64_mono le_rfl hz
    rwa [float64, if_pos rfl] at hle
  have hround : ∀ {z : ℚ}, 0 ≤ z → 0 ≤ roundAway 4 z := fun {z} hz => by
    have hzero : roundAway 4 0 = 0 := by decide +kernel
    exact hzero ▸ roundAway_mono le_rfl hz
  have hx' : 0 ≤ x * 100 := by positivity
  unfold percent
  apply float64_mono (hround (hfloat hx'))
  apply roundAway_mono (hfloat hx')
  apply float64_mono hx'
  gcongr

/-- There is no `FLOAT64` between two neighbours below 1. -/
theorem float64_next {m : Int} (hlow : 2 ^ 52 ≤ m) (hhigh : m < 2 ^ 53)
    {r : ℚ} (hr : 0 < r) (h : (m : ℚ) / 2 ^ 53 < float64 r) :
    ((m + 1 : Int) : ℚ) / 2 ^ 53 ≤ float64 r := by
  have hbounds := float64_bounds hr
  rcases lt_trichotomy (Int.log 2 r) (-1) with hlt | heq | hgt
  · -- below one half
    exfalso
    have hhalf : (2 : ℚ) ^ (Int.log 2 r + 1) ≤ 2 ^ (-1 : Int) :=
      zpow_le_zpow_right₀ one_le_two (by omega)
    have hm : ((2 ^ 52 : Int) : ℚ) ≤ m := by exact_mod_cast hlow
    rw [div_lt_iff₀ (by positivity)] at h
    norm_num at hhalf hm h
    linarith [hbounds.2]
  · rw [float64_of_pos hr, heq] at h ⊢
    generalize roundEven _ = k at h ⊢
    have hunit : (2 : ℚ) ^ ((-1 : Int) - 52) = 1 / 2 ^ 53 := by norm_num
    rw [hunit, mul_one_div] at h ⊢
    rw [div_lt_div_iff_of_pos_right (by positivity)] at h
    have hk : m + 1 ≤ k := by exact_mod_cast h
    gcongr
  · have hone : (2 : ℚ) ^ (0 : Int) ≤ 2 ^ Int.log 2 r :=
      zpow_le_zpow_right₀ one_le_two (by omega)
    have hm : ((m + 1 : Int) : ℚ) ≤ ((2 ^ 53 : Int) : ℚ) := by
      exact_mod_cast hhigh
    rw [zpow_zero] at hone
    calc ((m + 1 : Int) : ℚ) / 2 ^ 53 ≤ ((2 ^ 53 : Int) : ℚ) / 2 ^ 53 := by
          gcongr
      _ = 1 := by norm_num
      _ ≤ float64 r := hone.trans hbounds.1

/-- The shares that the rounded percentage shows as less than 100. -/
theorem percent_lt_iff {r : ℚ} (hr : 0 < r) :
    percent (float64 r) < 100
      ↔ float64 r ≤ float64 (9999995 / 10000000) := by
  have hedge : float64 (9999995 / 10000000)
      = ((9007194751141365 : Int) : ℚ) / 2 ^ 53 := by decide +kernel
  have hbelow : percent (((9007194751141365 : Int) : ℚ) / 2 ^ 53) < 100 := by
    decide +kernel
  have habove : 100 ≤ percent (((9007194751141365 + 1 : Int) : ℚ) / 2 ^ 53) := by
    decide +kernel
  have hpos := float64_pos hr
  rw [hedge]
  constructor
  · intro h
    by_contra hnot
    have hnext := float64_next (by norm_num) (by norm_num) hr (not_le.mp hnot)
    have hmono := percent_mono (by positivity) hnext
    linarith
  · intro h
    exact (percent_mono hpos.le h).trans_lt hbelow

-- =============================================================== one hour

section Hour

variable {p : String} {trades : List FctTrade} {k : String × Int}

/-- The received ids of a product and hour. -/
def hourIds (trades : List FctTrade) (k : String × Int) : Finset Int :=
  ((group FctTrade.hourKey trades k).map FctTrade.tradeId).toFinset

/-- The hours in which trades of a product were received. -/
def hours (p : String) (trades : List FctTrade) : Finset Int :=
  ((group FctTrade.productId trades p).map fun t =>
    truncate hour t.eventTime).toFinset

/-- The ids of an hour are those of its trades. -/
theorem mem_hourIds {i : Int} :
    i ∈ hourIds trades k ↔ ∃ t ∈ trades, t.hourKey = k ∧ t.tradeId = i := by
  simp only [hourIds, List.mem_toFinset, List.mem_map, mem_group, and_assoc]

/-- An hour is one with a trade. -/
theorem mem_hours {h : Int} :
    h ∈ hours p trades ↔ (p, h) ∈ groups FctTrade.hourKey trades := by
  simp only [hours, List.mem_toFinset, List.mem_map, mem_group, mem_groups,
    FctTrade.hourKey, Prod.mk.injEq, and_assoc]

/-- The received ids of a product are those of its hours. -/
theorem receivedIds_eq :
    receivedIds p trades
      = (hours p trades).biUnion fun h => hourIds trades (p, h) := by
  ext i
  simp only [receivedIds, List.mem_toFinset, List.mem_map, mem_group,
    Finset.mem_biUnion, mem_hours, mem_groups, mem_hourIds]
  constructor
  · intro hx
    obtain ⟨t, ⟨ht, hp⟩, hi⟩ := hx
    have hkey : t.hourKey = (p, truncate hour t.eventTime) := by
      rw [← hp]
      rfl
    exact ⟨_, ⟨t, ht, hkey⟩, t, ht, hkey, hi⟩
  · intro hx
    obtain ⟨h, _, t, ht, hkey, hi⟩ := hx
    exact ⟨t, ⟨ht, congrArg Prod.fst hkey⟩, hi⟩

/-- The ids of one hour come before those of the next. -/
theorem successive_hours (hrows : HoursFollow p trades) :
    Successive (hours p trades) fun h => hourIds trades (p, h) := by
  intro h _ h' _ hlt i hi j hj
  obtain ⟨a, ha, hka, rfl⟩ := mem_hourIds.mp hi
  obtain ⟨b, hb, hkb, rfl⟩ := mem_hourIds.mp hj
  by_contra hnot
  have hle := hrows.mono b hb a ha (congrArg Prod.fst hkb)
    (congrArg Prod.fst hka) (not_lt.mp hnot)
  have hha : truncate hour a.eventTime = h := congrArg Prod.snd hka
  have hhb : truncate hour b.eventTime = h' := congrArg Prod.snd hkb
  omega

/-- The trades of an hour have distinct ids. -/
theorem HoursFollow.nodup_hour (hrows : HoursFollow p trades) {h : Int} :
    ((group FctTrade.hourKey trades (p, h)).map FctTrade.tradeId).Nodup := by
  refine hrows.nodup.sublist (List.Sublist.map _ ?_)
  refine List.monotone_filter_right _ fun t ht => ?_
  have hkey : t.hourKey = (p, h) := of_decide_eq_true ht
  exact decide_eq_true (congrArg Prod.fst hkey)

/-- What the row of an hour says of its trades' ids, the least of which
is `a`'s and the greatest `b`'s. An hour that has trades has a least and
a greatest id, so every column of it is there. -/
theorem qualityOf_spec (E : Engine)
    (approxQuantile : Nat → List Int → Option Int) (counts : List RawCount)
    (hk : k ∈ groups FctTrade.hourKey trades) :
    ∃ q, qualityOf E approxQuantile counts k
        (group FctTrade.hourKey trades k) = some q ∧ q.productId = k.1
      ∧ ∃ a ∈ group FctTrade.hourKey trades k,
        ∃ b ∈ group FctTrade.hourKey trades k,
          (∀ t ∈ group FctTrade.hourKey trades k,
            a.tradeId ≤ t.tradeId ∧ t.tradeId ≤ b.tradeId)
          ∧ q.tradesMissing = max (b.tradeId - a.tradeId + 1
              - (group FctTrade.hourKey trades k).length) 0
          ∧ q.completenessPct = some (percent
              (divInt64 (group FctTrade.hourKey trades k).length
                (b.tradeId - a.tradeId + 1))) := by
  obtain ⟨t, ht⟩ := List.exists_mem_of_ne_nil _ (group_ne_nil_iff.mpr hk)
  generalize group FctTrade.hourKey trades k = rows at ht ⊢
  obtain ⟨first, hfirst⟩ := exists_minOf
    (List.mem_map_of_mem (f := FctTrade.tradeId) ht)
  obtain ⟨last, hlast⟩ := exists_maxOf
    (List.mem_map_of_mem (f := FctTrade.tradeId) ht)
  obtain ⟨start, hstart⟩ := exists_minOf
    (List.mem_map_of_mem (f := FctTrade.eventTime) ht)
  obtain ⟨finish, hfinish⟩ := exists_maxOf
    (List.mem_map_of_mem (f := FctTrade.eventTime) ht)
  obtain ⟨any, hany⟩ := Option.isSome_iff_exists.mp
    (E.pick_isSome (List.ne_nil_of_mem ht))
  obtain ⟨hfirstmem, hmin⟩ := minOf_eq_some_iff.mp hfirst
  obtain ⟨hlastmem, hmax⟩ := maxOf_eq_some_iff.mp hlast
  obtain ⟨a, ha, rfl⟩ := List.mem_map.mp hfirstmem
  obtain ⟨b, hb, rfl⟩ := List.mem_map.mp hlastmem
  have hle : a.tradeId ≤ b.tradeId := hmin _ hlastmem
  have hspan : b.tradeId - a.tradeId + 1 ≠ 0 := by omega
  unfold qualityOf
  rw [hfirst, hlast, hstart, hfinish, hany]
  refine ⟨_, rfl, rfl, a, ha, b, hb, fun s hs => ?_, rfl, ?_⟩
  · exact ⟨hmin _ (List.mem_map_of_mem hs), hmax _ (List.mem_map_of_mem hs)⟩
  · dsimp only
    rw [safeDivideInt64, if_neg hspan]
    rfl

/-- An hour counts the ids missing between its own trades. -/
theorem missing_eq_card (hrows : HoursFollow p trades) {h : Int}
    {a b : FctTrade} (ha : a ∈ group FctTrade.hourKey trades (p, h))
    (hb : b ∈ group FctTrade.hourKey trades (p, h))
    (hext : ∀ t ∈ group FctTrade.hourKey trades (p, h),
      a.tradeId ≤ t.tradeId ∧ t.tradeId ≤ b.tradeId) :
    max (b.tradeId - a.tradeId + 1
        - (group FctTrade.hourKey trades (p, h)).length) 0
      = ((holes (hourIds trades (p, h))).card : Int) := by
  have hmem : ∀ t ∈ group FctTrade.hourKey trades (p, h),
      t.tradeId ∈ hourIds trades (p, h) := fun t ht =>
    List.mem_toFinset.mpr (List.mem_map_of_mem ht)
  have hbound : ∀ i ∈ hourIds trades (p, h),
      a.tradeId ≤ i ∧ i ≤ b.tradeId := by
    intro i hi
    obtain ⟨t, ht, hkey, rfl⟩ := mem_hourIds.mp hi
    exact hext t (mem_group.mpr ⟨ht, hkey⟩)
  have hcard := card_holes (hmem a ha) (hmem b hb)
    (fun i hi => (hbound i hi).1) fun i hi => (hbound i hi).2
  have hlength : (hourIds trades (p, h)).card
      = (group FctTrade.hourKey trades (p, h)).length := by
    rw [hourIds, List.toFinset_card_of_nodup hrows.nodup_hour,
      List.length_map]
  rw [hlength] at hcard
  omega

end Hour

-- ============================================================== the table

section Table

variable {p : String} {trades : List FctTrade} {E : Engine}
  {approxQuantile : Nat → List Int → Option Int} {vars : Vars} {now : Int}
  {raw : List RawTrade} {out : List DataQuality}

/-- The rows of the table: one for each hour with trades. -/
theorem fctDataQuality_eq
    (hquery : fctDataQuality E approxQuantile vars now raw trades
      = some out) :
    ∃ counts, out = (groups FctTrade.hourKey trades).filterMap fun k =>
      qualityOf E approxQuantile counts k
        (group FctTrade.hourKey trades k) := by
  obtain ⟨counts, -, rfl⟩ := Option.map_eq_some_iff.mp hquery
  refine ⟨counts, ?_⟩
  rw [groupBy, List.filterMap_map]
  rfl

/-- The hours' counts add up to the holes of the hours. The table has
one row for each product and hour with trades, and the missing ids of an
hour are the holes between its least and its greatest id. -/
theorem sum_missing (hrows : HoursFollow p trades)
    (hquery : fctDataQuality E approxQuantile vars now raw trades
      = some out) :
    ((group DataQuality.productId out p).map
        DataQuality.tradesMissing).sum
      = ((∑ h ∈ hours p trades, (holes (hourIds trades (p, h))).card : Nat)
        : Int) := by
  obtain ⟨counts, rfl⟩ := fctDataQuality_eq hquery
  have hcolumn : (group DataQuality.productId
      ((groups FctTrade.hourKey trades).filterMap fun k =>
        qualityOf E approxQuantile counts k
          (group FctTrade.hourKey trades k)) p).map DataQuality.tradesMissing
      = (group Prod.fst (groups FctTrade.hourKey trades) p).map
          fun k => ((holes (hourIds trades k)).card : Int) := by
    refine map_group_filterMap fun k hk => ?_
    obtain ⟨q, hq, hp, a, ha, b, hb, hext, hmissing, -⟩ :=
      qualityOf_spec E approxQuantile counts hk
    refine ⟨q, hq, hp, fun hkp => ?_⟩
    obtain ⟨p', h⟩ := k
    obtain rfl : p' = p := hkp
    rw [hmissing, missing_eq_card hrows ha hb hext]
  rw [hcolumn]
  have hkeys : (group Prod.fst (groups FctTrade.hourKey trades) p).map
      (fun k => ((holes (hourIds trades k)).card : Int))
      = ((group Prod.fst (groups FctTrade.hourKey trades) p).map
          Prod.snd).map
          fun h => ((holes (hourIds trades (p, h))).card : Int) := by
    rw [List.map_map]
    refine List.map_congr_left fun k hk => ?_
    rw [Function.comp_apply, ← (mem_group.mp hk).2]
  have hnodup : ((group Prod.fst (groups FctTrade.hourKey trades) p).map
      Prod.snd).Nodup := by
    refine List.Nodup.map_on ?_ (nodup_groups.filter _)
    intro k hk k' hk' hsnd
    have hfst : k.1 = k'.1 :=
      (mem_group.mp hk).2.trans (mem_group.mp hk').2.symm
    exact Prod.ext hfst hsnd
  have hhours : ((group Prod.fst (groups FctTrade.hourKey trades) p).map
      Prod.snd).toFinset = hours p trades := by
    ext h
    rw [List.mem_toFinset, List.mem_map, mem_hours]
    constructor
    · intro hx
      obtain ⟨k, hk, hsnd⟩ := hx
      obtain ⟨hk, hfst⟩ := mem_group.mp hk
      obtain rfl : k = (p, h) := Prod.ext hfst hsnd
      exact hk
    · exact fun hk => ⟨(p, h), mem_group.mpr ⟨hk, rfl⟩, rfl⟩
  rw [hkeys, ← List.sum_toFinset _ hnodup, hhours]
  exact (Nat.cast_sum _ _).symm

/-- The hours count every missing id when each lies between two trades
of one hour. The holes of the hours are disjoint and all of them
missing, so their number is that of the missing ids when there is no
other. -/
theorem counted_iff (hrows : HoursFollow p trades)
    (hquery : fctDataQuality E approxQuantile vars now raw trades
      = some out) :
    ((group DataQuality.productId out p).map
        DataQuality.tradesMissing).sum = (missingIds p trades).card
      ↔ Enclosed p trades := by
  rw [sum_missing hrows hquery, Nat.cast_inj, missingIds, receivedIds_eq,
    sum_card_holes_eq_iff (successive_hours hrows)]
  unfold Enclosed
  rw [missingIds, receivedIds_eq]
  refine forall₂_congr fun i hi => ?_
  constructor
  · intro hx
    obtain ⟨h, hh, hih⟩ := hx
    obtain ⟨-, ⟨j, hj, hji⟩, ⟨l, hl, hil⟩⟩ := mem_holes.mp hih
    obtain ⟨a, ha, hka, rfl⟩ := mem_hourIds.mp hj
    obtain ⟨b, hb, hkb, rfl⟩ := mem_hourIds.mp hl
    exact ⟨a, ha, b, hb, congrArg Prod.fst hka, hka.trans hkb.symm, hji, hil⟩
  · intro hx
    obtain ⟨a, ha, b, hb, hp, hkey, hai, hib⟩ := hx
    have hka : a.hourKey = (p, truncate hour a.eventTime) := by
      rw [← hp]
      rfl
    have hh : truncate hour a.eventTime ∈ hours p trades :=
      mem_hours.mpr (mem_groups.mpr ⟨a, ha, hka⟩)
    refine ⟨_, hh, mem_holes.mpr ⟨fun hmem => ?_,
      ⟨_, mem_hourIds.mpr ⟨a, ha, hka, rfl⟩, hai⟩,
      ⟨_, mem_hourIds.mpr ⟨b, hb, hkey.symm.trans hka, rfl⟩, hib⟩⟩⟩
    exact (mem_holes.mp hi).1 (Finset.mem_biUnion.mpr ⟨_, hh, hmem⟩)

/-- The greater the span, the less of it was received. -/
theorem divInt64_anti {n s s' : Int} (hn : 0 < n) (hs : 0 < s)
    (h : s ≤ s') : divInt64 n s' ≤ divInt64 n s := by
  have hn' : (0 : ℚ) < n := by exact_mod_cast hn
  have hs' : (0 : ℚ) < s := by exact_mod_cast hs
  have hss : (s : ℚ) ≤ s' := by exact_mod_cast h
  have hpos := float64_pos hn'
  have hspos := float64_pos hs'
  have hspos' := float64_pos (hs'.trans_le hss)
  unfold divInt64
  apply float64_mono (by positivity)
  have hle := float64_mono hs'.le hss
  gcongr

/-- A positive share is a `FLOAT64` of a positive value. -/
theorem divInt64_pos {n s : Int} (hn : 0 < n) (hs : 0 < s) :
    ∃ r : ℚ, 0 < r ∧ divInt64 n s = float64 r := by
  have hn' := float64_pos (by exact_mod_cast hn : (0 : ℚ) < n)
  have hs' := float64_pos (by exact_mod_cast hs : (0 : ℚ) < s)
  exact ⟨_, div_pos hn' hs', rfl⟩

/-- A span that was received is no small share. -/
theorem lt_span_of_divInt64 {n s : Int} (hs : 0 < s)
    (h : divInt64 n s ≤ float64 (9999995 / 10000000)) : n < s := by
  by_contra hle
  have hone : float64 1 ≤ divInt64 n s := by
    have hs' : (0 : ℚ) < s := by exact_mod_cast hs
    have hsn : (s : ℚ) ≤ n := by exact_mod_cast not_lt.mp hle
    apply float64_mono zero_le_one
    rw [le_div_iff₀ (float64_pos hs'), one_mul]
    exact float64_mono hs'.le hsn
  have hedge : float64 (9999995 / 10000000) < float64 1 := by
    decide +kernel
  exact absurd (hone.trans h) (not_le.mpr hedge)

/-- The hour whose percentage is below 100. Any two trades of an hour
that are far enough apart do: the span of the whole hour is no smaller,
and the share is antitone in the span. -/
theorem shown_iff
    (hquery : fctDataQuality E approxQuantile vars now raw trades
      = some out) :
    (∃ q ∈ out, q.productId = p ∧ 0 < q.tradesMissing
        ∧ ∃ pct, q.completenessPct = some pct ∧ pct < 100)
      ↔ Noticeable p trades := by
  obtain ⟨counts, rfl⟩ := fctDataQuality_eq hquery
  constructor
  · intro h
    obtain ⟨q, hq, hp, _, pct, hpct, hlt⟩ := h
    obtain ⟨k, hk, hqk⟩ := List.mem_filterMap.mp hq
    obtain ⟨q', hq', hkp, a, ha, b, hb, hext, -, hspan⟩ :=
      qualityOf_spec E approxQuantile counts hk
    obtain rfl : q' = q := Option.some.inj (hq'.symm.trans hqk)
    obtain rfl := Option.some.inj (hspan.symm.trans hpct)
    obtain ⟨hamem, hka⟩ := mem_group.mp ha
    obtain ⟨hbmem, hkb⟩ := mem_group.mp hb
    have hn : (0 : Int) < (group FctTrade.hourKey trades k).length := by
      exact_mod_cast List.length_pos_of_mem ha
    have hs : 0 < b.tradeId - a.tradeId + 1 := by
      have hle := (hext b hb).1
      omega
    obtain ⟨r, hr, heq⟩ := divInt64_pos hn hs
    refine ⟨a, hamem, b, hbmem, ?_, hka.trans hkb.symm, (hext b hb).1, ?_⟩
    · rw [← hp, hkp, ← hka]
      rfl
    · rw [heq, percent_lt_iff hr] at hlt
      rw [hka, heq]
      exact hlt
  · intro h
    obtain ⟨a, ha, b, hb, hp, hkey, hab, hshare⟩ := h
    have hk : a.hourKey ∈ groups FctTrade.hourKey trades :=
      mem_groups.mpr ⟨a, ha, rfl⟩
    obtain ⟨q, hq, hkp, a', ha', b', hb', hext, hmissing, hspan⟩ :=
      qualityOf_spec E approxQuantile counts hk
    have ham := hext a (mem_group.mpr ⟨ha, rfl⟩)
    have hbm := hext b (mem_group.mpr ⟨hb, hkey.symm⟩)
    generalize hrows : (group FctTrade.hourKey trades a.hourKey).length = n
      at hshare hmissing hspan
    have hn : (0 : Int) < n := by
      rw [← hrows]
      exact_mod_cast List.length_pos_of_mem ha'
    have hs : 0 < b.tradeId - a.tradeId + 1 := by omega
    have hspan' : b.tradeId - a.tradeId + 1
        ≤ b'.tradeId - a'.tradeId + 1 := by omega
    have hshare' := (divInt64_anti hn hs hspan').trans hshare
    have hlt := lt_span_of_divInt64 (hs.trans_le hspan') hshare'
    obtain ⟨r, hr, heq⟩ := divInt64_pos hn (hs.trans_le hspan')
    refine ⟨q, List.mem_filterMap.mpr ⟨_, hk, hq⟩, hkp.trans hp, ?_, _,
      hspan, ?_⟩
    · rw [hmissing]
      omega
    · rw [heq] at hshare' ⊢
      exact (percent_lt_iff hr).mpr hshare'

/-- A product's gaps are counted and shown exactly when every missing id
lies between two trades of one hour and, if there is one, some hour
lacks a share that rounding does not hide. The two halves are
`counted_iff` and `shown_iff`. -/
theorem misses_no_gap_iff (hrows : HoursFollow p trades)
    (hquery : fctDataQuality E approxQuantile vars now raw trades
      = some out) :
    MissesNoGap p trades out
      ↔ Enclosed p trades
        ∧ ((missingIds p trades).Nonempty → Noticeable p trades) := by
  rw [← counted_iff hrows hquery, ← shown_iff hquery]
  constructor
  · exact fun h => ⟨h.counted, h.shown⟩
  · exact fun ⟨hcounted, hshown⟩ => ⟨hcounted, hshown⟩

end Table

-- ============================================================== two hours

/-- The last trade of one hour and, an id later than it should be, the
first of the next. -/
def splitTape : List FctTrade :=
  [btcFct 1 3599 100 1, btcFct 3 3600 101 1]

/-- Three of four trades of one hour. -/
def shortTape : List FctTrade :=
  [btcFct 1 10 100 1, btcFct 2 20 100 1, btcFct 4 30 101 1]

/-- `approx_quantiles`, computed exactly: the value at the rank. -/
def quantileAt (i : Nat) (xs : List Int) : Option Int :=
  (xs.mergeSort (· ≤ ·))[(xs.length - 1) * i / 100]?

/-- The table of some trades, when the raw table has been emptied. -/
def qualityTable (trades : List FctTrade) : List DataQuality :=
  (fctDataQuality Engine.inOrder quantileAt {} 0 [] trades).getD []

/-- The gap of one hour is counted and shown. -/
theorem misses_no_gap_iff_short :
    MissesNoGap "BTC-USD" shortTape (qualityTable shortTape)
      ↔ Enclosed "BTC-USD" shortTape
        ∧ ((missingIds "BTC-USD" shortTape).Nonempty →
          Noticeable "BTC-USD" shortTape) :=
  misses_no_gap_iff (E := Engine.inOrder)
    ⟨by decide +kernel, by decide +kernel⟩
    (rfl : fctDataQuality Engine.inOrder quantileAt {} 0 [] shortTape
      = some (qualityTable shortTape))

/-- The id between the hours is missing and no hour counts it. -/
theorem gap_between_hours_is_not_counted :
    HoursFollow "BTC-USD" splitTape
      ∧ fctDataQuality Engine.inOrder quantileAt {} 0 [] splitTape
        = some (qualityTable splitTape)
      ∧ missingIds "BTC-USD" splitTape = {2}
      ∧ (qualityTable splitTape).map DataQuality.tradesMissing = [0, 0]
      ∧ (qualityTable splitTape).map DataQuality.completenessPct
        = [some 100, some 100]
      ∧ ¬ MissesNoGap "BTC-USD" splitTape (qualityTable splitTape) := by
  have hcounts : (qualityTable splitTape).map DataQuality.tradesMissing
      = [0, 0] := by decide +kernel
  have hmissing : missingIds "BTC-USD" splitTape = {2} := by decide +kernel
  refine ⟨⟨by decide +kernel, by decide +kernel⟩, rfl, hmissing, hcounts,
    by decide +kernel, fun h => ?_⟩
  have hsum : ((group DataQuality.productId (qualityTable splitTape)
      "BTC-USD").map DataQuality.tradesMissing).sum = 0 := by
    decide +kernel
  have hcounted := h.counted
  rw [hsum, hmissing, Finset.card_singleton] at hcounted
  exact absurd hcounted (by decide)

end MarketPlatform.Warehouse
