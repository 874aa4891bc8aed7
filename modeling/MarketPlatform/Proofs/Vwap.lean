/-
The average of a bar and the range of its trades.

The volume-weighted average of prices lies between the lowest and the
highest of them. The average of `fct_bars_1m` is computed from sums of
notionals, and a notional is a product that is rounded to the nine
digits of NUMERIC; the quotient of the two sums is rounded once more.
This module says how far the average can leave the range.

# One trade

The exchange's prices have two decimals and its sizes eight (`Priced`),
so a product has ten, and rounding concerns its last digit alone: a
trade gains at most five units of the tenth decimal, or loses at most
four (`notional_le`, `le_notional`). A tie is rounded up, hence the
difference. Only the trades that were rounded up gain, and only those
rounded down lose.

# The bar

The quotient inherits these errors over the total size
(`NearRange.above`, `NearRange.below`). They stay inside the rounding of
the quotient unless the bar is nothing but dust: the average is not
above the highest price when the trades that were rounded up number less
than the volume, nor below the lowest when those rounded down number at
most five quarters of it (`vwap_near_range`). A single trade of the
least size shows that the average does leave the range
(`dust_leaves_the_range`), in either direction.
-/
import MarketPlatform.Proofs.SameBar

namespace MarketPlatform.Warehouse

open Lib Lib.Numeral Lib.Rfc3339 Lib.Relation

-- ================================================================= a trade

/-- A trade that staging derived, at a positive price of at most two
decimals and a positive size of at most eight. -/
structure Priced (t : FctTrade) : Prop where
  staged : ∃ r st, derived r = some st ∧ t = FctTrade.ofStaged st
  price_pos : 0 < t.price
  price_decimals : HasDecimals 2 t.price
  size_pos : 0 < t.size
  size_decimals : HasDecimals 8 t.size

/-- The notional was rounded up. -/
def FctTrade.roundedUp (t : FctTrade) : Bool := t.price * t.size < t.notional

/-- The notional was rounded down. -/
def FctTrade.roundedDown (t : FctTrade) : Bool :=
  t.notional < t.price * t.size

/-- The notional of a staged trade is its rounded product. -/
theorem notional_of_derived {r : RawTrade} {st : StgTrade}
    (h : derived r = some st) :
    st.notional = mulNumeric st.price st.size := by
  simp only [derived, Option.bind_eq_bind, Option.bind_eq_some_iff,
    Option.pure_def, Option.some.injEq] at h
  obtain ⟨price, -, size, -, _, -, _, -, notional, hnotional, rfl⟩ := h
  exact numeric_eq_some hnotional

namespace Priced

variable {t : FctTrade}

theorem notional_eq (h : Priced t) :
    t.notional = roundAway 9 (t.price * t.size) := by
  obtain ⟨r, st, hst, rfl⟩ := h.staged
  exact notional_of_derived hst

theorem product_pos (h : Priced t) : 0 < t.price * t.size :=
  mul_pos h.price_pos h.size_pos

theorem product_decimals (h : Priced t) :
    HasDecimals 10 (t.price * t.size) := by
  obtain ⟨m, hm⟩ := h.price_decimals
  obtain ⟨n, hn⟩ := h.size_decimals
  refine ⟨m * n, ?_⟩
  push_cast
  rw [← hm, ← hn]
  ring

/-- Only a trade that was rounded up gains, and at most five units. -/
theorem notional_le (h : Priced t) :
    t.notional ≤ t.price * t.size
      + 5 / 10 ^ 10 * (if t.roundedUp then 1 else 0) := by
  have herror := (roundAway_error h.product_pos.le h.product_decimals).2
  rw [← h.notional_eq] at herror
  unfold FctTrade.roundedUp
  by_cases hup : t.price * t.size < t.notional
  · rw [if_pos (decide_eq_true hup), mul_one]
    exact herror
  · rw [if_neg (by simpa using hup), mul_zero, add_zero]
    exact not_lt.mp hup

/-- Only a trade that was rounded down loses, and at most four units. -/
theorem le_notional (h : Priced t) :
    t.price * t.size - 4 / 10 ^ 10 * (if t.roundedDown then 1 else 0)
      ≤ t.notional := by
  have herror := (roundAway_error h.product_pos.le h.product_decimals).1
  rw [← h.notional_eq] at herror
  unfold FctTrade.roundedDown
  by_cases hdown : t.notional < t.price * t.size
  · rw [if_pos (decide_eq_true hdown), mul_one]
    exact herror
  · rw [if_neg (by simpa using hdown), mul_zero, sub_zero]
    exact not_lt.mp hdown

end Priced

-- ============================================================== the totals

/-- The total notional exceeds the highest price times the volume by what
the trades that were rounded up gained. -/
theorem sum_notional_le {rows : List FctTrade} {high : ℚ}
    (hrows : ∀ t ∈ rows, Priced t) (hhigh : ∀ t ∈ rows, t.price ≤ high) :
    (rows.map FctTrade.notional).sum
      ≤ high * (rows.map FctTrade.size).sum
        + 5 / 10 ^ 10 * rows.countP FctTrade.roundedUp := by
  induction rows with
  | nil => simp
  | cons t rows ih =>
      have ht := hrows t List.mem_cons_self
      have hrest := ih (fun u hu => hrows u (List.mem_cons_of_mem _ hu))
        fun u hu => hhigh u (List.mem_cons_of_mem _ hu)
      have hone := ht.notional_le
      have hprice : t.price * t.size ≤ high * t.size :=
        mul_le_mul_of_nonneg_right (hhigh t List.mem_cons_self) ht.size_pos.le
      simp only [List.map_cons, List.sum_cons, List.countP_cons]
      push_cast
      linarith

/-- It falls short of the lowest price times the volume by what the trades
that were rounded down lost. -/
theorem le_sum_notional {rows : List FctTrade} {low : ℚ}
    (hrows : ∀ t ∈ rows, Priced t) (hlow : ∀ t ∈ rows, low ≤ t.price) :
    low * (rows.map FctTrade.size).sum
        - 4 / 10 ^ 10 * rows.countP FctTrade.roundedDown
      ≤ (rows.map FctTrade.notional).sum := by
  induction rows with
  | nil => simp
  | cons t rows ih =>
      have ht := hrows t List.mem_cons_self
      have hrest := ih (fun u hu => hrows u (List.mem_cons_of_mem _ hu))
        fun u hu => hlow u (List.mem_cons_of_mem _ hu)
      have hone := ht.le_notional
      have hprice : low * t.size ≤ t.price * t.size :=
        mul_le_mul_of_nonneg_right (hlow t List.mem_cons_self) ht.size_pos.le
      simp only [List.map_cons, List.sum_cons, List.countP_cons]
      push_cast
      linarith

theorem sum_size_pos {rows : List FctTrade} (hne : rows ≠ [])
    (hrows : ∀ t ∈ rows, Priced t) : 0 < (rows.map FctTrade.size).sum := by
  apply List.sum_pos
  · intro x hx
    obtain ⟨t, ht, rfl⟩ := List.mem_map.mp hx
    exact (hrows t ht).size_pos
  · exact fun h => hne (List.map_eq_nil_iff.mp h)

theorem sum_notional_nonneg {rows : List FctTrade}
    (hrows : ∀ t ∈ rows, Priced t) :
    0 ≤ (rows.map FctTrade.notional).sum := by
  apply List.sum_nonneg
  intro x hx
  obtain ⟨t, ht, rfl⟩ := List.mem_map.mp hx
  have hzero : roundAway 9 0 = 0 :=
    roundAway_of_hasDecimals ⟨0, by norm_num⟩
  rw [(hrows t ht).notional_eq, ← hzero]
  exact roundAway_mono le_rfl (hrows t ht).product_pos.le

-- ================================================================= the bar

/-- The average of a bar is the rounded quotient of its totals, which
leaves the range of its prices by the rounding of the notionals alone. -/
structure NearRange (b : Bar) (up down : Nat) (low high q : ℚ) : Prop where
  lowest : b.low = some low
  highest : b.high = some high
  quotient : q = b.quoteVolume / b.volume
  vwap : b.vwap = some (roundAway 9 q)
  above : low - 4 / 10 ^ 10 * ((down : ℚ) / b.volume) ≤ q
  below : q ≤ high + 5 / 10 ^ 10 * ((up : ℚ) / b.volume)
  low_le_iff : low ≤ roundAway 9 q ↔ low - 1 / 2 / 10 ^ 9 ≤ q
  le_high_iff : roundAway 9 q ≤ high ↔ q < high + 1 / 2 / 10 ^ 9
  low_le : 4 * down ≤ 5 * b.volume → low ≤ roundAway 9 q
  le_high : up < b.volume → roundAway 9 q ≤ high

theorem hasDecimals_of_le {j k : Nat} {q : ℚ} (h : HasDecimals j q)
    (hle : j ≤ k) : HasDecimals k q := by
  obtain ⟨n, hn⟩ := h
  refine ⟨n * 10 ^ (k - j), ?_⟩
  push_cast
  rw [← hn, mul_assoc, ← pow_add, Nat.add_sub_cancel' hle]

/-- The bar of priced trades: its totals are within the errors of its
notionals of the range times the volume, and dividing by the volume
keeps that. -/
theorem nearRange_barOf (E : Engine) (k : String × Int)
    {rows : List FctTrade} (hne : rows ≠ [])
    (hrows : ∀ t ∈ rows, Priced t) :
    ∃ low high q, NearRange (barOf E k rows)
      (rows.countP FctTrade.roundedUp) (rows.countP FctTrade.roundedDown)
      low high q := by
  obtain ⟨t, ht⟩ := List.exists_mem_of_ne_nil rows hne
  have hprice : t.price ∈ rows.map FctTrade.price := List.mem_map_of_mem ht
  obtain ⟨low, hlow⟩ := exists_minOf hprice
  obtain ⟨high, hhigh⟩ := exists_maxOf hprice
  have hle : ∀ u ∈ rows, low ≤ u.price := fun u hu =>
    (minOf_eq_some_iff.mp hlow).2 _ (List.mem_map_of_mem hu)
  have hge : ∀ u ∈ rows, u.price ≤ high := fun u hu =>
    (maxOf_eq_some_iff.mp hhigh).2 _ (List.mem_map_of_mem hu)
  have hdecimals : ∀ p ∈ rows.map FctTrade.price, HasDecimals 9 p := by
    intro p hp
    obtain ⟨u, hu, rfl⟩ := List.mem_map.mp hp
    exact hasDecimals_of_le (hrows u hu).price_decimals (by omega)
  have hvolume := sum_size_pos hne hrows
  have hq : 0 ≤ (rows.map FctTrade.notional).sum
      / (rows.map FctTrade.size).sum :=
    div_nonneg (sum_notional_nonneg hrows) hvolume.le
  have habove := le_sum_notional hrows hle
  have hbelow := sum_notional_le hrows hge
  have hlowiff := le_roundAway_iff hq (hdecimals low (mem_of_minOf hlow))
  have hhighiff := roundAway_le_iff hq (hdecimals high (mem_of_maxOf hhigh))
  refine ⟨low, high, _, {
    lowest := hlow
    highest := hhigh
    quotient := rfl
    vwap := if_neg hvolume.ne'
    above := ?_
    below := ?_
    low_le_iff := hlowiff
    le_high_iff := hhighiff
    low_le := fun h => hlowiff.mpr ?_
    le_high := fun h => hhighiff.mpr ?_ }⟩
  · show low - _ * (_ / (rows.map FctTrade.size).sum)
      ≤ _ / (rows.map FctTrade.size).sum
    rw [le_div_iff₀ hvolume, sub_mul, mul_assoc,
      div_mul_cancel₀ _ hvolume.ne']
    exact habove
  · show _ / (rows.map FctTrade.size).sum
      ≤ high + _ * (_ / (rows.map FctTrade.size).sum)
    rw [div_le_iff₀ hvolume, add_mul, mul_assoc,
      div_mul_cancel₀ _ hvolume.ne']
    exact hbelow
  · have h' : 4 * (rows.countP FctTrade.roundedDown : ℚ)
        ≤ 5 * (rows.map FctTrade.size).sum := h
    rw [le_div_iff₀ hvolume]
    linarith
  · have h' : (rows.countP FctTrade.roundedUp : ℚ)
        < (rows.map FctTrade.size).sum := h
    rw [div_lt_iff₀ hvolume]
    linarith

/-- The average of every bar of priced trades lies in the range of its
prices up to the rounding of their notionals: it is not below the range
if the trades that were rounded down number at most five quarters of the
volume, nor above it if those rounded up number less than the volume. -/
theorem vwap_near_range (E : Engine) (rows : List FctTrade) (b : Bar)
    (hb : b ∈ fctBars1m E rows)
    (hpriced : ∀ t ∈ group FctTrade.barKey rows b.key, Priced t) :
    ∃ low high q, NearRange b
      ((group FctTrade.barKey rows b.key).countP FctTrade.roundedUp)
      ((group FctTrade.barKey rows b.key).countP FctTrade.roundedDown)
      low high q := by
  obtain ⟨k, hk, rfl⟩ := mem_groupBy.mp hb
  exact nearRange_barOf E k (group_ne_nil_iff.mpr hk) hpriced

/-- A trade of BTC-USD of the given texts. -/
def btcRaw (tradeId : Int) (price size : String) : RawTrade where
  sequence := tradeId
  productId := "BTC-USD"
  tradeId := tradeId
  price := price
  size := size
  side := "sell"
  makerOrderId := ""
  takerOrderId := ""
  eventTime := .other "1970-01-01T00:00:01Z"
  ingestTime := .other "1970-01-01T00:00:01Z"

/-- What the marts make of such trades. -/
def tradedAt (rows : List RawTrade) : List FctTrade :=
  fctTrades (rows.filterMap derived)

/-- Decidable evidence that such trades are priced. -/
theorem priced_tradedAt {rows : List RawTrade}
    (h : ∀ t ∈ tradedAt rows, 0 < t.price ∧ HasDecimals 2 t.price
      ∧ 0 < t.size ∧ HasDecimals 8 t.size) :
    ∀ t ∈ tradedAt rows, Priced t := by
  intro t ht
  obtain ⟨hprice, hprice2, hsize, hsize8⟩ := h t ht
  obtain ⟨st, hst, rfl⟩ := List.mem_map.mp ht
  obtain ⟨r, -, hr⟩ := List.mem_filterMap.mp hst
  exact ⟨⟨r, st, hr, rfl⟩, hprice, hprice2, hsize, hsize8⟩

/-- A block and a dust trade of one minute. -/
def blockAndDust : List FctTrade :=
  tradedAt [btcRaw 1 "60000.04" "2", btcRaw 2 "60000.05" "0.00000001"]

def blockBar : Bar := barOf Engine.inOrder ("BTC-USD", 0) blockAndDust

/-- The average keeps to the range that the dust alone would leave. -/
theorem vwap_near_range_block :
    ∃ low high q, NearRange blockBar 1 0 low high q
      ∧ low ≤ roundAway 9 q ∧ roundAway 9 q ≤ high := by
  have hgroup : group FctTrade.barKey blockAndDust blockBar.key
      = blockAndDust := by decide +kernel
  have hbar : blockBar ∈ fctBars1m Engine.inOrder blockAndDust := by
    decide +kernel
  have hpriced : ∀ t ∈ blockAndDust, Priced t :=
    priced_tradedAt (by decide +kernel)
  have hup : blockAndDust.countP FctTrade.roundedUp = 1 := by decide +kernel
  have hdown : blockAndDust.countP FctTrade.roundedDown = 0 := by
    decide +kernel
  obtain ⟨low, high, q, h⟩ := vwap_near_range Engine.inOrder blockAndDust
    blockBar hbar fun t ht => hpriced t (mem_group.mp ht).1
  rw [hgroup, hup, hdown] at h
  exact ⟨low, high, q, h, h.low_le (by decide +kernel),
    h.le_high (by decide +kernel)⟩

/-- One trade of the least size: its notional of 0.0006000005 is rounded
up, and the average is above the only price of the bar; at a price one
cent lower it is rounded down, and the average is below. -/
theorem dust_leaves_the_range :
    (∀ t ∈ tradedAt [btcRaw 1 "60000.05" "0.00000001"], Priced t)
      ∧ (∃ b ∈ fctBars1m Engine.inOrder
          (tradedAt [btcRaw 1 "60000.05" "0.00000001"]),
        b.high = some (1200001 / 20) ∧ b.vwap = some (600001 / 10)
          ∧ (1200001 / 20 : ℚ) < 600001 / 10)
      ∧ (∀ t ∈ tradedAt [btcRaw 1 "60000.04" "0.00000001"], Priced t)
      ∧ ∃ b ∈ fctBars1m Engine.inOrder
          (tradedAt [btcRaw 1 "60000.04" "0.00000001"]),
        b.low = some (1500001 / 25) ∧ b.vwap = some 60000
          ∧ (60000 : ℚ) < 1500001 / 25 := by
  refine ⟨priced_tradedAt ?_, ?_, priced_tradedAt ?_, ?_⟩
  · decide +kernel
  · decide +kernel
  · decide +kernel
  · decide +kernel

end MarketPlatform.Warehouse
