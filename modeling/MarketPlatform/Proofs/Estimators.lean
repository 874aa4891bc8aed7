/-
How far apart the range estimators of `fct_realized_vol` are.

Parkinson's estimator sees the high and the low of a bar; Garman-Klass
sees the open and the close as well, takes their square off, and so may
come out negative, against which the query has a `greatest(…, 0)`. This
file shows that on prices in cents the two stay close: in every row of the
table, after any builds, an hour's Garman-Klass volatility is between half
and six fifths of Parkinson's (`bracketed_dbtBuildsVol`), and what is
averaged is never negative. The logarithms and roots are exact here, the
quotients of which they are taken are `FLOAT64`s.

# One bar

A close is never further from the open than the high from the low, but the
quotients are rounded before the logarithm is taken, and the smaller can
come out further from 1 than the larger, by two roundings at most
(`neg_log_le`). For prices in cents that is too little to matter: two
different prices that pass the range test differ by a billionth, so that a
range that is not nothing has a logarithm far above the rounding
(`gap_log`). Then what is taken off leaves between `1 / (16 * ln 2)` and
half of the squared range (`term_bounds`).

# An hour

Both estimators are roots of averages over the same bars
(`parkinson_eq`, `garmanKlass_eq`), so the bounds of the terms add up to
bounds of the averages and carry over to the roots (`bracketed_rows`).

# The builds

A bar has its prices in cents and in order if its trades have and pass
their tests, which is what `dbt build` asks before it writes a bar. A row
of the table is made of such bars or was there before, so every build
keeps it all (`Cented.build`).
-/
import Mathlib.Analysis.SpecialFunctions.Log.Deriv
import Mathlib.Analysis.Complex.ExponentialBounds
import MarketPlatform.Proofs.Gates
import MarketPlatform.Warehouse.Volatility

namespace MarketPlatform.Warehouse

open Lib Lib.Rfc3339 Lib.Relation Lib.Partitioned Lib.Numeral

-- ========================================================== the quotients

section Quotients

variable {o h l c : ℚ}

/-- `a / b` of two prices, cast and divided as `FLOAT64`s. -/
def ratio (a b : ℚ) : ℚ := float64 (float64 a / float64 b)

theorem ratio_pos {a b : ℚ} (ha : 0 < a) (hb : 0 < b) : 0 < ratio a b :=
  float64_pos (div_pos (float64_pos ha) (float64_pos hb))

theorem ratio_self {a : ℚ} (ha : 0 < a) : ratio a a = 1 := by
  rw [ratio, div_self (float64_pos ha).ne']
  exact_mod_cast float64_intCast (n := 1) (by decide) (by decide)

theorem ratio_mono {a a' b b' : ℚ} (hb' : 0 < b') (ha : 0 < a)
    (haa : a ≤ a') (hbb : b' ≤ b) : ratio a b ≤ ratio a' b' := by
  have hbpos := float64_pos (hb'.trans_le hbb)
  have hb'pos := float64_pos hb'
  have hapos := float64_pos ha
  have ha'pos := float64_pos (ha.trans_le haa)
  apply float64_mono (by positivity)
  have hab := float64_mono ha.le haa
  have hba := float64_mono hb'.le hbb
  gcongr

theorem one_le_ratio {a b : ℚ} (hb : 0 < b) (h : b ≤ a) :
    1 ≤ ratio a b := by
  rw [← ratio_self hb]
  exact ratio_mono hb hb h le_rfl

/-- A `FLOAT64` is short by the `2^-53`rd part at most. -/
theorem le_float64 {q : ℚ} (hq : 0 < q) :
    (1 - 1 / 2 ^ 53) * q ≤ float64 q := by
  have herror := (abs_le.mp (float64_error hq)).1
  linarith

/-- The two quotients of a bar miss being inverse by their rounding. -/
theorem le_ratio_mul_ratio (hl : 0 < l) (hlo : l ≤ o) (hlc : l ≤ c)
    (hoh : o ≤ h) :
    (1 - 1 / 2 ^ 53) ^ 2 ≤ ratio c o * ratio h l := by
  have hfo := float64_pos (hl.trans_le hlo)
  have hfc := float64_pos (hl.trans_le hlc)
  have hfh := float64_pos (hl.trans_le (hlo.trans hoh))
  have hfl := float64_pos hl
  have hclose := le_float64 (div_pos hfc hfo)
  have hhigh := le_float64 (div_pos hfh hfl)
  have hone : 1 ≤ float64 c / float64 o * (float64 h / float64 l) := by
    rw [div_mul_div_comm, one_le_div (by positivity), mul_comm (float64 o)]
    have h₁ := float64_mono hl.le hlc
    have h₂ := float64_mono (hl.trans_le hlo).le hoh
    gcongr
  calc (1 - 1 / 2 ^ 53 : ℚ) ^ 2
      ≤ (1 - 1 / 2 ^ 53) ^ 2
          * (float64 c / float64 o * (float64 h / float64 l)) :=
        le_mul_of_one_le_right (by positivity) hone
    _ = (1 - 1 / 2 ^ 53) * (float64 c / float64 o)
          * ((1 - 1 / 2 ^ 53) * (float64 h / float64 l)) := by ring
    _ ≤ ratio c o * ratio h l := by
        have hpos := (ratio_pos (hl.trans_le hlc) (hl.trans_le hlo)).le
        unfold ratio at hpos ⊢
        gcongr

/-- A billionth of a price survives the rounding. -/
theorem gap_ratio (hl : 0 < l) (hgap : l + l / 10 ^ 9 ≤ h) :
    1 + 1 / (2 * 10 ^ 9) ≤ ratio h l := by
  have hh : 0 < h := by linarith [div_pos hl (by norm_num : (0 : ℚ) < 10 ^ 9)]
  have hfl := float64_pos hl
  have hlow := (abs_le.mp (float64_error hl)).2
  have hhigh := le_float64 hh
  have hround := le_float64 (div_pos (float64_pos hh) hfl)
  refine le_trans ?_ hround
  rw [← mul_div_assoc, le_div_iff₀ hfl]
  linarith

end Quotients

-- ========================================================= the logarithms

section Logarithms

variable {o h l c : ℚ}

/-- The close is above the open by no more than the high above the low. -/
theorem log_le (hl : 0 < l) (hlo : l ≤ o) (hlc : l ≤ c) (hch : c ≤ h) :
    Real.log (ratio c o) ≤ Real.log (ratio h l) := by
  have hpos : (0 : ℝ) < ratio c o := by
    exact_mod_cast ratio_pos (hl.trans_le hlc) (hl.trans_le hlo)
  refine Real.log_le_log hpos ?_
  exact_mod_cast ratio_mono hl (hl.trans_le hlc) hch hlo

/-- And below it by no more than that and the rounding. -/
theorem neg_log_le (hl : 0 < l) (hlo : l ≤ o) (hlc : l ≤ c)
    (hoh : o ≤ h) :
    -Real.log (ratio c o) ≤ Real.log (ratio h l) + 1 / 2 ^ 51 := by
  have hco : (0 : ℝ) < ratio c o := by
    exact_mod_cast ratio_pos (hl.trans_le hlc) (hl.trans_le hlo)
  have hhl : (0 : ℝ) < ratio h l := by
    exact_mod_cast ratio_pos (hl.trans_le (hlo.trans hoh)) hl
  have hmul : ((1 - 1 / 2 ^ 53 : ℝ)) ^ 2 ≤ ratio c o * ratio h l := by
    have hle := (Rat.cast_le (K := ℝ)).mpr (le_ratio_mul_ratio hl hlo hlc hoh)
    push_cast at hle
    exact hle
  have hlog := Real.log_le_log (by norm_num) hmul
  have hunit := Real.one_sub_inv_le_log_of_pos
    (by norm_num : (0 : ℝ) < 1 - 1 / 2 ^ 53)
  rw [Real.log_mul hco.ne' hhl.ne', Real.log_pow] at hlog
  norm_num at hlog hunit ⊢
  linarith

theorem gap_log (hl : 0 < l) (hgap : l + l / 10 ^ 9 ≤ h) :
    1 / (4 * 10 ^ 9) ≤ Real.log (ratio h l) := by
  have hratio : (1 + 1 / (2 * 10 ^ 9) : ℝ) ≤ ratio h l := by
    have hle := (Rat.cast_le (K := ℝ)).mpr (gap_ratio hl hgap)
    push_cast at hle
    exact hle
  refine le_trans ?_ (Real.log_le_log (by norm_num) hratio)
  refine le_trans ?_ (Real.one_sub_inv_le_log_of_pos (by norm_num))
  norm_num

end Logarithms

-- ================================================================ one bar

/-- A price in whole cents, up to the bound of the range test. -/
structure Cents (q : ℚ) : Prop where
  decimals : HasDecimals 2 q
  le : q ≤ 10000000

/-- Different prices in cents differ by a billionth. -/
theorem Cents.gap {l h : ℚ} (hl : Cents l) (hh : Cents h) (hlh : l < h) :
    l + l / 10 ^ 9 ≤ h := by
  obtain ⟨⟨m, hm⟩, hbound⟩ := hl
  obtain ⟨⟨n, hn⟩, -⟩ := hh
  have hmn : m + 1 ≤ n := by
    have hlt : (m : ℚ) < n := by
      rw [← hm, ← hn]
      gcongr
    exact_mod_cast hlt
  have hcast : (m : ℚ) + 1 ≤ n := by exact_mod_cast hmn
  rw [← hm, ← hn] at hcast
  linarith

/-- A bar of ordered prices, its range in cents. -/
structure Bar.Quoted (b : Bar) : Prop where
  prices : OrderedPrices b.openPrice b.high b.low b.closePrice
  high : ∀ q ∈ b.high, Cents q
  low : ∀ q ∈ b.low, Cents q

/-- `ln(x)`. -/
noncomputable def naturalLog (q : ℚ) : ℝ := Real.log q

theorem naturalLog_two : naturalLog 2 = Real.log 2 :=
  congrArg Real.log (Rat.cast_ofNat 2)

namespace Return

/-- `log_hl`. -/
noncomputable def logHl (r : Return) : ℝ := naturalLog (r.highLow.getD 1)

/-- `log_co`. -/
noncomputable def logCo (r : Return) : ℝ := naturalLog (r.closeOpen.getD 1)

variable {r : Return}

theorem quotient_eq {a b : ℚ} (hb : 0 < b) :
    safeDivideFloat (some (float64 a)) (some (float64 b))
      = some (ratio a b) := if_neg (float64_pos hb).ne'

theorem quotients (h : r.bar.Quoted) :
    ∃ o hi l c, OrderedPrices (some o) (some hi) (some l) (some c)
      ∧ r.bar.high = some hi ∧ r.bar.low = some l
      ∧ r.highLow = some (ratio hi l) ∧ r.closeOpen = some (ratio c o) := by
  obtain ⟨o, hi, l, c, ho, hhi, hl, hc, hpos, hlo, hrest⟩ := h.prices
  refine ⟨o, hi, l, c, ⟨o, hi, l, c, rfl, rfl, rfl, rfl, hpos, hlo, hrest⟩,
    hhi, hl, ?_, ?_⟩
  · rw [highLow, hhi, hl]
    exact quotient_eq hpos
  · rw [closeOpen, Bar.closeFloat, hc, ho]
    exact quotient_eq (hpos.trans_le hlo)

theorem highLow_eq (h : r.bar.Quoted) :
    r.highLow = some (r.highLow.getD 1) := by
  obtain ⟨o, hi, l, c, -, -, -, hhl, -⟩ := quotients h
  rw [hhl]
  rfl

theorem gkTerm_eq (h : r.bar.Quoted) :
    gkTerm naturalLog r
      = some (1 / 2 * r.logHl ^ 2
        - (2 * Real.log 2 - 1) * r.logCo ^ 2) := by
  obtain ⟨o, hi, l, c, -, -, -, hhl, hco⟩ := quotients h
  rw [gkTerm, logHl, logCo, hhl, hco, ← naturalLog_two]
  rfl

/-- The range of a bar in cents is nothing, or more than the rounding. -/
theorem logHl_cases (h : r.bar.Quoted) :
    (r.logHl = 0 ∧ r.logCo = 0)
      ∨ 0 < r.logHl ∧ |r.logCo| ≤ 41 / 40 * r.logHl := by
  obtain ⟨o, hi, l, c, hprices, hhi, hl, hhl, hco⟩ := quotients h
  obtain ⟨_, _, _, _, ⟨⟩, ⟨⟩, ⟨⟩, ⟨⟩, hpos, hlo, hlc, hoh, hch⟩ := hprices
  rw [logHl, logCo, hhl, hco, Option.getD_some, Option.getD_some,
    naturalLog, naturalLog]
  rcases (hlo.trans hoh).eq_or_lt with rfl | hlt
  · -- every price is the same
    obtain rfl := le_antisymm hlo hoh
    obtain rfl := le_antisymm hlc hch
    left
    rw [ratio_self hpos]
    simp
  · right
    have hgap := gap_log hpos ((h.low l hl).gap (h.high hi hhi) hlt)
    have hup := log_le hpos hlo hlc hch
    have hdown := neg_log_le hpos hlo hlc hoh
    constructor
    · exact lt_of_lt_of_le (by norm_num) hgap
    · rw [abs_le]
      constructor
      · norm_num at hgap hdown ⊢
        linarith
      · norm_num at hgap ⊢
        linarith

theorem logCo_sq_le (h : r.bar.Quoted) :
    r.logCo ^ 2 ≤ (41 / 40) ^ 2 * r.logHl ^ 2 := by
  rw [← mul_pow, sq_le_sq]
  rcases logHl_cases h with ⟨hhl, hco⟩ | ⟨hpos, hle⟩
  · rw [hhl, hco, mul_zero]
  · refine hle.trans (le_abs_self _)

/-- What is taken off leaves more than a tenth of the squared range: of
it, `1 / (16 * ln 2)`. The move from open to close is at most 41/40 of
the range (`logCo_sq_le`), and `2 * ln 2 - 1` is less than 0.3863. -/
theorem term_bounds (h : r.bar.Quoted) :
    r.logHl ^ 2 / (16 * Real.log 2)
        ≤ 1 / 2 * r.logHl ^ 2 - (2 * Real.log 2 - 1) * r.logCo ^ 2
      ∧ 1 / 2 * r.logHl ^ 2 - (2 * Real.log 2 - 1) * r.logCo ^ 2
        ≤ 1 / 2 * r.logHl ^ 2 := by
  have hlow := Real.log_two_gt_d9
  have hhigh := Real.log_two_lt_d9
  have hco := logCo_sq_le h
  have hco0 : 0 ≤ r.logCo ^ 2 := by positivity
  have hhl0 : 0 ≤ r.logHl ^ 2 := by positivity
  have hoff0 : 0 ≤ (2 * Real.log 2 - 1) * r.logCo ^ 2 :=
    mul_nonneg (by linarith) hco0
  have hoff : (2 * Real.log 2 - 1) * r.logCo ^ 2
      ≤ 0.3863 * ((41 / 40) ^ 2 * r.logHl ^ 2) := by
    have hfactor : 2 * Real.log 2 - 1 ≤ 0.3863 := by linarith
    gcongr
  have hshare : r.logHl ^ 2 / (16 * Real.log 2) ≤ 0.0902 * r.logHl ^ 2 := by
    rw [div_le_iff₀ (by linarith)]
    have hone : 1 ≤ 0.0902 * (16 * Real.log 2) := by linarith
    calc r.logHl ^ 2 ≤ r.logHl ^ 2 * (0.0902 * (16 * Real.log 2)) :=
          le_mul_of_one_le_right hhl0 hone
      _ = 0.0902 * r.logHl ^ 2 * (16 * Real.log 2) := by ring
  constructor
  · linarith
  · linarith

end Return

-- =============================================================== one hour

section Hour

variable {E : Engine} {rows : List Return}

theorem filterMap_eq_map_of_eq {α β : Type} {f : α → Option β} {g : α → β}
    {xs : List α} (h : ∀ x ∈ xs, f x = some (g x)) :
    xs.filterMap f = xs.map g := by
  rw [List.filterMap_congr h, List.filterMap_eq_map']

/-- `avg(pow(log_hl, 2))` is over every bar of the hour, and so is the
average of the Garman-Klass term. -/
theorem parkinson_eq (hne : rows ≠ []) (h : ∀ r ∈ rows, r.bar.Quoted)
    (k : String × Int) :
    (realizedVolOf naturalLog Real.sqrt E k rows).volParkinson
      = some (Real.sqrt ((rows.map fun r => r.logHl ^ 2).sum / rows.length
          / (4 * Real.log 2))) := by
  have hmap : (rows.filterMap Return.highLow).map
        (fun q => naturalLog q ^ 2)
      = rows.map fun r => r.logHl ^ 2 := by
    rw [filterMap_eq_map_of_eq fun r hr => Return.highLow_eq (h r hr),
      List.map_map]
    rfl
  have hlog : 4 * naturalLog 2 ≠ 0 := by
    have hpos := Real.log_two_gt_d9
    rw [naturalLog_two]
    linarith
  show (avg _).bind _ = _
  rw [hmap, avg, if_neg (by simpa using hne), Option.bind_some,
    if_neg hlog, List.length_map, naturalLog_two]

theorem garmanKlass_eq (hne : rows ≠ []) (h : ∀ r ∈ rows, r.bar.Quoted)
    (k : String × Int) :
    (realizedVolOf naturalLog Real.sqrt E k
        rows).volGarmanKlass
      = some (Real.sqrt (max ((rows.map fun r => 1 / 2 * r.logHl ^ 2
          - (2 * Real.log 2 - 1) * r.logCo ^ 2).sum / rows.length) 0)) := by
  show (avg _).map _ = _
  rw [filterMap_eq_map_of_eq fun r hr => Return.gkTerm_eq (h r hr), avg,
    if_neg (by simpa using hne), Option.map_some, List.length_map]

/-- The estimators of an hour, near each other. -/
structure Bracketed (v : RealizedVol ℝ) : Prop where
  bars : 1 ≤ v.barCount
  estimators : ∃ p g, v.volParkinson = some p ∧ v.volGarmanKlass = some g
    ∧ 0 ≤ g ∧ p ≤ 2 * g ∧ 5 * g ≤ 6 * p

/-- The sums of the terms are as far apart as the terms. -/
theorem sum_term_bounds (h : ∀ r ∈ rows, r.bar.Quoted) :
    (rows.map fun r => r.logHl ^ 2).sum / (16 * Real.log 2)
        ≤ (rows.map fun r => 1 / 2 * r.logHl ^ 2
          - (2 * Real.log 2 - 1) * r.logCo ^ 2).sum
      ∧ (rows.map fun r => 1 / 2 * r.logHl ^ 2
          - (2 * Real.log 2 - 1) * r.logCo ^ 2).sum
        ≤ (rows.map fun r => r.logHl ^ 2).sum / 2 := by
  induction rows with
  | nil => simp
  | cons r rows ih =>
      obtain ⟨hr, hrows⟩ := List.forall_mem_cons.mp h
      obtain ⟨hlow, hhigh⟩ := Return.term_bounds hr
      obtain ⟨ihlow, ihhigh⟩ := ih hrows
      simp only [List.map_cons, List.sum_cons]
      constructor
      · rw [add_div]
        exact add_le_add hlow ihlow
      · linarith

-- Of the sums over an hour only three things are used: the number of the
-- bars, that the squares are not negative, and the bounds of the terms.
variable {squares terms n : ℝ}

/-- The first estimate is at most twice the second: the terms are at least
a quarter of the squares over `4 * ln 2`. -/
theorem parkinson_le (hn : 0 < n)
    (hlow : squares / (16 * Real.log 2) ≤ terms) (hterms : 0 ≤ terms) :
    Real.sqrt (squares / n / (4 * Real.log 2))
      ≤ 2 * Real.sqrt (terms / n) := by
  have hlog := Real.log_two_gt_d9
  rw [Real.sqrt_le_iff]
  refine ⟨by positivity, ?_⟩
  rw [mul_pow, Real.sq_sqrt (by positivity)]
  have hshare : squares / (4 * Real.log 2) ≤ 4 * terms := by
    rw [div_le_iff₀ (by positivity)] at hlow ⊢
    linarith
  calc squares / n / (4 * Real.log 2)
      = squares / (4 * Real.log 2) / n := by ring
    _ ≤ 4 * terms / n := by gcongr
    _ = 2 ^ 2 * (terms / n) := by ring

/-- The second is at most six fifths of the first: a term is at most half
a square, and `2 * ln 2` is less than 1.44. -/
theorem garmanKlass_le (hn : 0 < n) (hsq : 0 ≤ squares)
    (hhigh : terms ≤ squares / 2) :
    5 * Real.sqrt (terms / n)
      ≤ 6 * Real.sqrt (squares / n / (4 * Real.log 2)) := by
  have hlog := Real.log_two_gt_d9
  have hlog' := Real.log_two_lt_d9
  have hroot : Real.sqrt (terms / n)
      ≤ 6 / 5 * Real.sqrt (squares / n / (4 * Real.log 2)) := by
    rw [Real.sqrt_le_iff]
    refine ⟨by positivity, ?_⟩
    rw [mul_pow, Real.sq_sqrt (by positivity)]
    have hshare : terms ≤ (6 / 5) ^ 2 * (squares / (4 * Real.log 2)) := by
      refine hhigh.trans ?_
      rw [← mul_div_assoc, div_le_div_iff₀ (by norm_num) (by positivity)]
      have hle : squares * (4 * Real.log 2) ≤ squares * 2.88 := by
        gcongr
        linarith
      linarith
    calc terms / n
        ≤ (6 / 5) ^ 2 * (squares / (4 * Real.log 2)) / n := by gcongr
      _ = (6 / 5) ^ 2 * (squares / n / (4 * Real.log 2)) := by ring
  linarith

/-- The row of an hour of bars in cents. Both estimates are roots of sums
over its returns; the average of the terms is not negative, so that
`greatest` changes nothing. -/
theorem bracketed_rows (hne : rows ≠ []) (h : ∀ r ∈ rows, r.bar.Quoted)
    (k : String × Int) :
    Bracketed (realizedVolOf naturalLog Real.sqrt E k rows) := by
  obtain ⟨hlow, hhigh⟩ := sum_term_bounds h
  have hlog := Real.log_two_gt_d9
  have hn : (0 : ℝ) < rows.length := by
    exact_mod_cast List.length_pos_of_ne_nil hne
  have hsq : 0 ≤ (rows.map fun r => r.logHl ^ 2).sum := by
    refine List.sum_nonneg fun x hx => ?_
    obtain ⟨r, -, rfl⟩ := List.mem_map.mp hx
    positivity
  have hterms := le_trans (by positivity) hlow
  refine ⟨List.length_pos_of_ne_nil hne, _, _, parkinson_eq hne h k,
    garmanKlass_eq hne h k, Real.sqrt_nonneg _, ?_, ?_⟩
  · rw [max_eq_left (div_nonneg hterms hn.le)]
    exact parkinson_le hn hlow hterms
  · rw [max_eq_left (div_nonneg hterms hn.le)]
    exact garmanKlass_le hn hsq hhigh

/-- The rows of the query, of bars in cents. -/
theorem bracketed_of_mem {bars : List Bar} (h : ∀ b ∈ bars, b.Quoted)
    {v : RealizedVol ℝ}
    (hv : v ∈ fctRealizedVol naturalLog Real.sqrt E bars) : Bracketed v := by
  obtain ⟨k, hk, rfl⟩ := mem_groupBy.mp hv
  refine bracketed_rows (group_ne_nil_iff.mpr hk) (fun r hr => ?_) k
  obtain ⟨b, hb, rfl⟩ := List.mem_map.mp (mem_group.mp hr).1
  exact h b hb

end Hour

-- ================================================================= builds

section Builds

variable {vars : Vars} {history : List Delivery} {m : VolMarts ℝ}
  {i : Invocation}

/-- Bars of valid trades with prices in cents are quoted. -/
theorem quoted_of_mem_fctBars1m {E : Engine} {trades : List FctTrade}
    (hvalid : ∀ t ∈ trades, t.Valid) (hcents : ∀ t ∈ trades, Cents t.price)
    {b : Bar} (hb : b ∈ fctBars1m E trades) : b.Quoted := by
  have hprices := (coherent_of_mem_fctBars1m hvalid hb).prices
  obtain ⟨k, -, rfl⟩ := mem_groupBy.mp hb
  have hmem : ∀ q ∈ (group FctTrade.barKey trades k).map FctTrade.price,
      Cents q := by
    intro q hq
    obtain ⟨t, ht, rfl⟩ := List.mem_map.mp hq
    exact hcents t (mem_group.mp ht).1
  exact ⟨hprices, fun q hq => hmem q (mem_of_maxOf hq),
    fun q hq => hmem q (mem_of_minOf hq)⟩

/-- What every build keeps, over raw prices in cents. -/
structure Cented (m : VolMarts ℝ) : Prop where
  trades : ∀ ts ∈ m.trades, ∀ t ∈ ts, HasDecimals 2 t.price
  bars1m : ∀ bars ∈ m.bars1m, ∀ b ∈ bars, b.Quoted
  realizedVol : ∀ vs ∈ m.realizedVol, ∀ v ∈ vs, Bracketed v

/-- The price of a staged trade is that of a raw row. -/
theorem decimals_of_staged
    (hraw : ∀ d ∈ history, ∀ s ∈ derived d.row, HasDecimals 2 s.price)
    {staged : List StgTrade} (h : i.staged vars history = some staged)
    {s : StgTrade} (hs : s ∈ staged) : HasDecimals 2 s.price := by
  obtain ⟨d, hd, hderived⟩ :=
    derived_of_mem_shown ((firsts_staged h).mem s hs)
  exact hraw d hd s hderived

/-- The trades of a run come of raw rows, or were there. -/
theorem Cented.of_mem_runTrades (hm : Cented m)
    (hraw : ∀ d ∈ history, ∀ s ∈ derived d.row, HasDecimals 2 s.price)
    {staged : List StgTrade} (h : i.staged vars history = some staged) :
    ∀ t ∈ m.runTrades vars i staged, HasDecimals 2 t.price := by
  refine forall_materialize hm.trades fun inc t ht => ?_
  obtain ⟨s, hs, rfl⟩ := List.mem_map.mp ht
  exact decimals_of_staged hraw h (mem_of_mem_windowed hs)

/-- The minute bars of a run are of trades in cents that have passed their
tests, and so are no dearer than the range test lets them be. -/
theorem Cented.of_mem_runBars1m (hm : Cented m) {trades : List FctTrade}
    (htrades : ∀ t ∈ trades, HasDecimals 2 t.price)
    (hpass : TradesPass i.approxQuantile vars i.now trades) :
    ∀ b ∈ m.runBars1m vars i trades, b.Quoted := by
  have hcents : ∀ t ∈ trades, Cents t.price := by
    intro t ht
    have hrange := expressionIsTrue_eq_nil_iff.mp hpass.priceBetween t ht
    simp only [ne_eq, Option.some.injEq, Bool.and_eq_false_iff,
      decide_eq_false_iff_not, not_or, not_not] at hrange
    exact ⟨htrades t ht, hrange.2⟩
  refine forall_materialize hm.bars1m fun inc b hb => ?_
  exact quoted_of_mem_fctBars1m
    (fun t ht => hpass.valid t (mem_of_mem_windowed ht))
    (fun t ht => hcents t (mem_of_mem_windowed ht)) hb

/-- The volatilities of a run are of such bars, or were there. -/
theorem Cented.of_mem_runRealizedVol (hm : Cented m) {bars : List Bar}
    (hquoted : ∀ b ∈ bars, b.Quoted) :
    ∀ v ∈ runRealizedVol naturalLog Real.sqrt vars i bars m.realizedVol,
      Bracketed v := by
  have hquery : ∀ inc, ∀ v ∈ fctRealizedVol naturalLog Real.sqrt i.engine
      (windowed vars i.now inc Bar.eventDate bars), Bracketed v :=
    fun inc v hv => bracketed_of_mem
      (fun b hb => hquoted b (mem_of_mem_windowed hb)) hv
  intro v hv
  unfold runRealizedVol at hv
  split at hv
  · next t hold _ =>
      rcases List.mem_append.mp hv with hv | hv
      · exact hm.realizedVol t hold v (List.mem_filter.mp hv).1
      · exact hquery true v hv
  · exact hquery false v hv

/-- One build keeps it. Each table is what its run has made, if the tests
before it have passed, and is left alone otherwise. -/
theorem Cented.build (hm : Cented m)
    (hraw : ∀ d ∈ history, ∀ s ∈ derived d.row, HasDecimals 2 s.price) :
    Cented (dbtBuildVol naturalLog Real.sqrt vars history m i) := by
  unfold dbtBuildVol
  split
  · next staged hstaged =>
      have htrades := hm.of_mem_runTrades hraw hstaged
      refine ⟨?_, ?_, ?_⟩
      · intro ts hts
        simp only [Marts.afterTrades, Marts.afterBars] at hts
        split at hts
        · split at hts <;> exact Option.some.inj hts ▸ htrades
        · exact Option.some.inj hts ▸ htrades
      · intro bars hbars
        simp only [Marts.afterTrades, Marts.afterBars] at hbars
        split at hbars
        · next hpass =>
            have hquoted := hm.of_mem_runBars1m htrades hpass
            split at hbars <;> exact Option.some.inj hbars ▸ hquoted
        · exact hm.bars1m bars hbars
      · intro vs hvs
        dsimp only at hvs
        split at hvs
        · next hpass =>
            exact Option.some.inj hvs ▸ hm.of_mem_runRealizedVol
              (hm.of_mem_runBars1m htrades hpass.1)
        · exact hm.realizedVol vs hvs
  · exact hm

/-- Over any builds, on raw prices in whole cents: every row of
`fct_realized_vol` has both range estimators, Garman-Klass's at least half
and at most six fifths of Parkinson's.

By induction over the builds: a row is made of an hour of bars of trades
that have passed their tests (`bracketed_rows`), or it is older. -/
theorem bracketed_dbtBuildsVol (vars : Vars) (history : List Delivery)
    (hraw : ∀ d ∈ history, ∀ s ∈ derived d.row, HasDecimals 2 s.price)
    (is : List Invocation) :
    ∀ vs ∈ (dbtBuildsVol naturalLog Real.sqrt vars history {}
      is).realizedVol, ∀ v ∈ vs, Bracketed v := by
  have hkept : ∀ m : VolMarts ℝ, Cented m →
      Cented (dbtBuildsVol naturalLog Real.sqrt vars history m is) := by
    induction is with
    | nil => exact fun m hm => hm
    | cons i is ih => exact fun m hm => ih _ (hm.build hraw)
  refine (hkept {} ⟨?_, ?_, ?_⟩).realizedVol
  all_goals
    intro t ht
    cases ht

/-- A build of the day of the loss, whose prices are in whole dollars,
writes two hours. -/
theorem bracketed_dbtBuildsVol_gap :
    ∃ vs, (dbtBuildsVol naturalLog Real.sqrt {} gapDay {}
        [buildAt 12]).realizedVol = some vs
      ∧ vs.length = 2 ∧ ∀ v ∈ vs, Bracketed v := by
  have hraw : ∀ d ∈ gapDay, ∀ s ∈ derived d.row, HasDecimals 2 s.price := by
    have hwhole : ∀ d ∈ gapDay, ∀ s ∈ derived d.row,
        s.price * 10 ^ 2 = ((s.price.num * 100 : Int) : ℚ) := by
      decide +kernel
    exact fun d hd s hs => ⟨s.price.num * 100, hwhole d hd s hs⟩
  have hlength : (dbtBuildsVol naturalLog Real.sqrt {} gapDay {}
      [buildAt 12]).realizedVol.map List.length = some 2 := by
    decide +kernel
  obtain ⟨vs, hvs, hcount⟩ := Option.map_eq_some_iff.mp hlength
  exact ⟨vs, hvs, hcount,
    bracketed_dbtBuildsVol {} gapDay hraw [buildAt 12] vs hvs⟩

end Builds

end MarketPlatform.Warehouse
