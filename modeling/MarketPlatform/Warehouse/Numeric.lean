/-
The warehouse's numbers.

# `NUMERIC`

A `NUMERIC` has nine fractional digits and 29 before them. A text is
cast to the nearest one, ties away from zero, or the query fails;
products and quotients are rounded the same way. Sums are exact. The
range is looked at where a text is cast and where staging multiplies;
further on it is left out.

# `FLOAT64`

A `FLOAT64` is the nearest value with 53 significant bits, ties to even.
Its exponent is not bounded: the values here are of the normal range.
The lemmas are those a comparison of two rounded values needs: the
rounding keeps the order (`float64_mono`), errs by a fraction of the
value (`float64_error`), and so tells apart what is far enough apart
(`float64_lt_iff`). They go through the binade of the value, which the
rounding does not leave but for its end (`float64_bounds`).
-/
import MarketPlatform.Lib.Numeral

namespace MarketPlatform.Warehouse

open Lib.Numeral

/-- The `NUMERIC` nearest to a value; none when it is out of range. -/
def numeric (q : ℚ) : Option ℚ :=
  if |roundAway 9 q| < 10 ^ 29 then some (roundAway 9 q) else none

/-- `cast(text as numeric)`. -/
def castNumeric (text : String) : Option ℚ :=
  parse (strip text.toList) >>= numeric

/-- `a * b`, on `NUMERIC`s. -/
def mulNumeric (a b : ℚ) : ℚ := roundAway 9 (a * b)

/-- `a / b`, on `NUMERIC`s. -/
def divNumeric (a b : ℚ) : ℚ := roundAway 9 (a / b)

/-- `safe_divide(a, b)`. -/
def safeDivide (a b : ℚ) : Option ℚ :=
  if b = 0 then none else some (divNumeric a b)

/-- The `FLOAT64` nearest to a value of its normal range. -/
def float64 (q : ℚ) : ℚ :=
  if q = 0 then 0
  else
    let e := Int.log 2 |q| - 52
    roundEven (q / 2 ^ e) * 2 ^ e

/-- A value in range is cast to its rounding. -/
theorem numeric_eq_some {q r : ℚ} (h : numeric q = some r) :
    r = roundAway 9 q := by
  unfold numeric at h
  split at h
  · exact (Option.some.inj h).symm
  · cases h

-- =============================================================== FLOAT64

/-- The rounding of a positive value, without its case of 0. -/
theorem float64_of_pos {q : ℚ} (hq : 0 < q) :
    float64 q = roundEven (q / 2 ^ (Int.log 2 q - 52))
      * 2 ^ (Int.log 2 q - 52) := by
  unfold float64
  rw [if_neg hq.ne', abs_of_pos hq]

/-- A value and its `FLOAT64` lie in the same binade, or the latter is
the end of it. -/
theorem float64_bounds {q : ℚ} (hq : 0 < q) :
    2 ^ Int.log 2 q ≤ float64 q ∧ float64 q ≤ 2 ^ (Int.log 2 q + 1) := by
  have hlow : (2 : ℚ) ^ Int.log 2 q ≤ q := by
    exact_mod_cast Int.zpow_log_le_self (R := ℚ) one_lt_two hq
  have hhigh : q < (2 : ℚ) ^ (Int.log 2 q + 1) := by
    exact_mod_cast Int.lt_zpow_succ_log_self (R := ℚ) one_lt_two q
  rw [float64_of_pos hq]
  generalize Int.log 2 q = e at hlow hhigh ⊢
  have hunit : (0 : ℚ) < 2 ^ (e - 52) := by positivity
  have he : (2 : ℚ) ^ e = ((2 ^ 52 : Int) : ℚ) * 2 ^ (e - 52) := by
    rw [zpow_sub₀ two_ne_zero]
    push_cast
    field_simp
  have he' : (2 : ℚ) ^ (e + 1) = ((2 ^ 53 : Int) : ℚ) * 2 ^ (e - 52) := by
    rw [zpow_add_one₀ two_ne_zero, he]
    push_cast
    ring
  constructor
  · have hle : (2 ^ 52 : Int) ≤ roundEven (q / 2 ^ (e - 52)) := by
      rw [← roundEven_intCast (2 ^ 52)]
      apply roundEven_mono
      rw [le_div_iff₀ hunit, ← he]
      exact hlow
    rw [he]
    gcongr
  · have hle : roundEven (q / 2 ^ (e - 52)) ≤ (2 ^ 53 : Int) := by
      rw [← roundEven_intCast (2 ^ 53)]
      apply roundEven_mono
      rw [div_le_iff₀ hunit, ← he']
      exact hhigh.le
    rw [he']
    gcongr

/-- A positive value stays positive. -/
theorem float64_pos {q : ℚ} (hq : 0 < q) : 0 < float64 q :=
  lt_of_lt_of_le (by positivity) (float64_bounds hq).1

/-- The rounding keeps the order: within a binade it is that of the
mantissas, and across binades the ends come between. -/
theorem float64_mono {q r : ℚ} (hq : 0 ≤ q) (h : q ≤ r) :
    float64 q ≤ float64 r := by
  rcases hq.eq_or_lt with rfl | hq
  · rcases h.eq_or_lt with rfl | hr
    · exact le_refl _
    · exact (float64_pos hr).le
  have hr : 0 < r := hq.trans_le h
  have hlog : Int.log 2 q ≤ Int.log 2 r := Int.log_mono_right hq h
  rcases hlog.lt_or_eq with hlt | heq
  · calc float64 q ≤ 2 ^ (Int.log 2 q + 1) := (float64_bounds hq).2
      _ ≤ 2 ^ Int.log 2 r := zpow_le_zpow_right₀ one_le_two hlt
      _ ≤ float64 r := (float64_bounds hr).1
  · rw [float64_of_pos hq, float64_of_pos hr, heq]
    have hround : roundEven (q / 2 ^ (Int.log 2 r - 52))
        ≤ roundEven (r / 2 ^ (Int.log 2 r - 52)) := by
      apply roundEven_mono
      gcongr
    gcongr

/-- A value that is not negative stays so. -/
theorem float64_nonneg {q : ℚ} (hq : 0 ≤ q) : 0 ≤ float64 q := by
  have hle := float64_mono le_rfl hq
  rwa [float64, if_pos rfl] at hle

/-- A `FLOAT64` is its own nearest one. -/
theorem float64_float64 {q : ℚ} (hq : 0 ≤ q) :
    float64 (float64 q) = float64 q := by
  rcases hq.eq_or_lt with rfl | hq
  · rfl
  obtain ⟨hlow, hhigh⟩ := float64_bounds hq
  have hpos := float64_pos hq
  have hself := float64_of_pos hq
  rw [float64_of_pos hpos]
  generalize float64 q = f at hlow hhigh hpos hself ⊢
  generalize Int.log 2 q = e at hlow hhigh hself
  rcases hhigh.lt_or_eq with hlt | heq
  · -- the same binade
    have hlog : Int.log 2 f = e := by
      apply le_antisymm
      · exact Int.lt_add_one_iff.mp
          ((Int.lt_zpow_iff_log_lt one_lt_two hpos).mp (by exact_mod_cast hlt))
      · exact (Int.zpow_le_iff_le_log one_lt_two hpos).mp
          (by exact_mod_cast hlow)
    have hunit : (2 : ℚ) ^ (e - 52) ≠ 0 := by positivity
    rw [hlog, hself, mul_div_cancel_right₀ _ hunit, roundEven_intCast]
  · -- the end of it, where the next one begins
    have hlog : Int.log 2 f = e + 1 := by
      rw [heq]
      exact_mod_cast Int.log_zpow (R := ℚ) one_lt_two (e + 1)
    have hunit : (2 : ℚ) ^ (e + 1 - 52) ≠ 0 := by positivity
    have hsplit : f = ((2 ^ 52 : Int) : ℚ) * 2 ^ (e + 1 - 52) := by
      rw [heq, zpow_sub₀ two_ne_zero]
      push_cast
      field_simp
    rw [hlog, hsplit, mul_div_cancel_right₀ _ hunit, roundEven_intCast]

/-- A `FLOAT64` errs by the `2^-53`rd part at most. -/
theorem float64_error {q : ℚ} (hq : 0 < q) :
    |float64 q - q| ≤ q / 2 ^ 53 := by
  have hlow : (2 : ℚ) ^ Int.log 2 q ≤ q := by
    exact_mod_cast Int.zpow_log_le_self (R := ℚ) one_lt_two hq
  rw [float64_of_pos hq]
  generalize Int.log 2 q = e at hlow ⊢
  have hunit : (0 : ℚ) < 2 ^ (e - 52) := by positivity
  have hround := abs_roundEven_sub_le (q / 2 ^ (e - 52))
  have hsplit : (roundEven (q / 2 ^ (e - 52)) : ℚ) * 2 ^ (e - 52) - q
      = (roundEven (q / 2 ^ (e - 52)) - q / 2 ^ (e - 52))
        * 2 ^ (e - 52) := by
    rw [sub_mul, div_mul_cancel₀ _ hunit.ne']
  have hpow : (2 : ℚ) ^ (e - 52) = 2 ^ e / 2 ^ 52 := by
    rw [zpow_sub₀ two_ne_zero]
    rfl
  rw [hsplit, abs_mul, abs_of_pos hunit]
  calc |(roundEven (q / 2 ^ (e - 52)) : ℚ) - q / 2 ^ (e - 52)|
        * 2 ^ (e - 52)
      ≤ 1 / 2 * 2 ^ (e - 52) := by gcongr
    _ = 2 ^ e / 2 ^ 53 := by
        rw [hpow]
        ring
    _ ≤ q / 2 ^ 53 := by gcongr

/-- Numbers that are far enough apart are told apart. -/
theorem float64_lt_iff {q r : ℚ} (hq : 0 < q) (hr : 0 < r)
    (hgap : q < r → q + (q + r) / 2 ^ 53 < r) :
    float64 q < float64 r ↔ q < r := by
  constructor
  · intro h
    by_contra hle
    exact (float64_mono hr.le (not_lt.mp hle)).not_gt h
  · intro h
    have hfar := hgap h
    have hup := (abs_le.mp (float64_error hq)).2
    have hdown := (abs_le.mp (float64_error hr)).1
    rw [add_div] at hfar
    linarith

/-- An integer of at most 53 bits is a `FLOAT64`. -/
theorem float64_intCast {n : Int} (hn : 0 ≤ n) (hbound : n < 2 ^ 53) :
    float64 n = n := by
  rcases hn.eq_or_lt with rfl | hn
  · simp [float64]
  have hq : (0 : ℚ) < n := by exact_mod_cast hn
  have hlog : Int.log 2 (n : ℚ) < 53 := by
    apply (Int.lt_zpow_iff_log_lt one_lt_two hq).mp
    exact_mod_cast hbound
  rw [float64_of_pos hq]
  generalize Int.log 2 (n : ℚ) = e at hlog ⊢
  have hunit : (2 : ℚ) ^ (e - 52) ≠ 0 := by positivity
  have hwhole : (n : ℚ) / 2 ^ (e - 52)
      = ((n * 2 ^ (52 - e).toNat : Int) : ℚ) := by
    have hcast : ((52 - e).toNat : Int) = 52 - e := by omega
    push_cast
    rw [← zpow_natCast, hcast, div_eq_mul_inv, ← zpow_neg, neg_sub]
  rw [hwhole, roundEven_intCast, ← hwhole, div_mul_cancel₀ _ hunit]

end MarketPlatform.Warehouse
