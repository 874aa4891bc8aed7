/-
Decimal numerals and decimal rounding.

# Numerals

`parse` reads a signed decimal numeral — digits, an optional fraction,
an optional exponent — to the rational it denotes. Digits are those of
ASCII. `spelled` stops before the value: it gives the number that the
digits make and the exponent of the last of them, which is what a bound
on exponents is about, and `parseUnsigned_eq` says that the value is the
spelling's. An exponent may be any number, since nothing here computes a
power before the value is asked for.

# Rounding

The rounding functions work on values, not on spellings: `roundAway k`
rounds to `k` fractional digits, ties away from zero, and `roundSig n
least` to `n` significant digits, none below `10^least`, ties to even. A
value that already has at most `k` fractional digits (`HasDecimals k`)
is a fixed point of `roundAway k`, and one of at most `n` digits of
`roundSig n`.

What is needed of a rounding beyond its fixed points are its order
(`roundAway_mono`, `roundEven_mono`), the comparison with a value that
needs no rounding (`le_roundAway_iff`, `roundAway_le_iff`), which turns
a threshold on rounded values into one on exact values, and its error
(`roundAway_error`, `abs_roundEven_sub_le`).
-/
import Mathlib.Algebra.Order.Field.Power
import Mathlib.Algebra.Order.Floor.Ring
import Mathlib.Data.Int.Log
import Mathlib.Data.Rat.Floor
import Mathlib.Tactic.Linarith
import Mathlib.Tactic.Positivity
import Mathlib.Tactic.FieldSimp
import Mathlib.Tactic.Ring

namespace MarketPlatform.Lib.Numeral

-- =============================================================== parsing

/-- Without white space at either end. -/
def strip (cs : List Char) : List Char :=
  ((cs.dropWhile Char.isWhitespace).reverse.dropWhile
    Char.isWhitespace).reverse

/-- The value of an ASCII digit. -/
def digit? (c : Char) : Option Nat :=
  if c.isDigit then some (c.toNat - 48) else none

/-- The longest run of digits at the head, and what follows it. -/
def spanDigits : List Char → List Nat × List Char
  | [] => ([], [])
  | c :: cs =>
      match digit? c with
      | some d => (d :: (spanDigits cs).1, (spanDigits cs).2)
      | none => ([], c :: cs)

/-- The number a digit string denotes. -/
def ofDigits (ds : List Nat) : Nat :=
  ds.foldl (fun n d => 10 * n + d) 0

/-- An optional sign, as a factor. -/
def spanSign : List Char → Int × List Char
  | '+' :: cs => (1, cs)
  | '-' :: cs => (-1, cs)
  | cs => (1, cs)

/-- `n · 10^e`. -/
def scale (n : Nat) (e : Int) : ℚ :=
  if 0 ≤ e then ((n * 10 ^ e.toNat : Nat) : ℚ)
  else (n : ℚ) / ((10 ^ (-e).toNat : Nat) : ℚ)

/-- The two cases are one power, with a whole exponent. -/
theorem scale_eq (n : Nat) (e : Int) : scale n e = n * 10 ^ e := by
  unfold scale
  by_cases he : 0 ≤ e
  · obtain ⟨k, rfl⟩ := Int.eq_ofNat_of_zero_le he
    rw [if_pos he, Int.toNat_natCast, zpow_natCast]
    push_cast
    rfl
  · obtain ⟨k, hk⟩ := Int.eq_ofNat_of_zero_le (by omega : 0 ≤ -e)
    obtain rfl : e = -k := by omega
    rw [if_neg he, neg_neg, Int.toNat_natCast, zpow_neg, zpow_natCast,
      div_eq_mul_inv]
    push_cast
    rfl

/-- What follows the digits: nothing, or an exponent. -/
def parseExponent : List Char → Option Int
  | [] => some 0
  | c :: cs =>
      if c = 'e' ∨ c = 'E' then
        match spanDigits (spanSign cs).2 with
        | ([], _) => none
        | (ds, []) => some ((spanSign cs).1 * ofDigits ds)
        | (_, _ :: _) => none
      else none

/-- An optional fraction: its digits, and what follows it. -/
def spanFraction : List Char → List Nat × List Char
  | '.' :: cs => spanDigits cs
  | cs => ([], cs)

/-- An unsigned numeral: at least one digit before or after the point. -/
def parseUnsigned (cs : List Char) : Option ℚ :=
  let whole := spanDigits cs
  let fraction := spanFraction whole.2
  if whole.1 ++ fraction.1 = [] then none
  else (parseExponent fraction.2).map fun e =>
    scale (ofDigits (whole.1 ++ fraction.1)) (e - fraction.1.length)

/-- A signed numeral, the whole text. -/
def parse (cs : List Char) : Option ℚ :=
  (parseUnsigned (spanSign cs).2).map fun q => (spanSign cs).1 * q

/-- An unsigned numeral as it is spelled: the number its digits make, and
the exponent of its last digit. -/
def spelled (cs : List Char) : Option (Nat × Int) :=
  let whole := spanDigits cs
  let fraction := spanFraction whole.2
  if whole.1 ++ fraction.1 = [] then none
  else (parseExponent fraction.2).map fun e =>
    (ofDigits (whole.1 ++ fraction.1), e - fraction.1.length)

/-- The value of a numeral is that of its spelling. -/
theorem parseUnsigned_eq (cs : List Char) :
    parseUnsigned cs = (spelled cs).map fun x => scale x.1 x.2 := by
  simp only [parseUnsigned, spelled]
  split
  · rfl
  · rw [Option.map_map]
    rfl

section Underscore

variable {cs : List Char}

/-- The digits taken hold no underscore, so one that is in the text is
in what follows them. -/
theorem notMem_of_spanDigits (h : '_' ∉ (spanDigits cs).2) : '_' ∉ cs := by
  induction cs with
  | nil => exact h
  | cons c cs ih =>
      unfold spanDigits at h
      cases hd : digit? c with
      | none =>
          rw [hd] at h
          exact h
      | some d =>
          rw [hd] at h
          refine List.not_mem_cons_of_ne_of_not_mem ?_ (ih h)
          rintro rfl
          have hnone : digit? '_' = none := by decide
          rw [hnone] at hd
          cases hd

/-- Nor is the sign one. -/
theorem notMem_of_spanSign (h : '_' ∉ (spanSign cs).2) : '_' ∉ cs := by
  unfold spanSign at h
  split at h
  · exact List.not_mem_cons_of_ne_of_not_mem (by decide) h
  · exact List.not_mem_cons_of_ne_of_not_mem (by decide) h
  · exact h

/-- Nor the point. -/
theorem notMem_of_spanFraction (h : '_' ∉ (spanFraction cs).2) :
    '_' ∉ cs := by
  unfold spanFraction at h
  split at h
  · exact List.not_mem_cons_of_ne_of_not_mem (by decide)
      (notMem_of_spanDigits h)
  · exact h

/-- An exponent has no underscore, since nothing may follow its
digits. -/
theorem notMem_of_parseExponent {e : Int} (h : parseExponent cs = some e) :
    '_' ∉ cs := by
  unfold parseExponent at h
  split at h
  · exact List.not_mem_nil
  · next c cs =>
      split at h
      · next hc =>
          have hne : '_' ≠ c := by
            rcases hc with rfl | rfl
            · decide
            · decide
          refine List.not_mem_cons_of_ne_of_not_mem hne
            (notMem_of_spanSign (notMem_of_spanDigits ?_))
          split at h
          · cases h
          · next hds => simp [hds]
          · cases h
      · cases h

/-- A numeral has no underscore. -/
theorem notMem_of_parse {q : ℚ} (h : parse cs = some q) : '_' ∉ cs := by
  obtain ⟨u, hu, -⟩ := Option.map_eq_some_iff.mp h
  simp only [parseUnsigned] at hu
  split at hu
  · cases hu
  · obtain ⟨e, he, -⟩ := Option.map_eq_some_iff.mp hu
    exact notMem_of_spanSign (notMem_of_spanDigits
      (notMem_of_spanFraction (notMem_of_parseExponent he)))

end Underscore

/-- A numeral starts with a digit or with the point. -/
theorem head_of_parseUnsigned {cs : List Char} {q : ℚ}
    (h : parseUnsigned cs = some q) :
    ∃ c rest, cs = c :: rest ∧ (c.isDigit = true ∨ c = '.') := by
  cases cs with
  | nil => simp [parseUnsigned, spanDigits, spanFraction] at h
  | cons c rest =>
      refine ⟨c, rest, rfl, ?_⟩
      by_contra hne
      obtain ⟨hdigit, hpoint⟩ := not_or.mp hne
      have hnone : digit? c = none := if_neg hdigit
      have hwhole : spanDigits (c :: rest) = ([], c :: rest) := by
        rw [spanDigits, hnone]
      have hfraction : spanFraction (c :: rest) = ([], c :: rest) := by
        unfold spanFraction
        split
        · next heq => exact absurd (List.cons.inj heq).1 hpoint
        · rfl
      simp [parseUnsigned, hwhole, hfraction] at h

/-- Such a character has no other case. -/
theorem toLower_of_head {c : Char} (h : c.isDigit = true ∨ c = '.') :
    c.toLower = c := by
  rcases h with h | rfl
  · rw [Char.isDigit, Bool.and_eq_true, decide_eq_true_eq,
      decide_eq_true_eq] at h
    unfold Char.toLower
    split
    · next hu =>
        have hA : ('A' : Char).val.toNat = 65 := rfl
        have h9 : ('9' : Char).val.toNat = 57 := rfl
        have hle := UInt32.le_iff_toNat_le.mp hu.1
        have hge := UInt32.le_iff_toNat_le.mp h.2
        omega
    · rfl
  · rfl

-- ============================================================== rounding

/-- Round to `k` fractional digits, ties away from zero. -/
def roundAway (k : Nat) (q : ℚ) : ℚ :=
  if 0 ≤ q then (⌊q * 10 ^ k + 1 / 2⌋ : ℚ) / 10 ^ k
  else -((⌊-q * 10 ^ k + 1 / 2⌋ : ℚ) / 10 ^ k)

/-- Round to an integer, ties to even. -/
def roundEven (q : ℚ) : Int :=
  let f := ⌊q⌋
  if q - f < 1 / 2 then f
  else if q - f = 1 / 2 then (if f % 2 = 0 then f else f + 1)
  else f + 1

/-- Round to `n` significant digits, none of them below `10^least`, ties
to even. -/
def roundSig (n : Nat) (least : Int) (q : ℚ) : ℚ :=
  if q = 0 then 0
  else
    let e := max (Int.log 10 |q| - (n - 1)) least
    roundEven (q / 10 ^ e) * 10 ^ e

/-- `q` is a whole number of `10^-k`s. -/
def HasDecimals (k : Nat) (q : ℚ) : Prop := ∃ n : Int, q * 10 ^ k = n

instance (k : Nat) (q : ℚ) : Decidable (HasDecimals k q) :=
  decidable_of_iff ((⌊q * 10 ^ k⌋ : ℚ) = q * 10 ^ k) <| by
    constructor
    · exact fun h => ⟨_, h.symm⟩
    · intro hx
      obtain ⟨n, hn⟩ := hx
      rw [hn, Int.floor_intCast]

/-- A whole number and a half is rounded down to it. -/
private theorem floor_half_add (n : Int) : ⌊(n : ℚ) + 1 / 2⌋ = n := by
  rw [Int.floor_intCast_add]
  norm_num

/-- A value with at most `k` decimals is its own rounding. -/
theorem roundAway_of_hasDecimals {k : Nat} {q : ℚ} (h : HasDecimals k q) :
    roundAway k q = q := by
  obtain ⟨n, hn⟩ := h
  have hk : (10 : ℚ) ^ k ≠ 0 := by positivity
  unfold roundAway
  split
  · rw [hn, floor_half_add, ← hn, mul_div_cancel_right₀ _ hk]
  · have hneg : -q * 10 ^ k = ((-n : Int) : ℚ) := by
      push_cast
      rw [← hn]
      ring
    rw [hneg, floor_half_add, ← hneg, mul_div_cancel_right₀ _ hk, neg_neg]

/-- Rounding keeps the order. -/
theorem roundAway_mono {k : Nat} {q r : ℚ} (hq : 0 ≤ q) (h : q ≤ r) :
    roundAway k q ≤ roundAway k r := by
  have hk : (0 : ℚ) ≤ 10 ^ k := by positivity
  have hfloor : ⌊q * 10 ^ k + 1 / 2⌋ ≤ ⌊r * 10 ^ k + 1 / 2⌋ := by
    apply Int.floor_mono
    gcongr
  unfold roundAway
  rw [if_pos hq, if_pos (hq.trans h)]
  gcongr

/-- Rounding does not take a value past one with `k` decimals. -/
theorem abs_roundAway_le {k : Nat} {q r : ℚ} (hr : HasDecimals k r)
    (h : |q| ≤ r) : |roundAway k q| ≤ r := by
  have hpos : ∀ a : ℚ, 0 ≤ a → a ≤ r → |roundAway k a| ≤ r := by
    intro a ha har
    have hzero : roundAway k 0 = 0 :=
      roundAway_of_hasDecimals ⟨0, by simp⟩
    rw [abs_of_nonneg (hzero ▸ roundAway_mono le_rfl ha)]
    exact (roundAway_mono ha har).trans_eq (roundAway_of_hasDecimals hr)
  obtain ⟨hlow, hhigh⟩ := abs_le.mp h
  rcases le_or_gt 0 q with hq | hq
  · exact hpos q hq hhigh
  · have hneg : roundAway k q = -roundAway k (-q) := by
      unfold roundAway
      rw [if_neg (not_le.mpr hq), if_pos (by linarith)]
    rw [hneg, abs_neg]
    exact hpos (-q) (by linarith) (by linarith)

/-- A value with `k` decimals is below the rounding of another when it is
at most half a unit above it. -/
theorem le_roundAway_iff {k : Nat} {q r : ℚ} (hq : 0 ≤ q)
    (hr : HasDecimals k r) :
    r ≤ roundAway k q ↔ r - 1 / 2 / 10 ^ k ≤ q := by
  obtain ⟨n, hn⟩ := hr
  have hk : (0 : ℚ) < 10 ^ k := by positivity
  have hhalf : (1 : ℚ) / 2 / 10 ^ k * 10 ^ k = 1 / 2 :=
    div_mul_cancel₀ _ hk.ne'
  unfold roundAway
  rw [if_pos hq, le_div_iff₀ hk, hn, Int.cast_le, Int.le_floor, ← hn,
    ← mul_le_mul_iff_of_pos_right hk (b := r - 1 / 2 / 10 ^ k), sub_mul,
    hhalf, sub_le_iff_le_add]

/-- It is above the rounding when it is more than half a unit below. -/
theorem roundAway_le_iff {k : Nat} {q r : ℚ} (hq : 0 ≤ q)
    (hr : HasDecimals k r) :
    roundAway k q ≤ r ↔ q < r + 1 / 2 / 10 ^ k := by
  obtain ⟨n, hn⟩ := hr
  have hk : (0 : ℚ) < 10 ^ k := by positivity
  have hhalf : (1 : ℚ) / 2 / 10 ^ k * 10 ^ k = 1 / 2 :=
    div_mul_cancel₀ _ hk.ne'
  unfold roundAway
  rw [if_pos hq, div_le_iff₀ hk, hn, Int.cast_le, Int.floor_le_iff, ← hn,
    ← mul_lt_mul_iff_of_pos_right hk (b := q), add_mul, hhalf]
  constructor <;> intro h <;> linarith

/-- A value with one decimal too many loses that decimal, or gains what
it lacks to ten. -/
theorem roundAway_of_succ {k : Nat} {q : ℚ} {n : Int} (hq : 0 ≤ q)
    (hn : q * 10 ^ (k + 1) = n) :
    roundAway k q * 10 ^ (k + 1) = ((10 * ((n + 5) / 10) : Int) : ℚ) := by
  have hk : (10 : ℚ) ^ k ≠ 0 := by positivity
  have hunits : q * 10 ^ k + 1 / 2 = ((n + 5 : Int) : ℚ) / ((10 : Nat) : ℚ) := by
    push_cast
    rw [← hn]
    ring
  unfold roundAway
  rw [if_pos hq, hunits, Rat.floor_intCast_div_natCast, pow_succ,
    ← mul_assoc, div_mul_cancel₀ _ hk]
  push_cast
  ring

/-- Such a value gains at most half a unit, and loses less. -/
theorem roundAway_error {k : Nat} {q : ℚ} (hq : 0 ≤ q)
    (h : HasDecimals (k + 1) q) :
    q - 4 / 10 ^ (k + 1) ≤ roundAway k q
      ∧ roundAway k q ≤ q + 5 / 10 ^ (k + 1) := by
  obtain ⟨n, hn⟩ := h
  have hk : (0 : ℚ) < 10 ^ (k + 1) := by positivity
  have hround := roundAway_of_succ hq hn
  have hlow : ((n - 4 : Int) : ℚ) ≤ ((10 * ((n + 5) / 10) : Int) : ℚ) := by
    apply Int.cast_le.mpr
    omega
  have hhigh : ((10 * ((n + 5) / 10) : Int) : ℚ) ≤ ((n + 5 : Int) : ℚ) := by
    apply Int.cast_le.mpr
    omega
  rw [← hround] at hlow hhigh
  push_cast at hlow hhigh
  rw [← hn] at hlow hhigh
  refine ⟨le_of_mul_le_mul_right ?_ hk, le_of_mul_le_mul_right ?_ hk⟩
  · rw [sub_mul, div_mul_cancel₀ _ hk.ne']
    exact hlow
  · rw [add_mul, div_mul_cancel₀ _ hk.ne']
    exact hhigh

/-- A whole number is its own rounding. -/
theorem roundEven_intCast (n : Int) : roundEven n = n := by
  unfold roundEven
  simp only [Int.floor_intCast, sub_self]
  rw [if_pos (by norm_num)]

/-- Rounding stays within the unit the value lies in. -/
theorem floor_le_roundEven (q : ℚ) :
    ⌊q⌋ ≤ roundEven q ∧ roundEven q ≤ ⌊q⌋ + 1 := by
  unfold roundEven
  dsimp only
  split
  · omega
  · split
    · split <;> omega
    · omega

/-- Rounding to even keeps the order: where the two lie in one unit the
fraction decides, and otherwise the units do. -/
theorem roundEven_mono {q r : ℚ} (h : q ≤ r) : roundEven q ≤ roundEven r := by
  rcases (Int.floor_mono h).lt_or_eq with hlt | heq
  · have hq := (floor_le_roundEven q).2
    have hr := (floor_le_roundEven r).1
    omega
  · -- within one unit the fractions decide
    have hfrac : q - ⌊q⌋ ≤ r - ⌊r⌋ := by
      rw [heq]
      linarith
    have hceil : roundEven q ≤ ⌊r⌋ + 1 := heq ▸ (floor_le_roundEven q).2
    unfold roundEven at hceil ⊢
    simp only [heq] at hfrac hceil ⊢
    rcases lt_trichotomy (r - ⌊r⌋ : ℚ) (1 / 2) with hlt | htie | hgt
    · rw [if_pos hlt, if_pos (hfrac.trans_lt hlt)]
    · have hq : ¬ (r - ⌊r⌋ : ℚ) < 1 / 2 := htie.not_lt
      rw [if_neg hq, if_pos htie]
      rw [htie] at hfrac
      rcases hfrac.lt_or_eq with hlt | heq'
      · rw [if_pos hlt]
        split <;> omega
      · rw [if_neg heq'.not_lt, if_pos heq']
    · rwa [if_neg hgt.not_gt, if_neg hgt.ne']

/-- A value of at most `n` digits, none below `10^least`, is its own
rounding. -/
theorem roundSig_eq_self {n : Nat} {least m e : Int} {q : ℚ}
    (hq : q = m * 10 ^ e) (hm : |m| < 10 ^ n) (he : least ≤ e) :
    roundSig n least q = q := by
  by_cases hzero : q = 0
  · rw [roundSig, if_pos hzero, hzero]
  · -- the leading digit is among the `n` from the last one up
    have habs : |q| < 10 ^ ((n : Int) + e) := by
      rw [hq, abs_mul, abs_of_pos (by positivity : (0 : ℚ) < 10 ^ e),
        zpow_add₀ (by norm_num), zpow_natCast]
      have hm' : |(m : ℚ)| < 10 ^ n := by exact_mod_cast hm
      gcongr
    have hlog : Int.log 10 |q| < (n : Int) + e := by
      rw [← Int.lt_zpow_iff_log_lt (by norm_num) (abs_pos.mpr hzero)]
      exact_mod_cast habs
    have hle : max (Int.log 10 |q| - (n - 1)) least ≤ e := by omega
    rw [roundSig, if_neg hzero]
    dsimp only
    generalize max (Int.log 10 |q| - (n - 1)) least = k at hle
    have hk : (10 : ℚ) ^ k ≠ 0 := by positivity
    obtain ⟨j, hj⟩ := Int.le.dest hle
    have hdigits : q / 10 ^ k = ((m * 10 ^ j : Int) : ℚ) := by
      rw [hq, ← hj, zpow_add₀ (by norm_num), zpow_natCast]
      push_cast
      field_simp
    rw [hdigits, roundEven_intCast, ← hdigits, div_mul_cancel₀ _ hk]

/-- Rounding errs by half at most. -/
theorem abs_roundEven_sub_le (q : ℚ) : |(roundEven q : ℚ) - q| ≤ 1 / 2 := by
  have hlow := Int.floor_le q
  have hhigh := Int.lt_floor_add_one q
  unfold roundEven
  dsimp only
  rw [abs_le]
  split
  · constructor <;> linarith
  · split
    · split
      · constructor <;> linarith
      · push_cast
        constructor <;> linarith
    · push_cast
      constructor <;> linarith

end MarketPlatform.Lib.Numeral
