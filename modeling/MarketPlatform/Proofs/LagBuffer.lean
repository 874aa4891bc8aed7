/-
The lag samples and their percentiles.

`record_lag` appends a sample and, once the buffer has more than 10,000,
deletes the oldest 5,000. `lag_percentile` sorts the buffer and takes
the sample at the share's index, cut off at the last one.

# The buffer

The buffer is the most recent end of every lag recorded. Its length
grows to 10,000 and from there goes round: the sample after that cuts it
to 5,001, and 5,000 more fill it up again. So the length after `n >
10000` samples is 5,001 and the remainder of `n - 10001` by 5,000. The
induction over the samples is `foldl_push` of `Lib/Samples`, for any
capacity and cut; `samples_foldl_recordLag` says that the counters'
buffer is that fold.

# The percentiles

A percentile is a member of the buffer that has the samples it should
have on either side of it (`Splits`): at least the share of them is at
most it, and at most the share is below it. Both come from the rank of a
sorted list's member, which has at least `i + 1` members up to it and at
most `i` below it when it stands at index `i`.

Greater shares have greater percentiles, since the index is monotone in
the share (`percentileIndex`) and the buffer is sorted. So the three
percentiles that `snapshot` writes are in their order.
-/
import Mathlib.Data.List.Sort
import MarketPlatform.Lib.Samples
import MarketPlatform.Proofs.Reporter

namespace MarketPlatform.Consumer.Counters

open Lib.Samples MetricsReporter

-- ============================================================== the buffer

theorem samples_foldl_recordLag (c : Counters) (lags : List ℚ) :
    (lags.foldl recordLag c).ingestLagSamplesMs
      = lags.foldl (push 10000 5000) c.ingestLagSamplesMs :=
  (List.foldl_hom ingestLagSamplesMs fun _ _ => rfl).symm

-- =============================================================== the index

/-- Where `lag_percentile` looks among that many samples. -/
def percentileIndex (length : Nat) (pct : ℚ) : Nat :=
  min ⌊length * pct⌋₊ (length - 1)

variable {length : Nat} {p p' : ℚ}

theorem percentileIndex_lt (hpos : 0 < length) :
    percentileIndex length p < length := by
  unfold percentileIndex
  omega

theorem percentileIndex_mono (h : p ≤ p') :
    percentileIndex length p ≤ percentileIndex length p' := by
  have hmul : (length : ℚ) * p ≤ length * p' :=
    mul_le_mul_of_nonneg_left h (Nat.cast_nonneg length)
  exact min_le_min_right _ (Nat.floor_mono hmul)

theorem percentileIndex_le (hp : 0 ≤ p) :
    (percentileIndex length p : ℚ) ≤ p * length := by
  have hfloor : (⌊length * p⌋₊ : ℚ) ≤ length * p :=
    Nat.floor_le (mul_nonneg (Nat.cast_nonneg length) hp)
  have hmin : percentileIndex length p ≤ ⌊length * p⌋₊ := min_le_left _ _
  rw [mul_comm p]
  exact (Nat.cast_le.mpr hmin).trans hfloor

/-- The share of all the samples is at most the samples up to the index,
at the last index too. -/
theorem le_percentileIndex_succ (hp : p ≤ 1) :
    p * length ≤ (percentileIndex length p + 1 : Nat) := by
  unfold percentileIndex
  rcases min_choice ⌊length * p⌋₊ (length - 1) with hmin | hmin
  · rw [hmin, mul_comm p, Nat.cast_succ]
    exact (Nat.lt_floor_add_one _).le
  · have hle : length ≤ length - 1 + 1 := by omega
    rw [hmin]
    calc p * length ≤ 1 * length :=
          mul_le_mul_of_nonneg_right hp (Nat.cast_nonneg length)
      _ = length := one_mul _
      _ ≤ (length - 1 + 1 : Nat) := Nat.cast_le.mpr hle

-- ========================================================== the percentile

variable {c : Counters}

theorem lagPercentile_eq (hne : c.ingestLagSamplesMs ≠ []) :
    ∃ h : percentileIndex c.ingestLagSamplesMs.length p
        < (c.ingestLagSamplesMs.mergeSort (· ≤ ·)).length,
      c.lagPercentile p = some (c.ingestLagSamplesMs.mergeSort (· ≤ ·))[
        percentileIndex c.ingestLagSamplesMs.length p] := by
  have hlen : (c.ingestLagSamplesMs.mergeSort (· ≤ ·)).length
      = c.ingestLagSamplesMs.length := List.length_mergeSort _
  have hindex : percentileIndex c.ingestLagSamplesMs.length p
      < (c.ingestLagSamplesMs.mergeSort (· ≤ ·)).length := by
    rw [hlen]
    exact percentileIndex_lt (List.length_pos_iff.mpr hne)
  refine ⟨hindex, ?_⟩
  unfold lagPercentile
  dsimp only
  rw [hlen]
  exact List.getElem?_eq_getElem hindex

/-- A member of the samples that splits them at a share: at least the
share is at most it, and at most the share is below it. -/
structure Splits (samples : List ℚ) (p v : ℚ) : Prop where
  mem : v ∈ samples
  upTo : p * samples.length ≤ samples.countP (· ≤ v)
  below : samples.countP (· < v) ≤ p * samples.length

/-- The percentile of a share exists and splits the samples. The sorted
copy is a permutation of the samples, so that counting in the one is
counting in the other. -/
theorem exists_lagPercentile (hne : c.ingestLagSamplesMs ≠ [])
    (hp : 0 ≤ p) (hp' : p ≤ 1) :
    ∃ v, c.lagPercentile p = some v ∧ Splits c.ingestLagSamplesMs p v := by
  obtain ⟨hi, hv⟩ := lagPercentile_eq (p := p) hne
  have hperm := List.mergeSort_perm c.ingestLagSamplesMs (· ≤ ·)
  have hsorted := List.pairwise_mergeSort' (· ≤ ·) c.ingestLagSamplesMs
  have hrank_le := rank_le hsorted hi
  have hrank_lt := rank_lt hsorted hi
  rw [hperm.countP_eq] at hrank_le hrank_lt
  refine ⟨_, hv, hperm.mem_iff.mp (List.getElem_mem hi), ?_, ?_⟩
  · exact (le_percentileIndex_succ hp').trans (Nat.cast_le.mpr hrank_le)
  · exact (Nat.cast_le.mpr hrank_lt).trans (percentileIndex_le hp)

/-- A greater share has a greater percentile, or the same. -/
theorem lagPercentile_mono {v v' : ℚ} (h : p ≤ p')
    (hv : c.lagPercentile p = some v) (hv' : c.lagPercentile p' = some v') :
    v ≤ v' := by
  have hne : c.ingestLagSamplesMs ≠ [] := by
    intro hnil
    rw [lagPercentile_eq_none_iff.mpr hnil] at hv
    cases hv
  obtain ⟨hi, heq⟩ := lagPercentile_eq (p := p) hne
  obtain ⟨hi', heq'⟩ := lagPercentile_eq (p := p') hne
  rw [heq] at hv
  rw [heq'] at hv'
  obtain rfl := Option.some.inj hv
  obtain rfl := Option.some.inj hv'
  exact getElem_mono (List.pairwise_mergeSort' (· ≤ ·) _)
    (percentileIndex_mono h) hi'

-- ============================================================ the snapshot

/-- A metric of the snapshot. -/
def metric (c : Counters) (name : String) : Option ℚ :=
  (c.snapshot.find? fun m => m.1 = name).map Prod.snd

theorem metric_percentiles (c : Counters) :
    c.metric "ingest_lag_ms.p50" = c.lagPercentile (50 / 100)
      ∧ c.metric "ingest_lag_ms.p95" = c.lagPercentile (95 / 100)
      ∧ c.metric "ingest_lag_ms.p99" = c.lagPercentile (99 / 100) := by
  have h := find?_snapshot c
  simp only [List.map_cons, List.map_nil, List.cons.injEq, and_true] at h
  exact h

/-- The buffer holds the most recent lags, and its percentiles split it,
in their order. -/
theorem lag_buffer_sound :
    (∀ lags : List ℚ, ∃ k, (k = if lags.length ≤ 10000 then lags.length
          else 5001 + (lags.length - 10001) % 5000)
        ∧ (lags.foldl recordLag {}).ingestLagSamplesMs
          = lags.drop (lags.length - k)
        ∧ (lags.foldl recordLag {}).ingestLagSamplesMs.length = k
        ∧ (10000 < lags.length → 5001 ≤ k ∧ k ≤ 10000))
      ∧ (∀ c : Counters, c.ingestLagSamplesMs ≠ [] →
        ∀ p, 0 ≤ p → p ≤ 1 → ∃ v, c.lagPercentile p = some v
          ∧ Splits c.ingestLagSamplesMs p v)
      ∧ (∀ (c : Counters) (p p' v v' : ℚ), 0 ≤ p → p ≤ p' → p' ≤ 1 →
        c.lagPercentile p = some v → c.lagPercentile p' = some v' → v ≤ v')
      ∧ ∀ c : Counters, c.ingestLagSamplesMs ≠ [] → ∃ p50 p95 p99,
        c.metric "ingest_lag_ms.p50" = some p50
          ∧ c.metric "ingest_lag_ms.p95" = some p95
          ∧ c.metric "ingest_lag_ms.p99" = some p99
          ∧ p50 ≤ p95 ∧ p95 ≤ p99 := by
  have hkept : ∀ n, kept 10000 5000 n ≤ 10000 ∧ kept 10000 5000 n ≤ n :=
    kept_le (by decide) (by decide)
  refine ⟨fun lags => ⟨kept 10000 5000 lags.length, rfl, ?_, ?_, ?_⟩,
    fun c hne p hp hp' => exists_lagPercentile hne hp hp',
    fun c p p' v v' _ h _ => lagPercentile_mono h, fun c hne => ?_⟩
  · rw [samples_foldl_recordLag]
    exact foldl_push (by decide) (by decide) lags
  · have hle := (hkept lags.length).2
    rw [samples_foldl_recordLag, foldl_push (by decide) (by decide),
      List.length_drop]
    omega
  · intro hn
    have hlow : 10000 + 1 - 5000 ≤ kept 10000 5000 lags.length := le_kept hn
    exact ⟨hlow, (hkept lags.length).1⟩
  · obtain ⟨h50, h95, h99⟩ := c.metric_percentiles
    obtain ⟨p50, hp50, -⟩ := exists_lagPercentile (p := 50 / 100) hne
      (by norm_num) (by norm_num)
    obtain ⟨p95, hp95, -⟩ := exists_lagPercentile (p := 95 / 100) hne
      (by norm_num) (by norm_num)
    obtain ⟨p99, hp99, -⟩ := exists_lagPercentile (p := 99 / 100) hne
      (by norm_num) (by norm_num)
    exact ⟨p50, p95, p99, h50.trans hp50, h95.trans hp95, h99.trans hp99,
      lagPercentile_mono (by norm_num) hp50 hp95,
      lagPercentile_mono (by norm_num) hp95 hp99⟩

end MarketPlatform.Consumer.Counters
