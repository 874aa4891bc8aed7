/-
A bounded buffer of samples, and the ranks of its order statistics.

# The buffer

`push` appends a sample, and where the buffer then exceeds its capacity
cuts a fixed number off its old end. What is left is always the most
recent end of everything pushed (`foldl_push`), of a length that grows
to the capacity and then goes round (`kept`). The length is a function
of the number of samples pushed alone, since neither the cut nor the
test looks at the samples: from the first cut on it is what a cut leaves
and the remainder of the samples since, modulo the cut.

# The ranks

The element at an index of the sorted samples has as many samples at
most it, and as few below it, as the index says (`rank_le`, `rank_lt`).
Equal samples are counted on both sides, so the two bounds are what an
order statistic promises when values may repeat.
-/
import Mathlib.Data.List.Induction
import Mathlib.Order.Lattice
import Mathlib.Tactic.Common

namespace MarketPlatform.Lib.Samples

variable {α : Type} {capacity cut : Nat}

-- ============================================================= the buffer

/-- Append a sample; past the capacity the oldest `cut` go. -/
def push (capacity cut : Nat) (buffer : List α) (x : α) : List α :=
  if (buffer ++ [x]).length > capacity then (buffer ++ [x]).drop cut
  else buffer ++ [x]

/-- How many of the samples pushed are still there. -/
def kept (capacity cut n : Nat) : Nat :=
  if n ≤ capacity then n
  else capacity + 1 - cut + (n - (capacity + 1)) % cut

/-- Never more than the capacity, nor than were pushed. -/
theorem kept_le (hpos : 0 < cut) (hcut : cut ≤ capacity + 1) (n : Nat) :
    kept capacity cut n ≤ capacity ∧ kept capacity cut n ≤ n := by
  unfold kept
  split
  case isTrue hn => exact ⟨hn, Nat.le_refl n⟩
  case isFalse hn =>
    have hmod : (n - (capacity + 1)) % cut < cut := Nat.mod_lt _ hpos
    have hle : (n - (capacity + 1)) % cut ≤ n - (capacity + 1) :=
      Nat.mod_le _ _
    omega

/-- From beyond the capacity on, the length stays above what one cut
leaves. -/
theorem le_kept {n : Nat} (hn : capacity < n) :
    capacity + 1 - cut ≤ kept capacity cut n := by
  unfold kept
  rw [if_neg (by omega)]
  omega

/-- The remainder of the next number. -/
theorem succ_mod (hpos : 0 < cut) (m : Nat) :
    (m + 1) % cut = if m % cut + 1 = cut then 0 else m % cut + 1 := by
  have hlt : m % cut < cut := Nat.mod_lt _ hpos
  rw [← Nat.mod_add_mod]
  split
  case isTrue h => rw [h, Nat.mod_self]
  case isFalse h => exact Nat.mod_eq_of_lt (by omega)

/-- One more sample is kept, or the cut is made. -/
theorem kept_succ (hpos : 0 < cut) (hcut : cut ≤ capacity + 1) (n : Nat) :
    kept capacity cut (n + 1)
      = if kept capacity cut n + 1 > capacity
        then kept capacity cut n + 1 - cut else kept capacity cut n + 1 := by
  unfold kept
  by_cases hn : n + 1 ≤ capacity
  · rw [if_pos hn, if_pos (by omega : n ≤ capacity), if_neg (by omega)]
  · rw [if_neg hn]
    by_cases hn' : n ≤ capacity
    · -- the capacity is exceeded for the first time
      have hfirst : n + 1 - (capacity + 1) = 0 := by omega
      rw [if_pos hn', if_pos (by omega), hfirst, Nat.zero_mod]
      omega
    · have hsub : n + 1 - (capacity + 1) = n - (capacity + 1) + 1 := by omega
      have hlt : (n - (capacity + 1)) % cut < cut := Nat.mod_lt _ hpos
      rw [if_neg hn', hsub, succ_mod hpos]
      split
      case isTrue hwrap => rw [if_pos (by omega)]; omega
      case isFalse hgrow => rw [if_neg (by omega)]; omega

/-- The buffer is the most recent end of everything pushed. By induction
from the right: one more sample appends to it, and past the capacity
cuts its oldest off, which `kept_succ` counts. -/
theorem foldl_push (hpos : 0 < cut) (hcut : cut ≤ capacity + 1)
    (xs : List α) :
    xs.foldl (push capacity cut) []
      = xs.drop (xs.length - kept capacity cut xs.length) := by
  induction xs using List.reverseRecOn with
  | nil => rfl
  | append_singleton xs x ih =>
      obtain ⟨-, hle⟩ := kept_le hpos hcut xs.length
      have hlen : (xs.drop (xs.length - kept capacity cut xs.length)
          ++ [x]).length = kept capacity cut xs.length + 1 := by
        rw [List.length_append, List.length_drop, List.length_singleton]
        omega
      have hend : xs.drop (xs.length - kept capacity cut xs.length) ++ [x]
          = (xs ++ [x]).drop
            (xs.length - kept capacity cut xs.length) :=
        (List.drop_append_of_le_length (by omega)).symm
      rw [List.foldl_append, List.foldl_cons, List.foldl_nil, ih, push, hlen,
        List.length_append, List.length_singleton, kept_succ hpos hcut, hend]
      split
      case isTrue hfull =>
        rw [List.drop_drop]
        congr 1
        omega
      case isFalse hroom =>
        congr 1
        omega

-- ================================================================ the ranks

section Rank

variable [LinearOrder α] {ordered : List α} {i j : Nat}

/-- A later sample in the order is no smaller. -/
theorem getElem_mono (h : ordered.Pairwise (· ≤ ·)) (hij : i ≤ j)
    (hj : j < ordered.length) : ordered[i] ≤ ordered[j] := by
  rcases Nat.eq_or_lt_of_le hij with rfl | hlt
  · exact le_refl _
  · exact List.pairwise_iff_getElem.mp h i j _ hj hlt

/-- The samples up to an index are at most the one there. -/
theorem rank_le (h : ordered.Pairwise (· ≤ ·)) (hi : i < ordered.length) :
    i + 1 ≤ ordered.countP (· ≤ ordered[i]) := by
  have hall : ∀ x ∈ ordered.take (i + 1), x ≤ ordered[i] := by
    intro x hx
    obtain ⟨j, hj, rfl⟩ := List.mem_iff_getElem.mp hx
    rw [List.length_take] at hj
    rw [List.getElem_take]
    exact getElem_mono h (by omega) hi
  generalize ordered[i] = v at hall ⊢
  have htake : (ordered.take (i + 1)).countP (· ≤ v)
      = (ordered.take (i + 1)).length :=
    List.countP_eq_length.mpr fun x hx => decide_eq_true (hall x hx)
  have hsub : (ordered.take (i + 1)).countP (· ≤ v)
      ≤ ordered.countP (· ≤ v) :=
    (List.take_sublist (i + 1) ordered).countP_le
  rw [htake, List.length_take] at hsub
  omega

/-- Only the samples before an index are below the one there. -/
theorem rank_lt (h : ordered.Pairwise (· ≤ ·)) (hi : i < ordered.length) :
    ordered.countP (· < ordered[i]) ≤ i := by
  have hnone : ∀ x ∈ ordered.drop i, ¬ x < ordered[i] := by
    intro x hx
    obtain ⟨j, hj, rfl⟩ := List.mem_iff_getElem.mp hx
    rw [List.length_drop] at hj
    rw [List.getElem_drop, not_lt]
    exact getElem_mono h (by omega) (by omega)
  generalize ordered[i] = v at hnone ⊢
  have hdrop : (ordered.drop i).countP (· < v) = 0 :=
    List.countP_eq_zero.mpr fun x hx => by simpa using hnone x hx
  have htake : (ordered.take i).countP (· < v) ≤ (ordered.take i).length :=
    List.countP_le_length
  rw [List.length_take] at htake
  rw [← List.take_append_drop i ordered, List.countP_append, hdrop]
  omega

end Rank

end MarketPlatform.Lib.Samples
