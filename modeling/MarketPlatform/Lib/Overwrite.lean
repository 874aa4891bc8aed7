/-
Partitioned tables.

A table is a bag of rows, partitioned by a column. A query result is
written to it in one of two ways: it becomes the whole table, or it
overwrites exactly the partitions it has rows of (`overwritten`) and the
others are kept. A partition for which the result has no row is
therefore kept as it is, whatever the query may have looked for in it.

What `overwritten` does is said partition by partition
(`group_overwritten`), and tables with the same partitions are the same
bags (`perm_of_groups`), so that a statement about a table after any
number of such writes is one about its partitions. The order of the rows
is left out of all of them.
-/
import Mathlib.Data.List.Perm.Basic
import MarketPlatform.Lib.Relation

namespace MarketPlatform.Lib.Partitioned

open Lib.Relation

variable {κ ρ : Type} [DecidableEq κ]

/-- The table with the partitions of a query result replaced. -/
def overwritten (part : ρ → κ) (rows t : List ρ) : List ρ :=
  t.filter (fun r => part r ∉ rows.map part) ++ rows

variable {part : ρ → κ} {rows t t' : List ρ} {k : κ}

/-- A partition of two tables together. -/
theorem group_append :
    group part (rows ++ t) k = group part rows k ++ group part t k :=
  List.filter_append ..

/-- A partition is empty when no row is of it. -/
theorem group_eq_nil_iff :
    group part rows k = [] ↔ ∀ r ∈ rows, part r ≠ k := by
  simp only [group, List.filter_eq_nil_iff, decide_eq_true_eq, ne_eq]

/-- A partition is the result's, if it has rows of it, and otherwise the
table's. A row of the table stays exactly when its partition is none of
the result's. -/
theorem group_overwritten :
    group part (overwritten part rows t) k
      = if group part rows k = [] then group part t k
        else group part rows k := by
  rw [overwritten, group_append]
  by_cases h : group part rows k = []
  · rw [if_pos h, h, List.append_nil, group, List.filter_filter]
    refine List.filter_congr fun r _ => ?_
    have hmem : part r = k → part r ∉ rows.map part := by
      intro hr hin
      obtain ⟨s, hs, hsr⟩ := List.mem_map.mp hin
      exact group_eq_nil_iff.mp h s hs (hsr.trans hr)
    by_cases hr : part r = k
    · simp only [hr, decide_true, Bool.true_and]
      rw [← hr]
      exact decide_eq_true (hmem hr)
    · simp only [hr, decide_false, Bool.false_and]
  · rw [if_neg h]
    have hnil : group part (t.filter fun r => part r ∉ rows.map part) k
        = [] := by
      refine group_eq_nil_iff.mpr fun r hr hrk => ?_
      obtain ⟨s, hs⟩ := List.exists_mem_of_ne_nil _ h
      obtain ⟨hs, hsk⟩ := mem_group.mp hs
      have hnot := of_decide_eq_true (List.mem_filter.mp hr).2
      exact hnot (List.mem_map.mpr ⟨s, hs, hsk.trans hrk.symm⟩)
    rw [hnil, List.nil_append]

/-- A table keeps one row for a key, when a key has one partition: a row
of the result and a row that is kept are of different partitions. -/
theorem nodup_overwritten {σ : Type} {key : ρ → σ} (on : σ → κ)
    (hrows : (rows.map key).Nodup) (ht : (t.map key).Nodup)
    (hon : ∀ r ∈ rows, part r = on (key r))
    (hon' : ∀ r ∈ t, part r = on (key r)) :
    ((overwritten part rows t).map key).Nodup := by
  rw [overwritten, List.map_append]
  refine List.nodup_append.mpr ⟨ht.sublist (List.filter_sublist.map key),
    hrows, fun a ha b hb hab => ?_⟩
  obtain ⟨r, hr, rfl⟩ := List.mem_map.mp ha
  obtain ⟨s, hs, rfl⟩ := List.mem_map.mp hb
  obtain ⟨hr, hnot⟩ := List.mem_filter.mp hr
  refine of_decide_eq_true hnot (List.mem_map.mpr ⟨s, hs, ?_⟩)
  rw [hon s hs, hon' r hr, hab]

/-- Tables whose partitions are the same bags are the same bag. -/
theorem perm_of_groups [DecidableEq ρ] (part : ρ → κ)
    (h : ∀ k, (group part t k).Perm (group part t' k)) : t.Perm t' := by
  refine List.perm_iff_count.mpr fun r => ?_
  have hcount : ∀ rows : List ρ,
      rows.count r = (group part rows (part r)).count r := fun rows =>
    (List.count_filter (by simp)).symm
  rw [hcount t, hcount t', (h (part r)).count_eq]

end MarketPlatform.Lib.Partitioned
