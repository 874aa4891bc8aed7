/-
Queries over bags of rows.

# What a query leaves open

A table is a list of rows whose order means nothing. What a query leaves
open — which of several rows tied for a place comes first — is settled
by an `Engine`, so a result about every engine is one about every order
the rows may lie in. An engine sees the tied rows and nothing else, and
must take one of them if there are any; that any of them may be taken is
`exists_pick`, and a column is settled for all engines exactly when the
tied rows agree on it (`forall_last_iff`). Where a key tells the rows
apart there is no choice (`first_congr`, `last_congr`).

# Aggregates

`groupBy` is `group by`, and lists one result for each value of the
partition. Its lemmas come in three kinds: what one group holds
(`group_groupBy`, `find?_groupBy`), what a further aggregate makes of
the results (`sum_groupBy`, `maxOf_groupBy`, `first_groupBy`: rolling
up), and that nothing depends on the order of the rows (`groupBy_perm`).

# Rows that come first

`firstBy` is `row_number() over (partition by part order by key) = 1`.
What later proofs use of it is `Firsts`: one row of every part, with
none of its part before it. That says which rows there are and not in
what order, and two such lists are the same bag where ties are alike
(`Firsts.perm`).

# Joins

`fullOuterJoin` lists the matches of two tables and what has none on
either side. Where no side has a key twice the join has none either
(`nodup_keys_fullOuterJoin`).
-/
import Mathlib.Algebra.BigOperators.Group.List.Basic
import Mathlib.Algebra.GroupWithZero.Nat
import Mathlib.Data.List.Dedup
import Mathlib.Data.Prod.Lex
import Mathlib.Order.OrderDual
import Mathlib.Order.WithBot
import Mathlib.Data.List.MinMax
import Mathlib.Data.Finset.Max

namespace MarketPlatform.Lib.Relation

variable {α β γ κ τ : Type}

-- ================================================================ engines

/-- How ties are settled: a choice among the tied rows, which takes one
of them whenever there are any. -/
structure Engine where
  pick : {α : Type} → List α → Option α
  mem_of_pick : ∀ {α : Type} {rows : List α} {a : α},
    pick rows = some a → a ∈ rows
  pick_isSome : ∀ {α : Type} {rows : List α}, rows ≠ [] →
    (pick rows).isSome

/-- The engine that takes tied rows in the order they lie in. -/
def Engine.inOrder : Engine where
  pick := List.head?
  mem_of_pick := List.mem_of_head?
  pick_isSome := fun h => List.isSome_head?.mpr h

/-- The engine that takes the last of tied rows. -/
def Engine.inReverse : Engine where
  pick := List.getLast?
  mem_of_pick := List.mem_of_getLast?
  pick_isSome := fun h => List.getLast?_isSome.mpr h

/-- The engine that takes the row at a place among the tied, or else the
last. -/
def Engine.nth (i : Nat) : Engine where
  pick := fun rows => rows[min i (rows.length - 1)]?
  mem_of_pick := List.mem_of_getElem?
  pick_isSome := fun {_ rows} h => by
    have hpos : 0 < rows.length := List.length_pos_iff.mpr h
    have hlt : min i (rows.length - 1) < rows.length := by omega
    rw [List.getElem?_eq_getElem hlt]
    rfl

/-- Any of the tied rows may be taken. -/
theorem exists_pick {rows : List α} {a : α} (h : a ∈ rows) :
    ∃ E : Engine, E.pick rows = some a := by
  obtain ⟨i, hi, ha⟩ := List.mem_iff_getElem.mp h
  refine ⟨Engine.nth i, ?_⟩
  have hmin : min i (rows.length - 1) = i := by omega
  show rows[min i (rows.length - 1)]? = some a
  rw [hmin, List.getElem?_eq_getElem hi, ha]

section Order

variable [LinearOrder τ]

/-- The rows tied for the least key. -/
def least (key : α → τ) (rows : List α) : List α :=
  rows.filter fun r => rows.all fun s => key r ≤ key s

/-- A row is tied for the least key when no row has a lesser one. -/
theorem mem_least {key : α → τ} {rows : List α} {a : α} :
    a ∈ least key rows ↔ a ∈ rows ∧ ∀ s ∈ rows, key a ≤ key s := by
  simp only [least, List.mem_filter, List.all_eq_true, decide_eq_true_eq]

/-- Of rows there are, some are tied for the least key. -/
theorem least_ne_nil {key : α → τ} {rows : List α} (h : rows ≠ []) :
    least key rows ≠ [] := by
  have hsome : (rows.argmin key).isSome := by
    rw [Option.isSome_iff_ne_none, ne_eq, List.argmin_eq_none]
    exact h
  obtain ⟨a, ha⟩ := Option.isSome_iff_exists.mp hsome
  refine List.ne_nil_of_mem (mem_least.mpr ⟨List.argmin_mem ha, ?_⟩)
  exact fun s hs => List.le_of_mem_argmin hs ha

/-- The row numbered 1 in ascending order of the key. -/
def Engine.first (E : Engine) (key : α → τ) (rows : List α) : Option α :=
  E.pick (least key rows)

/-- The row numbered 1 in descending order of the key. -/
def Engine.last (E : Engine) (key : α → τ) (rows : List α) : Option α :=
  E.first (fun r => OrderDual.toDual (key r)) rows

/-- The rows tied for the greatest key. -/
def greatest (key : α → τ) (rows : List α) : List α :=
  least (fun r => OrderDual.toDual (key r)) rows

variable {E : Engine} {key : α → τ} {rows : List α} {a : α}

/-- The first row is a row. -/
theorem mem_of_first (h : E.first key rows = some a) : a ∈ rows :=
  (mem_least.mp (E.mem_of_pick h)).1

/-- No row is before it. -/
theorem first_le (h : E.first key rows = some a) {s : α} (hs : s ∈ rows) :
    key a ≤ key s :=
  (mem_least.mp (E.mem_of_pick h)).2 s hs

variable (E key) in
/-- There is one unless there are no rows. -/
theorem exists_first (h : rows ≠ []) : ∃ a, E.first key rows = some a :=
  Option.isSome_iff_exists.mp (E.pick_isSome (least_ne_nil h))

/-- The last row is a row. -/
theorem mem_of_last (h : E.last key rows = some a) : a ∈ rows :=
  mem_of_first h

/-- No row is after it. -/
theorem le_last (h : E.last key rows = some a) {s : α} (hs : s ∈ rows) :
    key s ≤ key a :=
  first_le h hs

variable (E key) in
/-- There is one unless there are no rows. -/
theorem exists_last (h : rows ≠ []) : ∃ a, E.last key rows = some a :=
  exists_first E _ h

/-- Only a table without rows has no first. -/
theorem first_eq_none_iff : E.first key rows = none ↔ rows = [] := by
  constructor
  · intro h
    by_contra hne
    obtain ⟨a, ha⟩ := exists_first E key hne
    rw [ha] at h
    cases h
  · rintro rfl
    cases h : E.first key ([] : List α) with
    | none => rfl
    | some a => cases mem_of_first h

/-- A row is tied for the greatest key when no row has a greater one. -/
theorem mem_greatest :
    a ∈ greatest key rows ↔ a ∈ rows ∧ ∀ s ∈ rows, key s ≤ key a :=
  mem_least

/-- Tied rows of two selections from one table are the same list if they
have the same members. -/
theorem greatest_filter_congr {υ : Type} [LinearOrder υ] {key' : α → υ}
    {p q : α → Bool}
    (h : ∀ x ∈ rows, x ∈ greatest key (rows.filter p)
      ↔ x ∈ greatest key' (rows.filter q)) :
    greatest key (rows.filter p) = greatest key' (rows.filter q) := by
  simp only [greatest, least, List.filter_filter] at h ⊢
  refine List.filter_congr fun x hx => ?_
  have hx' := h x hx
  rw [List.mem_filter, List.mem_filter] at hx'
  exact Bool.eq_iff_iff.mpr
    ⟨fun hp => (hx'.mp ⟨hx, hp⟩).2, fun hq => (hx'.mpr ⟨hx, hq⟩).2⟩

/-- Only a table without rows has no last. -/
theorem last_eq_none_iff : E.last key rows = none ↔ rows = [] :=
  first_eq_none_iff

/-- A column of the last row has one value for every engine exactly when
the tied rows agree on it. -/
theorem forall_last_iff {f : α → Option β} {v : Option β} :
    (∀ E : Engine, (E.last key rows).bind f = v)
      ↔ (rows = [] → v = none) ∧ ∀ a ∈ greatest key rows, f a = v := by
  constructor
  · intro h
    refine ⟨fun hnil => ?_, fun a ha => ?_⟩
    · rw [← h Engine.inOrder, last_eq_none_iff.mpr hnil]
      rfl
    · obtain ⟨E, hE⟩ := exists_pick ha
      have hlast : E.last key rows = some a := hE
      rw [← h E, hlast, Option.bind_some]
  · intro hx E
    obtain ⟨hnil, hties⟩ := hx
    cases hE : E.last key rows with
    | none => exact (hnil (last_eq_none_iff.mp hE)).symm
    | some a => exact hties a (E.mem_of_pick hE)

/-- The only row with the least key is the first. -/
theorem first_eq_some
    (hinj : ∀ a ∈ rows, ∀ b ∈ rows, key a = key b → a = b) (ha : a ∈ rows)
    (hleast : ∀ s ∈ rows, key a ≤ key s) : E.first key rows = some a := by
  obtain ⟨b, hb⟩ := exists_first E key (List.ne_nil_of_mem ha)
  have hmem := mem_of_first hb
  rw [hb, hinj b hmem a ha (le_antisymm (first_le hb ha) (hleast b hmem))]

/-- The only row with the greatest key is the last. -/
theorem last_eq_some
    (hinj : ∀ a ∈ rows, ∀ b ∈ rows, key a = key b → a = b) (ha : a ∈ rows)
    (hgreatest : ∀ s ∈ rows, key s ≤ key a) : E.last key rows = some a :=
  first_eq_some hinj ha hgreatest

/-- A key that tells the rows apart leaves no choice. -/
theorem first_congr {E' : Engine} {rows' : List α} (hperm : rows.Perm rows')
    (hinj : ∀ a ∈ rows, ∀ b ∈ rows, key a = key b → a = b) :
    E.first key rows = E'.first key rows' := by
  by_cases hnil : rows = []
  · rw [first_eq_none_iff.mpr hnil,
      first_eq_none_iff.mpr (hnil ▸ hperm).nil_eq.symm]
  · have hnil' : rows' ≠ [] := fun h => hnil (h ▸ hperm).eq_nil
    obtain ⟨a, ha⟩ := exists_first E key hnil
    obtain ⟨b, hb⟩ := exists_first E' key hnil'
    have hamem := mem_of_first ha
    have hbmem := hperm.mem_iff.mpr (mem_of_first hb)
    have hab : key a = key b :=
      le_antisymm (first_le ha hbmem) (first_le hb (hperm.mem_iff.mp hamem))
    rw [ha, hb, hinj a hamem b hbmem hab]

/-- A column that the key determines is settled without the engine, also
over rows that were computed from others. -/
theorem first_map {E' : Engine} {f : β → α} {rows' : List β}
    (hinj : ∀ a ∈ rows', ∀ b ∈ rows', key (f a) = key (f b) → f a = f b) :
    E.first key (rows'.map f)
      = (E'.first (fun b => key (f b)) rows').map f := by
  by_cases hnil : rows' = []
  · subst hnil
    rw [first_eq_none_iff.mpr rfl, first_eq_none_iff.mpr List.map_nil]
    rfl
  · obtain ⟨a, ha⟩ := exists_first E key
      (mt List.map_eq_nil_iff.mp hnil : rows'.map f ≠ [])
    obtain ⟨b, hb⟩ := exists_first E' (fun b => key (f b)) hnil
    obtain ⟨a', ha', rfl⟩ := List.mem_map.mp (mem_of_first ha)
    have hle : key (f a') ≤ key (f b) :=
      first_le ha (List.mem_map_of_mem (mem_of_first hb))
    have hab : key (f a') = key (f b) := le_antisymm hle (first_le hb ha')
    rw [ha, hb, Option.map_some, hinj a' ha' b (mem_of_first hb) hab]

/-- The same of the last row. -/
theorem last_map {E' : Engine} {f : β → α} {rows' : List β}
    (hinj : ∀ a ∈ rows', ∀ b ∈ rows', key (f a) = key (f b) → f a = f b) :
    E.last key (rows'.map f)
      = (E'.last (fun b => key (f b)) rows').map f :=
  first_map hinj

/-- The same of the last row. -/
theorem last_congr {E' : Engine} {rows' : List α} (hperm : rows.Perm rows')
    (hinj : ∀ a ∈ rows, ∀ b ∈ rows, key a = key b → a = b) :
    E.last key rows = E'.last key rows' :=
  first_congr hperm hinj

end Order

-- ============================================================== extrema

section Extrema

variable [LinearOrder α] {xs ys : List α} {a : α}

/-- `max` of a column: null when it is empty. -/
def maxOf (xs : List α) : Option α := xs.argmax id

/-- `min` of a column. -/
def minOf (xs : List α) : Option α := xs.argmin id

/-- The maximum is a value that no other exceeds. -/
theorem maxOf_eq_some_iff :
    maxOf xs = some a ↔ a ∈ xs ∧ ∀ b ∈ xs, b ≤ a := by
  unfold maxOf
  constructor
  · exact fun h => ⟨List.argmax_mem h, fun b hb => List.le_of_mem_argmax hb h⟩
  · intro hx
    obtain ⟨ha, hmax⟩ := hx
    cases h : xs.argmax id with
    | none => rw [List.argmax_eq_none.mp h] at ha; cases ha
    | some b =>
        have hab : a ≤ b := List.le_of_mem_argmax ha h
        rw [le_antisymm hab (hmax b (List.argmax_mem h))]

/-- The minimum is a value that no other is below. -/
theorem minOf_eq_some_iff :
    minOf xs = some a ↔ a ∈ xs ∧ ∀ b ∈ xs, a ≤ b :=
  maxOf_eq_some_iff (α := OrderDual α)

/-- The maximum is one of the values. -/
theorem mem_of_maxOf (h : maxOf xs = some a) : a ∈ xs :=
  (maxOf_eq_some_iff.mp h).1

/-- The minimum is one of the values. -/
theorem mem_of_minOf (h : minOf xs = some a) : a ∈ xs :=
  (minOf_eq_some_iff.mp h).1

/-- A column that is not empty has a maximum. -/
theorem exists_maxOf (h : a ∈ xs) : ∃ m, maxOf xs = some m := by
  refine Option.ne_none_iff_exists'.mp fun hnone => ?_
  rw [List.argmax_eq_none.mp hnone] at h
  cases h

/-- And a minimum. -/
theorem exists_minOf (h : a ∈ xs) : ∃ m, minOf xs = some m :=
  exists_maxOf (α := OrderDual α) h

/-- The maximum depends on which values there are, not on how often. -/
theorem maxOf_congr (h : ∀ b, b ∈ xs ↔ b ∈ ys) : maxOf xs = maxOf ys := by
  refine Option.ext fun a => ?_
  rw [maxOf_eq_some_iff, maxOf_eq_some_iff, h]
  simp only [h]

/-- So does the minimum. -/
theorem minOf_congr (h : ∀ b, b ∈ xs ↔ b ∈ ys) : minOf xs = minOf ys :=
  maxOf_congr (α := OrderDual α) h

/-- The key of the first row is the least. -/
theorem minOf_map {E : Engine} {key : γ → α} {rows : List γ} :
    minOf (rows.map key) = (E.first key rows).map key := by
  by_cases hnil : rows = []
  · rw [first_eq_none_iff.mpr hnil, hnil]
    rfl
  · obtain ⟨r, hr⟩ := exists_first E key hnil
    rw [hr, Option.map_some, minOf_eq_some_iff]
    refine ⟨List.mem_map_of_mem (mem_of_first hr), fun b hb => ?_⟩
    obtain ⟨s, hs, rfl⟩ := List.mem_map.mp hb
    exact first_le hr hs

/-- The key of the last row is the greatest. -/
theorem maxOf_map {E : Engine} {key : γ → α} {rows : List γ} :
    maxOf (rows.map key) = (E.last key rows).map key :=
  minOf_map (α := OrderDual α)

end Extrema

section Sorted

variable [LinearOrder τ] {E : Engine} {key : α → τ} {rows : List α}

/-- The first of rows that lie in the order of the key. -/
theorem head?_of_pairwise
    (hsorted : rows.Pairwise fun a b => key a ≤ key b)
    (hinj : ∀ a ∈ rows, ∀ b ∈ rows, key a = key b → a = b) :
    rows.head? = E.first key rows := by
  cases rows with
  | nil => exact (first_eq_none_iff.mpr rfl).symm
  | cons r rows =>
      obtain ⟨a, ha⟩ := exists_first E key (List.cons_ne_nil r rows)
      have hle : key a ≤ key r := first_le ha List.mem_cons_self
      have hge : key r ≤ key a := by
        rcases List.mem_cons.mp (mem_of_first ha) with rfl | hmem
        · exact le_refl _
        · exact (List.pairwise_cons.mp hsorted).1 a hmem
      rw [ha, List.head?_cons, hinj r List.mem_cons_self a (mem_of_first ha)
        (le_antisymm hge hle)]

/-- And the last of them. -/
theorem getLast?_of_pairwise
    (hsorted : rows.Pairwise fun a b => key a ≤ key b)
    (hinj : ∀ a ∈ rows, ∀ b ∈ rows, key a = key b → a = b) :
    rows.getLast? = E.last key rows := by
  have hmem : ∀ {a}, a ∈ rows.reverse → a ∈ rows := List.mem_reverse.mp
  have hreverse : rows.reverse.Pairwise fun a b =>
      OrderDual.toDual (key a) ≤ OrderDual.toDual (key b) :=
    List.pairwise_reverse.mpr hsorted
  rw [List.getLast?_eq_head?_reverse, head?_of_pairwise (E := E) hreverse
    fun a ha b hb hab => hinj a (hmem ha) b (hmem hb) hab]
  exact last_congr (List.reverse_perm rows)
    fun a ha b hb => hinj a (hmem ha) b (hmem hb)

end Sorted

-- ================================================================ columns

/-- A column computed by a cast: the query fails where the cast does. -/
theorem mapM_eq_some_iff {f : α → Option β} {rows : List α}
    {out : List β} :
    rows.mapM f = some out
      ↔ (∀ r ∈ rows, (f r).isSome) ∧ rows.filterMap f = out := by
  induction rows generalizing out with
  | nil => simp
  | cons r rows ih =>
      rw [List.mapM_cons, List.forall_mem_cons, List.filterMap_cons]
      cases hr : f r with
      | none => simp
      | some b =>
          simp only [Option.bind_eq_bind, Option.bind_some,
            Option.bind_eq_some_iff, Option.pure_def, Option.some.injEq,
            Option.isSome_some, true_and]
          constructor
          · intro h
            obtain ⟨bs, hbs, rfl⟩ := h
            obtain ⟨hsome, rfl⟩ := ih.mp hbs
            exact ⟨hsome, rfl⟩
          · intro h
            obtain ⟨hsome, rfl⟩ := h
            exact ⟨_, ih.mpr ⟨hsome, rfl⟩, rfl⟩

/-- And what is made of the whole column. -/
theorem map_mapM_eq_some_iff {γ : Type} {f : α → Option β}
    {g : List β → γ} {rows : List α} {c : γ} :
    (rows.mapM f).map g = some c
      ↔ (∀ r ∈ rows, (f r).isSome) ∧ g (rows.filterMap f) = c := by
  rw [Option.map_eq_some_iff]
  simp only [mapM_eq_some_iff]
  constructor
  · intro h
    obtain ⟨_, ⟨hsome, rfl⟩, rfl⟩ := h
    exact ⟨hsome, rfl⟩
  · intro h
    obtain ⟨hsome, rfl⟩ := h
    exact ⟨_, ⟨hsome, rfl⟩, rfl⟩

/-- What a query computes, row by row, from rows that were computed from
others. -/
theorem map_of_mapM {γ δ : Type} {a : δ → α} {f : α → Option β}
    {g : β → γ} {h : δ → γ} {xs : List δ} {out : List β}
    (hout : (xs.map a).mapM f = some out)
    (heq : ∀ x ∈ xs, ∀ b, f (a x) = some b → g b = h x) :
    out.map g = xs.map h := by
  induction xs generalizing out with
  | nil =>
      obtain rfl := Option.some.inj hout
      rfl
  | cons x xs ih =>
      rw [List.map_cons, List.mapM_cons] at hout
      simp only [Option.bind_eq_bind, Option.bind_eq_some_iff,
        Option.pure_def, Option.some.injEq] at hout
      obtain ⟨b, hb, bs, hbs, rfl⟩ := hout
      rw [List.map_cons, List.map_cons, heq x List.mem_cons_self b hb,
        ih hbs fun y hy => heq y (List.mem_cons_of_mem x hy)]

-- =============================================================== grouping

section Group

variable [DecidableEq κ]

/-- The values of the partition. -/
def groups (part : α → κ) (rows : List α) : List κ :=
  (rows.map part).dedup

/-- The rows of one value of the partition. -/
def group (part : α → κ) (rows : List α) (k : κ) : List α :=
  rows.filter fun r => part r = k

variable {part : α → κ} {rows : List α}

/-- The values of the partition are those of the rows. -/
theorem mem_groups {k : κ} : k ∈ groups part rows ↔ ∃ r ∈ rows, part r = k := by
  simp only [groups, List.mem_dedup, List.mem_map]

/-- Each is listed once. -/
theorem nodup_groups : (groups part rows).Nodup := List.nodup_dedup _

/-- A row of a part is a row with its value. -/
theorem mem_group {k : κ} {a : α} :
    a ∈ group part rows k ↔ a ∈ rows ∧ part a = k := by
  simp only [group, List.mem_filter, decide_eq_true_eq]

/-- Rows may be left out before or after. -/
theorem group_filter {keep : α → Bool} {k : κ} :
    group part (rows.filter keep) k = (group part rows k).filter keep := by
  rw [group, group, List.filter_filter, List.filter_filter]
  exact List.filter_congr fun r _ => Bool.and_comm _ _

/-- A part has rows when it is one of the parts. -/
theorem group_ne_nil_iff {k : κ} :
    group part rows k ≠ [] ↔ k ∈ groups part rows := by
  rw [mem_groups]
  constructor
  · intro h
    obtain ⟨r, hr⟩ := List.exists_mem_of_ne_nil _ h
    exact ⟨r, mem_group.mp hr⟩
  · intro hx
    obtain ⟨r, hr, hk⟩ := hx
    exact List.ne_nil_of_mem (mem_group.mpr ⟨hr, hk⟩)

/-- The one row of a part. -/
theorem group_eq_singleton (hnodup : (rows.map part).Nodup) {a : α}
    (ha : a ∈ rows) : group part rows (part a) = [a] := by
  induction rows with
  | nil => cases ha
  | cons r rows ih =>
      obtain ⟨hnot, hnodup⟩ := List.nodup_cons.mp hnodup
      unfold group
      rcases List.mem_cons.mp ha with rfl | ha
      · have hnil : rows.filter (fun r => part r = part a) = [] := by
          refine List.filter_eq_nil_iff.mpr fun s hs hsa => hnot ?_
          exact of_decide_eq_true hsa ▸ List.mem_map_of_mem hs
        rw [List.filter_cons_of_pos (by simp), hnil]
      · have hne : part r ≠ part a := fun h =>
          hnot (h ▸ List.mem_map_of_mem ha)
        rw [List.filter_cons_of_neg (by simpa using hne)]
        exact ih hnodup ha

/-- Of results made one for each part, those of one part. -/
theorem group_filterMap {ks : List κ} (hks : ks.Nodup)
    {result : κ → Option β} {key : β → κ}
    (hkey : ∀ k b, result k = some b → key b = k) (k : κ) :
    group key (ks.filterMap result) k
      = if k ∈ ks then (result k).toList else [] := by
  induction ks with
  | nil => rfl
  | cons k' ks ih =>
      obtain ⟨hnot, hks⟩ := List.nodup_cons.mp hks
      have ih := ih hks
      rw [group] at ih ⊢
      rw [List.filterMap_cons]
      by_cases hk : k' = k
      · subst hk
        rw [if_neg hnot] at ih
        rw [if_pos List.mem_cons_self]
        cases h : result k' with
        | none => exact ih
        | some b =>
            simp only [List.filter_cons, hkey k' b h, decide_true, if_true,
              ih, Option.toList_some]
      · have hmem : k ∈ k' :: ks ↔ k ∈ ks := by
          simp only [List.mem_cons, Ne.symm hk, false_or]
        simp only [hmem]
        cases h : result k' with
        | none => exact ih
        | some b =>
            simp only [List.filter_cons, hkey k' b h, hk, decide_false,
              Bool.false_eq_true, if_false, ih]

omit [DecidableEq κ] in
/-- A column of one group of results made one for each part. -/
theorem map_group_filterMap {δ : Type} [DecidableEq δ] {ks : List κ}
    {result : κ → Option β} {key : β → δ} {on : κ → δ} {f : β → γ}
    {g : κ → γ} {d : δ}
    (h : ∀ k ∈ ks, ∃ b, result k = some b ∧ key b = on k
      ∧ (on k = d → f b = g k)) :
    (group key (ks.filterMap result) d).map f = (group on ks d).map g := by
  induction ks with
  | nil => rfl
  | cons k ks ih =>
      obtain ⟨hk, hks⟩ := List.forall_mem_cons.mp h
      obtain ⟨b, hb, hkey, hf⟩ := hk
      have ih := ih hks
      unfold group at ih ⊢
      rw [List.filterMap_cons_some hb]
      by_cases hd : on k = d
      · rw [List.filter_cons_of_pos (by simp [hkey, hd]),
          List.filter_cons_of_pos (by simp [hd]), List.map_cons,
          List.map_cons, ih, hf hd]
      · rw [List.filter_cons_of_neg (by simp [hkey, hd]),
          List.filter_cons_of_neg (by simp [hd]), ih]

/-- In a group, what tells its rows apart may be less than a key. -/
theorem eq_of_mem_group {ν : Type} {key : α → ν}
    (hnodup : (rows.map key).Nodup) {k : κ} {a b : α}
    (ha : a ∈ group part rows k) (hb : b ∈ group part rows k)
    (hkey : part a = part b → key a = key b) : a = b := by
  obtain ⟨ha, hka⟩ := mem_group.mp ha
  obtain ⟨hb, hkb⟩ := mem_group.mp hb
  exact List.inj_on_of_nodup_map hnodup ha hb (hkey (hka.trans hkb.symm))

/-- `group by`: one row for each value of the partition. -/
def groupBy (part : α → κ) (agg : κ → List α → β) (rows : List α) :
    List β :=
  (groups part rows).map fun k => agg k (group part rows k)

/-- One result for each part. -/
theorem mem_groupBy {agg : κ → List α → β} {b : β} :
    b ∈ groupBy part agg rows
      ↔ ∃ k ∈ groups part rows, agg k (group part rows k) = b := by
  simp only [groupBy, List.mem_map]

/-- Values may be left out before or after. -/
theorem dedup_filter {keep : κ → Bool} (ks : List κ) :
    (ks.filter keep).dedup = ks.dedup.filter keep := by
  induction ks with
  | nil => rfl
  | cons k ks ih =>
      by_cases hk : keep k = true
      · rw [List.filter_cons_of_pos hk]
        by_cases hmem : k ∈ ks
        · rw [List.dedup_cons_of_mem hmem, ← ih,
            List.dedup_cons_of_mem (List.mem_filter.mpr ⟨hmem, hk⟩)]
        · have hnot : k ∉ ks.filter keep := fun h =>
            hmem (List.mem_filter.mp h).1
          rw [List.dedup_cons_of_notMem hmem,
            List.dedup_cons_of_notMem hnot, List.filter_cons_of_pos hk, ih]
      · rw [List.filter_cons_of_neg hk, ih]
        by_cases hmem : k ∈ ks
        · rw [List.dedup_cons_of_mem hmem]
        · rw [List.dedup_cons_of_notMem hmem, List.filter_cons_of_neg hk]

/-- Rows of some parts only are grouped into those parts. -/
theorem groupBy_filter {agg : κ → List α → β} (keep : κ → Bool) :
    groupBy part agg (rows.filter fun r => keep (part r))
      = ((groups part rows).filter keep).map fun k =>
          agg k (group part rows k) := by
  have hgroups : groups part (rows.filter fun r => keep (part r))
      = (groups part rows).filter keep := by
    rw [groups, groups, ← dedup_filter, List.filter_map]
    rfl
  rw [groupBy, hgroups]
  refine List.map_congr_left fun k hk => ?_
  rw [group_filter, List.filter_eq_self.mpr]
  intro r hr
  rw [(mem_group.mp hr).2]
  exact (List.mem_filter.mp hk).2

/-- If every part is of one partition of the result, a partition of the
result is grouped from the rows of its parts. -/
theorem group_groupBy {δ : Type} [DecidableEq δ] {agg : κ → List α → β}
    {date : β → δ} {date' : α → δ} {on : κ → δ}
    (hagg : ∀ k ∈ groups part rows, date (agg k (group part rows k)) = on k)
    (hpart : ∀ r ∈ rows, date' r = on (part r)) (d : δ) :
    group date (groupBy part agg rows) d
      = groupBy part agg (group date' rows d) := by
  have hrows : group date' rows d
      = rows.filter fun r => decide (on (part r) = d) := by
    refine List.filter_congr fun r hr => ?_
    rw [hpart r hr]
  rw [hrows, groupBy_filter fun k => decide (on k = d), group,
    groupBy, List.filter_map]
  congr 1
  refine List.filter_congr fun k hk => ?_
  rw [Function.comp_apply, hagg k hk]

/-- There are results when there are rows. -/
theorem groupBy_eq_nil_iff {agg : κ → List α → β} :
    groupBy part agg rows = [] ↔ rows = [] := by
  rw [groupBy, groups, List.map_eq_nil_iff, List.dedup_eq_nil,
    List.map_eq_nil_iff]

/-- Tables with the same rows have the same results, if each part's
aggregate does not depend on their order. -/
theorem groupBy_perm {agg agg' : κ → List α → β} {rows' : List α}
    (hperm : rows.Perm rows')
    (hagg : ∀ k, agg k (group part rows k) = agg' k (group part rows' k)) :
    (groupBy part agg rows).Perm (groupBy part agg' rows') := by
  have hgroups : (groups part rows).Perm (groups part rows') :=
    (hperm.map part).dedup
  have hmap : groupBy part agg rows
      = (groups part rows).map fun k => agg' k (group part rows' k) :=
    List.map_congr_left fun k _ => hagg k
  rw [hmap]
  exact hgroups.map _

/-- Results that carry their part: one of each. -/
theorem map_groupBy {agg : κ → List α → β} {key : β → κ}
    (hkey : ∀ k rows, key (agg k rows) = k) :
    (groupBy part agg rows).map key = groups part rows := by
  rw [groupBy, List.map_map]
  conv_rhs => rw [← List.map_id (groups part rows)]
  exact List.map_congr_left fun k _ => hkey k _

/-- Looking up the result of one part. -/
theorem find?_groupBy {agg : κ → List α → β} {key : β → κ}
    (hkey : ∀ k rows, key (agg k rows) = k) {k : κ}
    (hk : k ∈ groups part rows) :
    (groupBy part agg rows).find? (fun b => key b = k)
      = some (agg k (group part rows k)) := by
  rw [groupBy, List.find?_map]
  have hfind : (groups part rows).find?
      ((fun b => decide (key b = k)) ∘ fun k => agg k (group part rows k))
      = some k := by
    simp only [Function.comp_def, hkey]
    generalize groups part rows = ks at hk ⊢
    induction ks with
    | nil => cases hk
    | cons k' ks ih =>
        rw [List.find?_cons]
        by_cases h : k' = k
        · simp only [h, decide_true]
        · simp only [h, decide_false]
          exact ih ((List.mem_cons.mp hk).resolve_left (Ne.symm h))
  rw [hfind, Option.map_some]

/-- A value that no row has has no result. -/
theorem find?_groupBy_eq_none {agg : κ → List α → β} {key : β → κ}
    (hkey : ∀ k rows, key (agg k rows) = k) {k : κ}
    (hk : k ∉ groups part rows) :
    (groupBy part agg rows).find? (fun b => key b = k) = none := by
  rw [List.find?_eq_none]
  intro b hb h
  obtain ⟨k', hk', rfl⟩ := mem_groupBy.mp hb
  rw [decide_eq_true_eq, hkey] at h
  exact hk (h ▸ hk')

/-- Grouping computed rows. -/
theorem groupBy_map {γ : Type} {f : γ → α} {agg : κ → List α → β}
    (rows : List γ) :
    groupBy part agg (rows.map f)
      = groupBy (fun r => part (f r)) (fun k rs => agg k (rs.map f))
          rows := by
  rw [groupBy, groupBy, groups, groups, List.map_map]
  refine List.map_congr_left fun k _ => ?_
  rw [group, List.filter_map]
  rfl

/-- A sum over the parts, of sums, is the sum over the rows. By
induction on the rows, over a fixed list of parts: one more row adds to
exactly one of them. -/
theorem sum_groupBy {M : Type} [AddCommMonoid M] {agg : κ → List α → β}
    {f : β → M} {g : α → M}
    (hagg : ∀ k rows, f (agg k rows) = (rows.map g).sum) :
    ((groupBy part agg rows).map f).sum = (rows.map g).sum := by
  have hsum : ∀ (ks : List κ), ks.Nodup → ∀ rows : List α,
      (∀ r ∈ rows, part r ∈ ks) →
      (ks.map fun k => ((group part rows k).map g).sum).sum
        = (rows.map g).sum := by
    intro ks hks rows
    induction rows with
    | nil =>
        intro _
        simp [group]
    | cons r rows ih =>
        intro hrows
        obtain ⟨hr, hrows⟩ := List.forall_mem_cons.mp hrows
        have hcons : ∀ k, ((group part (r :: rows) k).map g).sum
            = (if k = part r then g r else 0)
              + ((group part rows k).map g).sum := by
          intro k
          by_cases hk : part r = k
          · rw [if_pos hk.symm, group, List.filter_cons_of_pos (by simp [hk]),
              List.map_cons, List.sum_cons]
            rfl
          · rw [if_neg (Ne.symm hk), zero_add, group,
              List.filter_cons_of_neg (by simp [hk])]
            rfl
        have hone : (ks.map fun k => if k = part r then g r else 0).sum
            = g r := by
          rw [List.sum_map_eq_nsmul_single (part r) _
            fun k hk _ => if_neg hk, List.count_eq_one_of_mem hks hr,
            if_pos rfl, one_nsmul]
        simp only [hcons]
        rw [List.sum_map_add, hone, ih hrows, List.map_cons, List.sum_cons]
  rw [groupBy, List.map_map, ← hsum _ nodup_groups rows
    fun r hr => mem_groups.mpr ⟨r, hr, rfl⟩]
  exact congrArg List.sum (List.map_congr_left fun k _ => hagg k _)

/-- The rows of some parts are those of each, counted up. -/
theorem sum_length_group {ks : List κ} (hks : ks.Nodup) {keep : α → Bool}
    (hkeep : ∀ r ∈ rows, keep r = true ↔ part r ∈ ks) :
    (ks.map fun k => (group part rows k).length).sum
      = (rows.filter keep).length := by
  induction ks generalizing keep with
  | nil =>
      rw [List.filter_eq_nil_iff.mpr fun r hr h =>
        List.not_mem_nil ((hkeep r hr).mp h)]
      rfl
  | cons k ks ih =>
      obtain ⟨hnot, hks⟩ := List.nodup_cons.mp hks
      have hhere : (rows.filter keep).filter (fun r => part r = k)
          = group part rows k := by
        rw [List.filter_filter, group]
        refine List.filter_congr fun r hr => ?_
        by_cases hrk : part r = k
        · simp [hrk, (hkeep r hr).mpr]
        · simp [hrk]
      have hthere : ∀ r ∈ rows,
          (!decide (part r = k) && keep r) = true ↔ part r ∈ ks := by
        intro r hr
        rw [Bool.and_eq_true, hkeep r hr, List.mem_cons]
        by_cases hrk : part r = k
        · simp [hrk, hnot]
        · simp [hrk]
      have hsplit : (rows.filter keep).length
          = ((rows.filter keep).filter fun r => part r = k).length
            + ((rows.filter keep).filter
              fun r => !decide (part r = k)).length :=
        List.length_eq_length_filter_add _
      rw [List.map_cons, List.sum_cons, ih hks hthere, hsplit, hhere,
        List.filter_filter]

/-- The greatest of the parts' greatest is the greatest of all rows:
every row is in its part, and a part's greatest is one of its rows. -/
theorem maxOf_groupBy [LinearOrder τ] {agg : κ → List α → β}
    {f : β → Option τ} {g : α → τ}
    (hagg : ∀ k rows, f (agg k rows) = maxOf (rows.map g)) :
    maxOf ((groupBy part agg rows).filterMap f) = maxOf (rows.map g) := by
  have hmem : ∀ v, v ∈ (groupBy part agg rows).filterMap f
      ↔ ∃ k ∈ groups part rows,
        maxOf ((group part rows k).map g) = some v := by
    intro v
    simp only [List.mem_filterMap, mem_groupBy]
    constructor
    · intro h
      obtain ⟨b, ⟨k, hk, rfl⟩, hv⟩ := h
      exact ⟨k, hk, (hagg k _).symm.trans hv⟩
    · intro h
      obtain ⟨k, hk, hv⟩ := h
      exact ⟨_, ⟨k, hk, rfl⟩, (hagg k _).trans hv⟩
  refine Option.ext fun v => ?_
  rw [maxOf_eq_some_iff, maxOf_eq_some_iff]
  constructor
  · intro h
    obtain ⟨hv, hmax⟩ := h
    obtain ⟨k, -, hk⟩ := (hmem v).mp hv
    obtain ⟨r, hr, rfl⟩ := List.mem_map.mp (mem_of_maxOf hk)
    refine ⟨List.mem_map_of_mem (mem_group.mp hr).1, fun w hw => ?_⟩
    obtain ⟨s, hs, rfl⟩ := List.mem_map.mp hw
    have hpart : s ∈ group part rows (part s) := mem_group.mpr ⟨hs, rfl⟩
    obtain ⟨u, hu⟩ := exists_maxOf (List.mem_map_of_mem (f := g) hpart)
    have hgroup : part s ∈ groups part rows := mem_groups.mpr ⟨s, hs, rfl⟩
    have hsu : g s ≤ u :=
      (maxOf_eq_some_iff.mp hu).2 _ (List.mem_map_of_mem hpart)
    exact hsu.trans (hmax u ((hmem u).mpr ⟨part s, hgroup, hu⟩))
  · intro h
    obtain ⟨hv, hmax⟩ := h
    obtain ⟨r, hr, rfl⟩ := List.mem_map.mp hv
    have hpart : r ∈ group part rows (part r) := mem_group.mpr ⟨hr, rfl⟩
    refine ⟨(hmem _).mpr ⟨part r, mem_groups.mpr ⟨r, hr, rfl⟩, ?_⟩, ?_⟩
    · refine maxOf_eq_some_iff.mpr ⟨List.mem_map_of_mem hpart, ?_⟩
      intro w hw
      obtain ⟨s, hs, rfl⟩ := List.mem_map.mp hw
      exact hmax _ (List.mem_map_of_mem (mem_group.mp hs).1)
    · intro w hw
      obtain ⟨k, -, hk⟩ := (hmem w).mp hw
      obtain ⟨s, hs, rfl⟩ := List.mem_map.mp (mem_of_maxOf hk)
      exact hmax _ (List.mem_map_of_mem (mem_group.mp hs).1)

/-- The least of the parts' least. -/
theorem minOf_groupBy [LinearOrder τ] {agg : κ → List α → β}
    {f : β → Option τ} {g : α → τ}
    (hagg : ∀ k rows, f (agg k rows) = minOf (rows.map g)) :
    minOf ((groupBy part agg rows).filterMap f) = minOf (rows.map g) :=
  maxOf_groupBy (τ := OrderDual τ) hagg

/-- The first row of the first part is the first row, when the parts lie
in the order of the rows: the first row's part starts no later than any
other, and no two parts start together. -/
theorem first_groupBy {υ : Type} [LinearOrder τ] [LinearOrder υ]
    {E E' : Engine} {agg : κ → List α → β} {start : β → υ} {on : κ → υ}
    {key : α → τ} {f : β → Option γ} {g : α → γ}
    (hstart : ∀ k rows, start (agg k rows) = on k)
    (hf : ∀ k rows, f (agg k rows) = (E.first key rows).map g)
    (hon : ∀ a ∈ rows, ∀ b ∈ rows, on (part a) = on (part b) →
      part a = part b)
    (hkey : ∀ a ∈ rows, ∀ b ∈ rows, key a = key b → a = b)
    (hmono : ∀ a ∈ rows, ∀ b ∈ rows, key a ≤ key b →
      on (part a) ≤ on (part b)) :
    (E.first start (groupBy part agg rows)).bind f
      = (E'.first key rows).map g := by
  by_cases hnil : rows = []
  · rw [first_eq_none_iff.mpr (groupBy_eq_nil_iff.mpr hnil),
      first_eq_none_iff.mpr hnil]
    rfl
  · obtain ⟨a, ha⟩ := exists_first E' key hnil
    obtain ⟨b, hb⟩ := exists_first E start
      (mt groupBy_eq_nil_iff.mp hnil : groupBy part agg rows ≠ [])
    obtain ⟨k, hk, rfl⟩ := mem_groupBy.mp (mem_of_first hb)
    have hamem := mem_of_first ha
    have hapart : a ∈ group part rows (part a) := mem_group.mpr ⟨hamem, rfl⟩
    -- the first part is the part of the first row
    have hka : k = part a := by
      obtain ⟨r, hr, rfl⟩ := mem_groups.mp hk
      refine hon r hr a hamem (le_antisymm ?_ ?_)
      · have hle := first_le hb (mem_groupBy.mpr
          ⟨part a, mem_groups.mpr ⟨a, hamem, rfl⟩, rfl⟩)
        rwa [hstart, hstart] at hle
      · exact hmono a hamem r hr (first_le ha hr)
    subst hka
    obtain ⟨c, hc⟩ := exists_first E key (List.ne_nil_of_mem hapart)
    have hcmem := (mem_group.mp (mem_of_first hc)).1
    have hca : c = a := hkey c hcmem a hamem
      (le_antisymm (first_le hc hapart) (first_le ha hcmem))
    rw [hb, ha, Option.bind_some, hf, hc, hca]

/-- `row_number() over (partition by part order by key) = 1`. -/
def firstBy [LinearOrder τ] (E : Engine) (part : α → κ) (key : α → τ)
    (rows : List α) : List α :=
  (groups part rows).filterMap fun k => E.first key (group part rows k)

variable [LinearOrder τ] {E : Engine} {key : α → τ}

/-- The rows that come first, one for each part. -/
theorem mem_firstBy {a : α} :
    a ∈ firstBy E part key rows
      ↔ ∃ k ∈ groups part rows, E.first key (group part rows k) = some a := by
  simp only [firstBy, List.mem_filterMap]

/-- A row that comes first is a row, and no row of its part is before
it. -/
theorem of_mem_firstBy {a : α} (h : a ∈ firstBy E part key rows) :
    a ∈ rows ∧ ∀ s ∈ rows, part s = part a → key a ≤ key s := by
  obtain ⟨k, -, hk⟩ := mem_firstBy.mp h
  obtain ⟨hmem, hpart⟩ := mem_group.mp (mem_of_first hk)
  refine ⟨hmem, fun s hs hsa => first_le hk (mem_group.mpr ⟨hs, ?_⟩)⟩
  rw [hsa, hpart]

/-- Every part has a row that comes first. -/
theorem exists_mem_firstBy {r : α} (hr : r ∈ rows) :
    ∃ a ∈ firstBy E part key rows, part a = part r := by
  have hk : part r ∈ groups part rows := mem_groups.mpr ⟨r, hr, rfl⟩
  obtain ⟨a, ha⟩ := exists_first E key (group_ne_nil_iff.mpr hk)
  exact ⟨a, mem_firstBy.mpr ⟨_, hk, ha⟩, (mem_group.mp (mem_of_first ha)).2⟩

/-- Only one row of a part comes first. -/
theorem nodup_firstBy : ((firstBy E part key rows).map part).Nodup := by
  have hsub : (firstBy E part key rows).map part
      = (groups part rows).filter fun k =>
          (E.first key (group part rows k)).isSome := by
    unfold firstBy
    have hparts : ∀ k a, E.first key (group part rows k) = some a →
        part a = k := fun k a h => (mem_group.mp (mem_of_first h)).2
    generalize groups part rows = ks
    induction ks with
    | nil => rfl
    | cons k ks ih =>
        rw [List.filterMap_cons, List.filter_cons]
        cases h : E.first key (group part rows k) with
        | none => simpa using ih
        | some a =>
            simp only [Option.isSome_some, if_true, List.map_cons,
              hparts k a h, ih]
  rw [hsub]
  exact nodup_groups.filter _

end Group

-- ================================================== rows that come first

section Firsts

variable [LinearOrder τ] {part : α → κ} {key : α → τ}
  {rows rows' out out' : List α}

/-- One row of every part, with none of its part before it. -/
structure Firsts (part : α → κ) (key : α → τ) (rows out : List α) :
    Prop where
  mem : ∀ a ∈ out, a ∈ rows
  least : ∀ a ∈ out, ∀ s ∈ rows, part s = part a → key a ≤ key s
  each : ∀ r ∈ rows, ∃ a ∈ out, part a = part r
  nodup : (out.map part).Nodup

/-- What `firstBy` lists are such rows, whatever the engine. -/
theorem firsts_firstBy [DecidableEq κ] {E : Engine} :
    Firsts part key rows (firstBy E part key rows) where
  mem := fun _ h => (of_mem_firstBy h).1
  least := fun _ h => (of_mem_firstBy h).2
  each := fun _ h => exists_mem_firstBy h
  nodup := nodup_firstBy

namespace Firsts

/-- Tables with the same rows have the same rows that come first. -/
theorem congr (hmem : ∀ a, a ∈ rows ↔ a ∈ rows')
    (h : Firsts part key rows out) : Firsts part key rows' out where
  mem := fun a ha => (hmem a).mp (h.mem a ha)
  least := fun a ha s hs => h.least a ha s ((hmem s).mpr hs)
  each := fun r hr => h.each r ((hmem r).mpr hr)
  nodup := h.nodup

/-- Whole parts can be taken out before or after. -/
theorem filter {keep : α → Bool}
    (hkeep : ∀ a ∈ rows, ∀ b ∈ rows, part a = part b → keep a = keep b)
    (h : Firsts part key rows out) :
    Firsts part key (rows.filter keep) (out.filter keep) where
  mem := fun a ha => by
    obtain ⟨ha, hk⟩ := List.mem_filter.mp ha
    exact List.mem_filter.mpr ⟨h.mem a ha, hk⟩
  least := fun a ha s hs => h.least a (List.mem_filter.mp ha).1 s
    (List.mem_filter.mp hs).1
  each := fun r hr => by
    obtain ⟨hr, hk⟩ := List.mem_filter.mp hr
    obtain ⟨a, ha, hpart⟩ := h.each r hr
    refine ⟨a, List.mem_filter.mpr ⟨ha, ?_⟩, hpart⟩
    rw [hkeep a (h.mem a ha) r hr hpart, hk]
  nodup := h.nodup.sublist (List.filter_sublist.map part)

/-- There are such rows when there are rows. -/
theorem eq_nil_iff (h : Firsts part key rows out) :
    out = [] ↔ rows = [] := by
  constructor
  · rintro rfl
    refine List.eq_nil_iff_forall_not_mem.mpr fun r hr => ?_
    obtain ⟨a, ha, -⟩ := h.each r hr
    cases ha
  · rintro rfl
    refine List.eq_nil_iff_forall_not_mem.mpr fun a ha => ?_
    cases h.mem a ha

/-- Rows that tie are settled alike, if they are alike. -/
theorem perm (hties : ∀ a ∈ rows, ∀ b ∈ rows, part a = part b →
      key a = key b → a = b)
    (h : Firsts part key rows out) (h' : Firsts part key rows out') :
    out.Perm out' := by
  have hsub : ∀ out out' : List α, Firsts part key rows out →
      Firsts part key rows out' → ∀ a ∈ out, a ∈ out' := by
    intro out out' h h' a ha
    obtain ⟨b, hb, hpart⟩ := h'.each a (h.mem a ha)
    have hkey : key a = key b := le_antisymm
      (h.least a ha b (h'.mem b hb) hpart)
      (h'.least b hb a (h.mem a ha) hpart.symm)
    rw [hties a (h.mem a ha) b (h'.mem b hb) hpart.symm hkey]
    exact hb
  exact (List.perm_ext_iff_of_nodup h.nodup.of_map h'.nodup.of_map).mpr
    fun a => ⟨hsub out out' h h' a, hsub out' out h' h a⟩

end Firsts

end Firsts

-- ================================================================== joins

section Join

variable [DecidableEq κ] {key : α → κ} {key' : β → κ} {rows : List α}
  {rows' : List β}

/-- `full outer join .. on key = key'`: a row without a match stays, on
its own side. -/
def fullOuterJoin (key : α → κ) (key' : β → κ) (rows : List α)
    (rows' : List β) : List (Option α × Option β) :=
  (rows.flatMap fun a =>
    match group key' rows' (key a) with
    | [] => [(some a, none)]
    | bs => bs.map fun b => (some a, some b))
  ++ (rows'.filter fun b => key' b ∉ groups key rows).map fun b =>
      (none, some b)

/-- What the join lists: the matches, and what has none on either side.
The rows of the left are matched one by one, and the unmatched ones of
the right come after them. -/
theorem mem_fullOuterJoin {x : Option α × Option β} :
    x ∈ fullOuterJoin key key' rows rows'
      ↔ (∃ a ∈ rows, ∃ b ∈ rows', key' b = key a ∧ x = (some a, some b))
        ∨ (∃ a ∈ rows, key a ∉ groups key' rows' ∧ x = (some a, none))
        ∨ (∃ b ∈ rows', key' b ∉ groups key rows ∧ x = (none, some b)) := by
  have hmatch : ∀ a, (x ∈ (match group key' rows' (key a) with
      | [] => [(some a, none)]
      | bs => bs.map fun b => (some a, some b)))
      ↔ (∃ b ∈ rows', key' b = key a ∧ x = (some a, some b))
        ∨ (key a ∉ groups key' rows' ∧ x = (some a, none)) := by
    intro a
    split
    · next h =>
        have hnone : key a ∉ groups key' rows' := fun hk =>
          group_ne_nil_iff.mpr hk h
        have hmiss : ∀ b ∈ rows', key' b ≠ key a := fun b hb hkey =>
          hnone (mem_groups.mpr ⟨b, hb, hkey⟩)
        rw [List.mem_singleton]
        constructor
        · exact fun hx => Or.inr ⟨hnone, hx⟩
        · intro hx
          rcases hx with ⟨b, hb, hkey, -⟩ | ⟨-, hx⟩
          · exact absurd hkey (hmiss b hb)
          · exact hx
    · next bs h =>
        have hk : key a ∈ groups key' rows' := group_ne_nil_iff.mp h
        simp only [List.mem_map, mem_group]
        constructor
        · intro hx
          obtain ⟨b, ⟨hb, hkey⟩, rfl⟩ := hx
          exact Or.inl ⟨b, hb, hkey, rfl⟩
        · intro hx
          rcases hx with ⟨b, hb, hkey, rfl⟩ | ⟨hnone, -⟩
          · exact ⟨b, ⟨hb, hkey⟩, rfl⟩
          · exact absurd hk hnone
  simp only [fullOuterJoin, List.mem_append, List.mem_flatMap, hmatch,
    List.mem_map, List.mem_filter, decide_eq_true_eq]
  constructor
  · intro hx
    rcases hx with ⟨a, ha, ⟨b, hb, hkey, rfl⟩ | ⟨hnone, rfl⟩⟩
      | ⟨b, ⟨hb, hnone⟩, rfl⟩
    · exact Or.inl ⟨a, ha, b, hb, hkey, rfl⟩
    · exact Or.inr (Or.inl ⟨a, ha, hnone, rfl⟩)
    · exact Or.inr (Or.inr ⟨b, hb, hnone, rfl⟩)
  · intro hx
    rcases hx with ⟨a, ha, b, hb, hkey, rfl⟩ | ⟨a, ha, hnone, rfl⟩
      | ⟨b, hb, hnone, rfl⟩
    · exact Or.inl ⟨a, ha, Or.inl ⟨b, hb, hkey, rfl⟩⟩
    · exact Or.inl ⟨a, ha, Or.inr ⟨hnone, rfl⟩⟩
    · exact Or.inr ⟨b, ⟨hb, hnone⟩, rfl⟩

/-- A row of a key, or none when the table has none. -/
def RowAt (key : α → κ) (rows : List α) (k : κ) : Option α → Prop
  | some a => a ∈ rows ∧ key a = k
  | none => k ∉ groups key rows

/-- There is a row at every key, or none at all. -/
theorem exists_rowAt (key : α → κ) (rows : List α) (k : κ) :
    ∃ a, RowAt key rows k a := by
  by_cases h : k ∈ groups key rows
  · obtain ⟨a, ha, hk⟩ := mem_groups.mp h
    exact ⟨some a, ha, hk⟩
  · exact ⟨none, h⟩

/-- A full outer join pairs the rows of each key. -/
theorem mem_fullOuterJoin_iff {a : Option α} {b : Option β} :
    (a, b) ∈ fullOuterJoin key key' rows rows'
      ↔ (a.isSome ∨ b.isSome)
        ∧ ∃ k, RowAt key rows k a ∧ RowAt key' rows' k b := by
  rw [mem_fullOuterJoin]
  constructor
  · intro h
    rcases h with ⟨a, ha, b, hb, hkey, heq⟩ | ⟨a, ha, hnone, heq⟩
      | ⟨b, hb, hnone, heq⟩ <;> obtain ⟨rfl, rfl⟩ := Prod.mk.inj heq
    · exact ⟨Or.inl rfl, key a, ⟨ha, rfl⟩, hb, hkey⟩
    · exact ⟨Or.inl rfl, key a, ⟨ha, rfl⟩, hnone⟩
    · exact ⟨Or.inr rfl, key' b, hnone, hb, rfl⟩
  · intro h
    obtain ⟨hsome, k, ha, hb⟩ := h
    cases a with
    | some a =>
        obtain ⟨ha, rfl⟩ := ha
        cases b with
        | some b => exact Or.inl ⟨a, ha, b, hb.1, hb.2, rfl⟩
        | none => exact Or.inr (Or.inl ⟨a, ha, hb, rfl⟩)
    | none =>
        cases b with
        | some b =>
            obtain ⟨hb, rfl⟩ := hb
            exact Or.inr (Or.inr ⟨b, hb, ha, rfl⟩)
        | none =>
            rcases hsome with h | h
            · cases h
            · cases h

/-- The key of a row of the join. -/
def joinKey (key : α → κ) (key' : β → κ) (x : Option α × Option β) :
    Option κ :=
  (x.1.map key).or (x.2.map key')

/-- Where the right side has no key twice: the keys of the left side, and
those of the right side that the left one misses. -/
theorem keys_fullOuterJoin (hnodup : (rows'.map key').Nodup) :
    (fullOuterJoin key key' rows rows').filterMap (joinKey key key')
      = rows.map key
        ++ (rows'.filter fun b => key' b ∉ groups key rows).map key' := by
  have hone : ∀ a, ((match group key' rows' (key a) with
      | [] => [(some a, none)]
      | bs => bs.map fun b => (some a, some b)) :
        List (Option α × Option β)).filterMap (joinKey key key')
      = [key a] := by
    intro a
    split
    · rfl
    · next bs h =>
        obtain ⟨b, hb⟩ := List.exists_mem_of_ne_nil _ h
        obtain ⟨hb, hkey⟩ := mem_group.mp hb
        rw [← hkey, group_eq_singleton hnodup hb, hkey]
        rfl
  rw [fullOuterJoin, List.filterMap_append, List.filterMap_flatMap,
    List.filterMap_map]
  congr 1
  · rw [List.map_eq_flatMap]
    exact congrArg rows.flatMap (funext hone)
  · exact congrFun (List.filterMap_eq_map' (f := key')) _

/-- Where no side has a key twice, the join has none twice. -/
theorem nodup_keys_fullOuterJoin (hnodup : (rows.map key).Nodup)
    (hnodup' : (rows'.map key').Nodup) :
    ((fullOuterJoin key key' rows rows').filterMap
      (joinKey key key')).Nodup := by
  rw [keys_fullOuterJoin hnodup']
  refine hnodup.append (hnodup'.sublist (List.filter_sublist.map _)) ?_
  intro k hk hk'
  obtain ⟨b, hb, rfl⟩ := List.mem_map.mp hk'
  exact of_decide_eq_true (List.mem_filter.mp hb).2
    (List.mem_dedup.mpr hk)

end Join

end MarketPlatform.Lib.Relation
