/-
High-water marks over a stream of ids.

# The mark

A mark is the highest id known of. Ids arrive, and are announced; either
moves the mark up to the id and never back. An id that arrives is an
advance when it exceeds the mark it finds, otherwise a repeat. `Reached`
generates the arrivals and the mark together, the arrivals with the mark
that each of them found, so that an induction on it follows the stream.

# Loss is not under-reported

`unseen_le` is the reason to account for loss at a mark: the ids between
the first and the mark that never arrived are at most the distance
covered less the advances. It does not depend on the order in which ids
arrive, on repeats, or on how often the mark was announced. The
induction is over any set of such ids: when the mark moves from `m` to
`n`, the ids of the set beyond `m` are at most `n - m` (`Unseen.split`),
and one fewer if the id that moves it arrives (`Unseen.split_arrive`).

# Loss may be over-reported

`charged_le_iff` says when the two are equal: the loss charged as the
mark jumps is never given back, so it counts the ids that never arrived
and the ones that arrived late, after the mark had passed them. Here the
stream is a list of mentions after the first id, and the set of missing
ids is followed exactly: a mention adds the ids it is charged for
(`skipped`) and takes out the one that arrives (`missing_concat`).

# Totals

The last section is the bookkeeping for a total over many keys of which
one step moves one.
-/
import Mathlib.Algebra.BigOperators.Group.Finset.Basic
import Mathlib.Algebra.BigOperators.Group.Finset.Piecewise
import Mathlib.Data.Int.Interval
import Mathlib.Order.Interval.Finset.SuccPred
import Mathlib.Tactic.Common
import Mathlib.Algebra.Order.Group.Int

namespace MarketPlatform.Lib.Watermark

/-- An id, with the mark it found on arrival. -/
abbrev Arrival := Option Int × Int

/-- The id moves the mark, which is there. -/
def Arrival.exceeds (a : Arrival) : Bool :=
  match a.1 with
  | none => false
  | some mark => mark < a.2

/-- How many arrivals move their mark. -/
def advances (as : List Arrival) : Nat := as.countP Arrival.exceeds

/-- How many arrivals leave their mark. -/
def repeats (as : List Arrival) : Nat :=
  as.countP fun a => !a.exceeds

/-- The mark after the arrivals, with any announcements among them. -/
inductive Reached : List Arrival → Option Int → Prop where
  | start : Reached [] none
  | first (n : Int) (h : Reached [] none) : Reached [(none, n)] (some n)
  | arrive {as : List Arrival} {m : Int} (n : Int)
      (h : Reached as (some m)) :
      Reached (as ++ [(some m, n)]) (some (max m n))
  | announce {as : List Arrival} {m : Int} (n : Int)
      (h : Reached as (some m)) : Reached as (some (max m n))

namespace Reached

/-- There is a mark exactly when something arrived. -/
theorem ne_nil {as : List Arrival} {m : Int} (h : Reached as (some m)) :
    as ≠ [] := by
  generalize ho : some m = o at h
  induction h generalizing m with
  | start => exact absurd ho (by simp)
  | first n h => simp
  | arrive n h ih => simp
  | announce n h ih => exact ih rfl

/-- Without a mark nothing has arrived. -/
theorem eq_nil {as : List Arrival} (h : Reached as none) : as = [] := by
  cases h with
  | start => rfl

end Reached

/-- The loss between the first id and the mark: the distance, less the
advances made on the way. -/
def account : List Arrival → Option Int → Int
  | first :: later, some mark => mark - first.2 - advances later
  | _, _ => 0

/-- The first id accounts for no loss. -/
theorem account_first (n : Int) : account [(none, n)] (some n) = 0 := by
  simp [account, advances]

/-- An id that arrives accounts for the ids between the mark and
itself. -/
theorem account_arrive {as : List Arrival} {m : Int} (n : Int)
    (h : as ≠ []) :
    account (as ++ [(some m, n)]) (some (max m n))
      = account as (some m)
        + (max m n - m - if m < n then 1 else 0) := by
  cases as with
  | nil => exact absurd rfl h
  | cons a as =>
      simp only [List.cons_append, account, advances, List.countP_append,
        List.countP_cons, List.countP_nil, Arrival.exceeds,
        decide_eq_true_eq]
      split <;> omega

/-- An announced id accounts for itself as well. -/
theorem account_announce {as : List Arrival} {m : Int} (n : Int)
    (h : as ≠ []) :
    account as (some (max m n)) = account as (some m) + (max m n - m) := by
  cases as with
  | nil => exact absurd rfl h
  | cons a as =>
      simp only [account]
      omega

/-- An id that does not move the mark is one more repeat. -/
theorem repeats_tail_append {as : List Arrival} (m n : Int)
    (h : as ≠ []) :
    (repeats (as ++ [(some m, n)]).tail : Int)
      = repeats as.tail + if m < n then 0 else 1 := by
  cases as with
  | nil => exact absurd rfl h
  | cons a as =>
      by_cases hmn : m < n <;>
        simp [repeats, List.countP_append, Arrival.exceeds, hmn]

/-- Ids from the first to the mark that did not arrive. -/
def Unseen (first mark : Int) (as : List Arrival) (S : Finset Int) :
    Prop :=
  ∀ k ∈ S, first ≤ k ∧ k ≤ mark ∧ k ∉ as.map Prod.snd

/-- Moving the mark from `m` to `n` adds at most the ids in between. -/
theorem Unseen.split {first m n : Int} {as : List Arrival}
    {S : Finset Int} (h : Unseen first (max m n) as S) :
    ∃ T, Unseen first m as T ∧ S.card ≤ T.card + (n - m).toNat := by
  refine ⟨S.filter (· ≤ m), fun k hk => ?_, ?_⟩
  · obtain ⟨hmem, hkm⟩ := Finset.mem_filter.mp hk
    exact ⟨(h k hmem).1, hkm, (h k hmem).2.2⟩
  · have hsub : S.filter (¬ · ≤ m) ⊆ Finset.Ioc m n := by
      intro k hk
      obtain ⟨hmem, hkm⟩ := Finset.mem_filter.mp hk
      have hle := (h k hmem).2.1
      exact Finset.mem_Ioc.mpr (by omega)
    have hcard := Finset.card_le_card hsub
    rw [Int.card_Ioc] at hcard
    have hsum := Finset.card_filter_add_card_filter_not (s := S) (· ≤ m)
    omega

/-- An id that arrives and moves the mark is not among them. Those up to
the old mark were unseen before; those above it lie strictly between the
old mark and the id. -/
theorem Unseen.split_arrive {first m n : Int} {as : List Arrival}
    {S : Finset Int}
    (h : Unseen first (max m n) (as ++ [(some m, n)]) S) :
    ∃ T, Unseen first m as T
      ∧ (S.card : Int) + (if m < n then 1 else 0)
        ≤ T.card + (max m n - m) := by
  refine ⟨S.filter (· ≤ m), fun k hk => ?_, ?_⟩
  · obtain ⟨hmem, hkm⟩ := Finset.mem_filter.mp hk
    refine ⟨(h k hmem).1, hkm, fun hk => (h k hmem).2.2 ?_⟩
    rw [List.map_append]
    exact List.mem_append_left _ hk
  · have hsub : S.filter (¬ · ≤ m) ⊆ Finset.Ioo m n := by
      intro k hk
      obtain ⟨hmem, hkm⟩ := Finset.mem_filter.mp hk
      obtain ⟨-, hle, hnot⟩ := h k hmem
      have hne : k ≠ n := by
        rintro rfl
        exact hnot (by simp)
      exact Finset.mem_Ioo.mpr (by omega)
    have hcard := Finset.card_le_card hsub
    rw [Int.card_Ioo] at hcard
    have hsum := Finset.card_filter_add_card_filter_not (s := S) (· ≤ m)
    rcases lt_or_ge m n with hmn | hmn
    · rw [if_pos hmn]
      omega
    · rw [if_neg (by omega)]
      omega

/-- Loss is never under-reported: what did not arrive is within the
distance from the first id to the mark, less the advances. By induction
on the stream, for every set of ids that did not arrive. -/
theorem unseen_le {as : List Arrival} {o : Option Int}
    (h : Reached as o) :
    ∀ first later mark (S : Finset Int), as = first :: later →
      o = some mark → Unseen first.2 mark as S →
      (S.card : Int) + advances later ≤ mark - first.2 := by
  induction h with
  | start => exact fun _ _ _ _ has => absurd has (by simp)
  | first n h ih =>
      intro first later mark S has ho hS
      obtain ⟨rfl, rfl⟩ := List.cons.inj has
      obtain rfl := Option.some.inj ho
      have hempty : S = ∅ := by
        refine Finset.eq_empty_of_forall_notMem fun k hk => ?_
        obtain ⟨hge, hle, hnot⟩ := hS k hk
        obtain rfl : k = n := le_antisymm hle hge
        exact hnot (by simp)
      rw [hempty]
      simp [advances]
  | @arrive as m n h ih =>
      intro first later mark S has ho hS
      obtain rfl := Option.some.inj ho
      cases as with
      | nil => exact absurd rfl h.ne_nil
      | cons a as =>
          obtain ⟨rfl, hlater⟩ := List.cons.inj has
          replace hlater : later = as ++ [(some m, n)] := hlater.symm
          subst hlater
          obtain ⟨T, hT, hcard⟩ := hS.split_arrive
          have hle := ih a as m T rfl rfl hT
          have hadv : advances (as ++ [(some m, n)])
              = advances as + if m < n then 1 else 0 := by
            simp [advances, List.countP_append, List.countP_cons,
              Arrival.exceeds]
          rw [hadv]
          push_cast
          omega
  | @announce as m n h ih =>
      intro first later mark S has ho hS
      obtain rfl := Option.some.inj ho
      obtain ⟨T, hT, hcard⟩ := hS.split
      have hle := ih first later m T has rfl hT
      omega

-- ============================================================== late ids

/-- What is learnt of an id: it arrives, or it is announced. -/
inductive Mention where
  | arrives (n : Int)
  | announced (n : Int)
  deriving DecidableEq

namespace Mention

/-- The id that is mentioned, either way. -/
def id : Mention → Int
  | arrives n => n
  | announced n => n

/-- The loss charged when the mark stands at `m`: the ids it jumps over. -/
def charge (m : Int) : Mention → Int
  | arrives n => max m n - m - if m < n then 1 else 0
  | announced n => max m n - m

/-- The id, if it arrives. -/
def arrival : Mention → Option Int
  | arrives n => some n
  | announced _ => none

end Mention

section Late

variable (first : Int)

/-- The mark after the mentions that follow the first id. -/
def mark (later : List Mention) : Int :=
  later.foldl (fun m x => max m x.id) first

/-- The loss charged on the way. -/
def charged : List Mention → Int → Int
  | [], _ => 0
  | x :: later, m => x.charge m + charged later (max m x.id)

/-- The ids that have arrived. -/
def arrived (later : List Mention) : List Int :=
  first :: later.filterMap Mention.arrival

/-- The order of the ids, as it is computed: Mathlib has another way to
it that is not. -/
local instance markOrder : Preorder Int := Int.instLinearOrder.toPreorder

/-- The ids between the first and the mark that have not. -/
def missing (later : List Mention) : Finset Int :=
  (Finset.Icc first (mark first later)).filter (· ∉ arrived first later)

/-- After `pre`, an id arrives for the first time although it, or one
above it, was mentioned before. -/
def Late (pre : List Mention) (x : Mention) : Prop :=
  ∃ n, x = .arrives n ∧ first < n ∧ .arrives n ∉ pre
    ∧ ∃ y ∈ pre, n ≤ y.id

/-- No id arrives late. -/
def Timely (later : List Mention) : Prop :=
  ∀ pre x, pre ++ [x] <+: later → ¬Late first pre x

variable {first} {later : List Mention} {x : Mention}

/-- One more mention moves the mark up to its id. -/
theorem mark_concat :
    mark first (later ++ [x]) = max (mark first later) x.id := by
  rw [mark, List.foldl_append]
  rfl

/-- The mark is never before the first id. -/
theorem first_le_mark : first ≤ mark first later := by
  induction later using List.reverseRecOn with
  | nil => exact le_rfl
  | append_singleton later x ih =>
      rw [mark_concat]
      exact ih.trans (le_max_left _ _)

/-- Nor before an id that was mentioned. -/
theorem id_le_mark : ∀ y ∈ later, y.id ≤ mark first later := by
  induction later using List.reverseRecOn with
  | nil => simp
  | append_singleton later x ih =>
      intro y hy
      rw [mark_concat]
      rcases List.mem_append.mp hy with hy | hy
      · exact (ih y hy).trans (le_max_left _ _)
      · rw [List.mem_singleton.mp hy]
        exact le_max_right _ _

/-- Above the first id, what the mark has passed was passed by a
mention. -/
theorem exists_le_id {n : Int} (hn : first < n)
    (hle : n ≤ mark first later) : ∃ y ∈ later, n ≤ y.id := by
  induction later using List.reverseRecOn with
  | nil =>
      have hle' : n ≤ first := hle
      omega
  | append_singleton later x ih =>
      rw [mark_concat] at hle
      rcases le_max_iff.mp hle with hle | hle
      · obtain ⟨y, hy, hny⟩ := ih hle
        exact ⟨y, List.mem_append_left _ hy, hny⟩
      · exact ⟨x, by simp, hle⟩

/-- One more mention is charged at the mark that the others left. -/
theorem charged_concat (m : Int) :
    charged (later ++ [x]) m = charged later m + x.charge (mark m later) := by
  induction later generalizing m with
  | nil => exact (Int.zero_add _).symm ▸ Int.add_zero _
  | cons y later ih =>
      rw [List.cons_append, charged, ih, charged, Int.add_assoc]
      rfl

/-- The first id and those that arrive. -/
theorem mem_arrived {n : Int} :
    n ∈ arrived first later ↔ n = first ∨ .arrives n ∈ later := by
  rw [arrived, List.mem_cons, List.mem_filterMap]
  refine or_congr Iff.rfl ⟨?_, fun h => ⟨_, h, rfl⟩⟩
  intro hx
  obtain ⟨y, hy, hn⟩ := hx
  cases y with
  | arrives k =>
      obtain rfl := Option.some.inj hn
      exact hy
  | announced k => cases hn

/-- What is missing lies above the first id and up to the mark, and does
not arrive. -/
theorem mem_missing {n : Int} :
    n ∈ missing first later
      ↔ first < n ∧ n ≤ mark first later ∧ .arrives n ∉ later := by
  rw [missing, Finset.mem_filter, Finset.mem_Icc, mem_arrived, not_or]
  constructor
  · intro h
    obtain ⟨⟨hge, hle⟩, hne, hnot⟩ := h
    exact ⟨by omega, hle, hnot⟩
  · intro h
    obtain ⟨hlt, hle, hnot⟩ := h
    exact ⟨⟨by omega, hle⟩, by omega, hnot⟩

/-- The ids a mention is charged for. -/
def skipped (m : Int) : Mention → Finset Int
  | .arrives n => Finset.Ioo m n
  | .announced n => Finset.Ioc m n

/-- Each of these ids is charged for once. -/
theorem card_skipped (m : Int) : ((skipped m x).card : Int) = x.charge m := by
  cases x with
  | arrives n =>
      rw [skipped, Int.card_Ioo, Mention.charge]
      split <;> omega
  | announced n =>
      rw [skipped, Int.card_Ioc, Mention.charge]
      omega

/-- A mention adds the ids it is charged for to the missing, and takes
out the one that arrives. -/
theorem missing_concat :
    missing first (later ++ [x])
      = (missing first later).filter (fun k => x ≠ .arrives k)
        ∪ skipped (mark first later) x := by
  have hfirst : first ≤ mark first later := first_le_mark
  ext k
  have hid : .arrives k ∈ later → k ≤ mark first later :=
    id_le_mark (.arrives k)
  rw [Finset.mem_union, Finset.mem_filter, mem_missing, mem_missing,
    mark_concat, List.mem_append, List.mem_singleton, not_or]
  by_cases hk : k ≤ mark first later
  · -- below the mark only an arrival changes anything
    have hskip : k ∉ skipped (mark first later) x := by
      cases x with
      | arrives n => exact fun h => by have := Finset.mem_Ioo.mp h; omega
      | announced n => exact fun h => by have := Finset.mem_Ioc.mp h; omega
    simp only [hk, hskip, le_max_iff, true_or, true_and, or_false,
      and_assoc, eq_comm]
  · have hnot : .arrives k ∉ later := fun h => hk (hid h)
    have hlt : first < k := by omega
    have hskip : k ∈ skipped (mark first later) x
        ↔ k ≤ x.id ∧ .arrives k ≠ x := by
      cases x with
      | arrives n =>
          simp only [skipped, Finset.mem_Ioo, Mention.id, ne_eq,
            Mention.arrives.injEq]
          omega
      | announced n =>
          simp only [skipped, Finset.mem_Ioc, Mention.id, ne_eq,
            reduceCtorEq, not_false_eq_true, and_true]
          omega
    simp only [hk, hnot, hlt, hskip, le_max_iff, false_or, true_and,
      not_false_eq_true, false_and, ne_eq]

/-- The id that arrives late is one of the missing. -/
theorem late_iff :
    Late first later x ↔ ∃ n ∈ missing first later, x = .arrives n := by
  constructor
  · intro h
    obtain ⟨n, hx, hlt, hnot, y, hy, hn⟩ := h
    exact ⟨n, mem_missing.mpr ⟨hlt, hn.trans (id_le_mark y hy), hnot⟩, hx⟩
  · intro h
    obtain ⟨n, hn, hx⟩ := h
    obtain ⟨hlt, hle, hnot⟩ := mem_missing.mp hn
    exact ⟨n, hx, hlt, hnot, exists_le_id hlt hle⟩

/-- The ids a mention adds to the missing are the ones it is charged
for, and an id that arrives late is no longer missing. The skipped ids
are above the mark and the missing ones below it, so the two do not
overlap. -/
theorem card_missing_concat [Decidable (Late first later x)] :
    ((missing first (later ++ [x])).card : Int)
      = (missing first later).card + x.charge (mark first later)
        - if Late first later x then 1 else 0 := by
  have hdisjoint : Disjoint
      ((missing first later).filter fun k => x ≠ .arrives k)
      (skipped (mark first later) x) := by
    refine Finset.disjoint_left.mpr fun k hk hk' => ?_
    have hle := (mem_missing.mp (Finset.mem_filter.mp hk).1).2.1
    cases x with
    | arrives n => have := Finset.mem_Ioo.mp hk'; omega
    | announced n => have := Finset.mem_Ioc.mp hk'; omega
  have hcard : (((missing first later).filter
        fun k => x ≠ .arrives k).card : Int)
      = (missing first later).card - if Late first later x then 1 else 0 := by
    by_cases hlate : Late first later x
    · obtain ⟨n, hn, rfl⟩ := late_iff.mp hlate
      have herase : (missing first later).filter
          (fun k => Mention.arrives n ≠ .arrives k)
          = (missing first later).erase n := by
        ext k
        rw [Finset.mem_filter, Finset.mem_erase, ne_eq,
          Mention.arrives.injEq, eq_comm, and_comm]
      have hpos := Finset.card_pos.mpr ⟨n, hn⟩
      rw [herase, Finset.card_erase_of_mem hn, if_pos hlate]
      omega
    · have hkeep : ∀ k ∈ missing first later, x ≠ .arrives k :=
        fun k hk hx => hlate (late_iff.mpr ⟨k, hk, hx⟩)
      rw [if_neg hlate, Finset.filter_true_of_mem hkeep]
      omega
  rw [missing_concat, Finset.card_union_of_disjoint hdisjoint, Nat.cast_add,
    hcard, card_skipped]
  omega

/-- The loss charged is at least what is missing, and no more than that
exactly when no id arrived late. By induction from the end: each mention
adds to both sides what it is charged for, and only a late arrival takes
one from the missing. -/
theorem charged_le_iff :
    ((missing first later).card : Int) ≤ charged later first
      ∧ (charged later first ≤ (missing first later).card
        ↔ Timely first later) := by
  classical
  induction later using List.reverseRecOn with
  | nil =>
      have hnil : missing first [] = ∅ := by
        refine Finset.eq_empty_of_forall_notMem fun k hk => ?_
        obtain ⟨hlt, hle, -⟩ := mem_missing.mp hk
        have hle' : k ≤ first := hle
        omega
      rw [hnil]
      refine ⟨le_rfl, iff_of_true le_rfl fun pre x hpre => ?_⟩
      exact absurd (List.prefix_nil.mp hpre) (by simp)
  | append_singleton later x ih =>
      obtain ⟨hle, hiff⟩ := ih
      have htimely : Timely first (later ++ [x])
          ↔ Timely first later ∧ ¬Late first later x := by
        constructor
        · exact fun h => ⟨fun pre y hpre =>
            h pre y (hpre.trans (List.prefix_append _ _)),
            h later x List.prefix_rfl⟩
        · intro hex pre y hpre
          obtain ⟨h, hx⟩ := hex
          rcases List.prefix_concat_iff.mp hpre with heq | hpre
          · obtain ⟨rfl, rfl⟩ := List.append_singleton_inj.mp heq
            exact hx
          · exact h pre y hpre
      rw [htimely, ← hiff, card_missing_concat, charged_concat]
      split
      case isTrue hlate =>
        refine ⟨by omega, iff_of_false (by omega) fun h => h.2 hlate⟩
      case isFalse hlate =>
        refine ⟨by omega, ?_⟩
        rw [and_iff_left hlate]
        omega

end Late

-- ================================================================ totals

/-- One key's account moves by `d`; the total over the keys, this one
among them now, moves by `d`. -/
theorem sum_insert_move {K : Type} [DecidableEq K] {S : Finset K}
    {f g : K → Int} {k : K} {d : Int} (hother : ∀ j, j ≠ k → g j = f j)
    (hkey : g k = f k + d) (hnew : k ∉ S → f k = 0) :
    ∑ j ∈ insert k S, g j = ∑ j ∈ S, f j + d := by
  have hg : ∀ j ∈ insert k S, g j = f j + if j = k then d else 0 := by
    intro j _
    by_cases hj : j = k
    · rw [hj, if_pos rfl, hkey]
    · rw [if_neg hj, hother j hj, add_zero]
  rw [Finset.sum_congr rfl hg, Finset.sum_add_distrib,
    Finset.sum_insert_of_eq_zero_if_notMem hnew, Finset.sum_ite_eq',
    if_pos (Finset.mem_insert_self k S)]

end MarketPlatform.Lib.Watermark
