/-
Gaps in a counter.

# Holes

`holes S` are the values between members of `S` that are not members.
For a set whose least and greatest members are known their number is the
span less the members (`card_holes`), which is how a program computes it
that never lists them.

# Parts

A set that is cut into parts which follow one another (`Successive`)
keeps the holes of its parts, and no value is a hole of two of them;
what it has besides lies between two parts. So the parts' holes never
add up to more than the set's (`sum_card_holes_le`), what is left is
counted by `sum_card_holes_add`, and the two are equal exactly when none
lies between parts (`sum_card_holes_eq_iff`). The one argument behind
all of them is `eq_of_between`: between two members of one part there
are members of no other.
-/
import Mathlib.Algebra.Order.BigOperators.Group.Finset
import Mathlib.Data.Finset.Union
import Mathlib.Data.Int.Interval

namespace MarketPlatform.Lib.Gaps

variable {τ : Type} {S T : Finset Int} {i first last : Int}

/-- The order of the values, as it is computed. -/
local instance valueOrder : Preorder Int := Int.instLinearOrder.toPreorder

/-- The values between two members that are not members. -/
def holes (S : Finset Int) : Finset Int :=
  S.biUnion fun a => S.biUnion fun b => (Finset.Ioo a b).filter (· ∉ S)

/-- A hole is no member and has members on both sides. -/
theorem mem_holes :
    i ∈ holes S ↔ i ∉ S ∧ (∃ a ∈ S, a < i) ∧ ∃ b ∈ S, i < b := by
  simp only [holes, Finset.mem_biUnion, Finset.mem_filter, Finset.mem_Ioo]
  constructor
  · intro h
    obtain ⟨a, ha, b, hb, ⟨hai, hib⟩, hi⟩ := h
    exact ⟨hi, ⟨a, ha, hai⟩, ⟨b, hb, hib⟩⟩
  · intro h
    obtain ⟨hi, ⟨a, ha, hai⟩, ⟨b, hb, hib⟩⟩ := h
    exact ⟨a, ha, b, hb, ⟨hai, hib⟩, hi⟩

/-- The span of a set, less its members: every value from the first to
the last is a member or a hole, and none is both. -/
theorem card_holes (hfirst : first ∈ S) (hlast : last ∈ S)
    (hmin : ∀ a ∈ S, first ≤ a) (hmax : ∀ a ∈ S, a ≤ last) :
    ((holes S).card : Int) = last - first + 1 - S.card := by
  have hholes : holes S = Finset.Icc first last \ S := by
    ext i
    rw [mem_holes, Finset.mem_sdiff, Finset.mem_Icc]
    constructor
    · intro hx
      obtain ⟨hi, ⟨a, ha, hai⟩, ⟨b, hb, hib⟩⟩ := hx
      exact ⟨⟨(hmin a ha).trans hai.le, hib.le.trans (hmax b hb)⟩, hi⟩
    · intro hx
      obtain ⟨⟨hfi, hil⟩, hi⟩ := hx
      exact ⟨hi, ⟨first, hfirst, hfi.lt_of_ne fun h => hi (h ▸ hfirst)⟩,
        ⟨last, hlast, hil.lt_of_ne fun h => hi (h ▸ hlast)⟩⟩
  have hsub : S ⊆ Finset.Icc first last := fun a ha =>
    Finset.mem_Icc.mpr ⟨hmin a ha, hmax a ha⟩
  have hle : first ≤ last := hmax first hfirst
  have hcard := Finset.card_sdiff_add_card_eq_card hsub
  rw [Int.card_Icc] at hcard
  rw [hholes]
  omega

-- ================================================================== parts

/-- Parts of which every one lies before the next. -/
def Successive [LT τ] (ts : Finset τ) (parts : τ → Finset Int) : Prop :=
  ∀ t ∈ ts, ∀ u ∈ ts, t < u → ∀ a ∈ parts t, ∀ b ∈ parts u, a < b

variable [LinearOrder τ] {ts : Finset τ} {parts : τ → Finset Int}

/-- Between two members of one part there are members of no other. -/
theorem eq_of_between (h : Successive ts parts) {t u : τ} (ht : t ∈ ts)
    (hu : u ∈ ts) {a b c : Int} (ha : a ∈ parts t) (hb : b ∈ parts t)
    (hc : c ∈ parts u) (hac : a ≤ c) (hcb : c ≤ b) : u = t := by
  rcases lt_trichotomy u t with hlt | heq | hgt
  · have hca := h u hu t ht hlt c hc a ha
    omega
  · exact heq
  · have hbc := h t ht u hu hgt b hb c hc
    omega

/-- A hole of a part is a hole of the whole. -/
theorem holes_part_subset (h : Successive ts parts) {t : τ} (ht : t ∈ ts) :
    holes (parts t) ⊆ holes (ts.biUnion parts) := by
  intro i hi
  obtain ⟨hnot, ⟨a, ha, hai⟩, ⟨b, hb, hib⟩⟩ := mem_holes.mp hi
  refine mem_holes.mpr ⟨fun hmem => ?_,
    ⟨a, Finset.mem_biUnion.mpr ⟨t, ht, ha⟩, hai⟩,
    ⟨b, Finset.mem_biUnion.mpr ⟨t, ht, hb⟩, hib⟩⟩
  obtain ⟨u, hu, hiu⟩ := Finset.mem_biUnion.mp hmem
  have hut : u = t := eq_of_between h ht hu ha hb hiu hai.le hib.le
  exact hnot (hut ▸ hiu)

/-- No value is a hole of two parts. -/
theorem holes_disjoint (h : Successive ts parts) :
    (ts : Set τ).PairwiseDisjoint fun t => holes (parts t) := by
  intro t ht u hu hne
  refine Finset.disjoint_left.mpr fun i hit hiu => ?_
  obtain ⟨-, ⟨a, ha, hai⟩, ⟨b, hb, hib⟩⟩ := mem_holes.mp hit
  obtain ⟨-, ⟨c, hc, hci⟩, ⟨d, hd, hid⟩⟩ := mem_holes.mp hiu
  rcases hne.lt_or_gt with hlt | hgt
  · have hbc := h t ht u hu hlt b hb c hc
    omega
  · have hda := h u hu t ht hgt d hd a ha
    omega

/-- The holes of the parts add up to those of the whole exactly when no
hole lies between parts: the union of the parts' holes is a subset with
as many elements. -/
theorem sum_card_holes_eq_iff (h : Successive ts parts) :
    (∑ t ∈ ts, (holes (parts t)).card) = (holes (ts.biUnion parts)).card
      ↔ ∀ i ∈ holes (ts.biUnion parts), ∃ t ∈ ts, i ∈ holes (parts t) := by
  rw [← Finset.card_biUnion (holes_disjoint h)]
  have hsub : (ts.biUnion fun t => holes (parts t))
      ⊆ holes (ts.biUnion parts) := by
    intro i hi
    obtain ⟨t, ht, hit⟩ := Finset.mem_biUnion.mp hi
    exact holes_part_subset h ht hit
  constructor
  · intro hcard i hi
    rw [← Finset.eq_of_subset_of_card_le hsub hcard.ge] at hi
    exact Finset.mem_biUnion.mp hi
  · intro hall
    have heq : (ts.biUnion fun t => holes (parts t))
        = holes (ts.biUnion parts) :=
      hsub.antisymm fun i hi => Finset.mem_biUnion.mpr (hall i hi)
    rw [heq]

/-- They never add up to more. -/
theorem sum_card_holes_le (h : Successive ts parts) :
    (∑ t ∈ ts, (holes (parts t)).card)
      ≤ (holes (ts.biUnion parts)).card := by
  rw [← Finset.card_biUnion (holes_disjoint h)]
  refine Finset.card_le_card fun i hi => ?_
  obtain ⟨t, ht, hit⟩ := Finset.mem_biUnion.mp hi
  exact holes_part_subset h ht hit

/-- With the holes between parts they are the holes of the whole. -/
theorem sum_card_holes_add (h : Successive ts parts) :
    (∑ t ∈ ts, (holes (parts t)).card)
        + ((holes (ts.biUnion parts)).filter fun i =>
          ∀ t ∈ ts, i ∉ holes (parts t)).card
      = (holes (ts.biUnion parts)).card := by
  have hinside : (ts.biUnion fun t => holes (parts t))
      = (holes (ts.biUnion parts)).filter fun i =>
        ¬ ∀ t ∈ ts, i ∉ holes (parts t) := by
    ext i
    rw [Finset.mem_biUnion, Finset.mem_filter]
    push Not
    constructor
    · intro hi
      obtain ⟨t, ht, hit⟩ := hi
      exact ⟨holes_part_subset h ht hit, t, ht, hit⟩
    · exact fun hi => hi.2
  rw [← Finset.card_biUnion (holes_disjoint h), hinside, add_comm]
  exact Finset.card_filter_add_card_filter_not _

end MarketPlatform.Lib.Gaps
