/-
How often the freshness sensor launches.

# The key

The key of a run is the staleness that was read, and nothing else. Where
Dagster launches a run for a new key only (`LaunchesNewKeys`), a sensor
launches one run for each staleness it ever reads as fresh
(`launched_run`): every fresh evaluation launches one exactly when no
two of them read the same. A staleness is a whole number of minutes
between 0 and 5, so on a feed that is well there are few of them, and
soon none is left.

# The invariant

After any evaluations the keys used are those of the fresh readings, in
order, and the runs launched are as many as there are different ones
(`Served`). A fresh evaluation asks under one key
(`runRequests_feedFreshnessSensor`), which is new exactly when its
staleness is, since different numbers have different texts
(`runKeyOf_injective`).
-/
import Mathlib.Data.Finset.Card
import Mathlib.Data.Finset.Insert
import Mathlib.Data.Int.Interval
import Std.Data.String.ToInt
import MarketPlatform.Orchestration.Sensors

namespace MarketPlatform.Orchestration

/-- A request launches a run if and only if its key is new. -/
def LaunchesNewKeys (launches : List String → String → Bool) : Prop :=
  ∀ used key, launches used key = true ↔ key ∉ used

/-- The staleness of an evaluation, if it is fresh. -/
def freshStaleness (rows : List (Option Int)) : Option Int :=
  (staleness rows).filter fun s => s ≤ freshnessLimitMinutes

/-- The stalenesses that were fresh, in their order. -/
def freshReadings (readings : List (List (Option Int))) : List Int :=
  readings.filterMap freshStaleness

-- ============================================================= one request

/-- The key of a run. -/
def runKeyOf (staleness : Int) : String := "fresh-" ++ toString staleness

/-- Different stalenesses have different keys: a number is read back
from its text. -/
theorem runKeyOf_injective : Function.Injective runKeyOf := by
  intro a b h
  have hrepr : a.repr = b.repr := (String.append_right_inj _).mp h
  exact Int.repr_inj.mp hrepr

/-- A fresh evaluation asks for one run, any other for none. -/
theorem runRequests_feedFreshnessSensor (rows : List (Option Int)) :
    (feedFreshnessSensor rows).runRequests
      = (freshStaleness rows).toList.map fun s => ⟨runKeyOf s⟩ := by
  unfold feedFreshnessSensor freshStaleness
  cases staleness rows with
  | none => rfl
  | some s =>
      by_cases hstale : s > freshnessLimitMinutes
      · have hfilter : (some s).filter (fun s => s ≤ freshnessLimitMinutes)
            = none := by simpa [Option.filter] using hstale
        rw [hfilter]
        simp only [if_pos hstale]
        rfl
      · have hfilter : (some s).filter (fun s => s ≤ freshnessLimitMinutes)
            = some s := by simpa [Option.filter] using hstale
        rw [hfilter]
        simp only [if_neg hstale]
        rfl

-- ================================================================= the runs

namespace SensorState

variable {launches : List String → String → Bool}

/-- The keys used are those of the fresh readings, and a run was launched
for each that is different. -/
structure Served (s : SensorState) (fresh : List Int) : Prop where
  usedKeys : s.usedKeys = fresh.map runKeyOf
  launched : s.launched = fresh.toFinset.card

/-- One request: its key is new when its staleness is. -/
theorem Served.request (hlaunches : LaunchesNewKeys launches)
    {s : SensorState} {fresh : List Int} (hs : s.Served fresh) (n : Int) :
    (s.request launches ⟨runKeyOf n⟩).Served (fresh ++ [n]) := by
  have hused : runKeyOf n ∈ s.usedKeys ↔ n ∈ fresh := by
    rw [hs.usedKeys, List.mem_map_of_injective runKeyOf_injective]
  constructor
  · show s.usedKeys ++ [runKeyOf n] = _
    rw [hs.usedKeys, List.map_append]
    rfl
  · show s.launched + (if launches s.usedKeys (runKeyOf n) then 1 else 0) = _
    have hset : (fresh ++ [n]).toFinset = insert n fresh.toFinset := by
      rw [List.toFinset_append, Finset.union_comm]
      rfl
    rw [hs.launched, hset]
    by_cases hn : n ∈ fresh
    · have hold : ¬ launches s.usedKeys (runKeyOf n) = true := by
        rw [hlaunches, not_not, hused]
        exact hn
      rw [if_neg hold, Nat.add_zero,
        Finset.insert_eq_of_mem (List.mem_toFinset.mpr hn)]
    · have hnew : launches s.usedKeys (runKeyOf n) = true := by
        rw [hlaunches, hused]
        exact hn
      rw [if_pos hnew, Finset.card_insert_of_notMem
        (mt List.mem_toFinset.mp hn)]

/-- One evaluation: at most one request. -/
theorem Served.tick (hlaunches : LaunchesNewKeys launches)
    {s : SensorState} {fresh : List Int} (hs : s.Served fresh)
    (rows : List (Option Int)) :
    (s.tick launches rows).Served
      (fresh ++ (freshStaleness rows).toList) := by
  unfold SensorState.tick
  rw [runRequests_feedFreshnessSensor]
  cases freshStaleness rows with
  | none =>
      rw [Option.toList_none, List.append_nil]
      exact hs
  | some n => exact hs.request hlaunches n

/-- Evaluations, by induction on them. -/
theorem Served.run (hlaunches : LaunchesNewKeys launches)
    (readings : List (List (Option Int))) :
    ∀ {s : SensorState} {fresh : List Int}, s.Served fresh →
      (s.run launches readings).Served (fresh ++ freshReadings readings) := by
  induction readings with
  | nil =>
      intro s fresh hs
      rw [freshReadings, List.filterMap_nil, List.append_nil]
      exact hs
  | cons rows readings ih =>
      intro s fresh hs
      have hrest := ih (hs.tick hlaunches rows)
      have hcons : freshReadings (rows :: readings)
          = (freshStaleness rows).toList ++ freshReadings readings := by
        unfold freshReadings
        cases h : freshStaleness rows with
        | none => rw [List.filterMap_cons_none h]; rfl
        | some n => rw [List.filterMap_cons_some h]; rfl
      rw [hcons, ← List.append_assoc]
      exact hrest

/-- One run is launched for each staleness that was ever fresh. -/
theorem launched_run (hlaunches : LaunchesNewKeys launches)
    (readings : List (List (Option Int))) :
    (run launches {} readings).launched
      = (freshReadings readings).toFinset.card := by
  have hnew : Served {} [] := ⟨rfl, rfl⟩
  have hrun := hnew.run hlaunches readings
  rw [List.nil_append] at hrun
  exact hrun.launched

/-- Every fresh evaluation launches a run if and only if no two of them
read the same staleness: a list has as many different elements as
elements when it has none twice. -/
theorem keeps_launching_iff (hlaunches : LaunchesNewKeys launches)
    (readings : List (List (Option Int))) :
    (run launches {} readings).launched = (freshReadings readings).length
      ↔ (freshReadings readings).Nodup := by
  rw [launched_run hlaunches]
  exact Multiset.toFinset_card_eq_card_iff_nodup

/-- A Dagster that launches new keys. -/
def newKeysOnly (used : List String) (key : String) : Bool :=
  !used.contains key

/-- It does so. -/
theorem launchesNewKeys_newKeysOnly : LaunchesNewKeys newKeysOnly := by
  intro used key
  simp [newKeysOnly]

/-- A minute later the newest trade is as old, and nothing is launched. -/
theorem second_fresh_evaluation_skipped :
    (run newKeysOnly {} [[some 0], [some 0]]).launched = 1
      ∧ (freshReadings [[some 0], [some 0]]).length = 2 := by
  decide +kernel

/-- A feed that goes quiet, through all its fresh readings. -/
theorem keeps_launching_iff_quiet :
    (run newKeysOnly {} [[some 0], [some 2], [some 5], [some 6], [none]]
      ).launched = 3 :=
  (keeps_launching_iff launchesNewKeys_newKeysOnly
    [[some 0], [some 2], [some 5], [some 6], [none]]).mpr (by decide +kernel)

end SensorState

end MarketPlatform.Orchestration
