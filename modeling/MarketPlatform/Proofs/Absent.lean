/-
Which products the warning of absence names.

# What the test reads

`assert_all_products_present` reads the mart, and the mart is what
builds have left there, partition by partition: some of them written
just now, others long ago, and none of them where a build failed or
stopped early. But of the rows it has only the products and dates
matter.

# Both directions

Every row is a copy of a trade that had arrived. This is an invariant of
the builds (`Marts.Arrived`): a run that writes takes its rows from
staging, and everything it leaves was there before, so the induction is
over the builds with one case for each way a build can end
(`arrived_dbtBuilds`). For the other direction only the last build
counts, if it got as far as `fct_trades`: of the dates the test reads it
brings in every trade that had arrived (`mem_runTrades`), because these
dates lie in its lookback and staging shows what has arrived there.

So the test names the tracked products of which no trade of yesterday or
later had arrived by then, whatever the earlier builds were
(`absent_iff`).
-/
import MarketPlatform.Proofs.Gates

namespace MarketPlatform.Warehouse

open Lib Lib.Rfc3339 Lib.Relation Lib.Partitioned

-- ================================================================ the rows

/-- The trades of the table are copies that had arrived. -/
def Marts.Arrived (vars : Vars) (history : List Delivery) (now : Int)
    (m : Marts) : Prop :=
  ∀ trades ∈ m.trades, ∀ t ∈ trades,
    ∃ s ∈ arrived vars history now, FctTrade.ofStaged s = t

section Build

variable {vars : Vars} {history : List Delivery} {i : Invocation}
  {m : Marts} {staged : List StgTrade} {now : Int}

/-- One build keeps it, however far it gets: what it writes was staged,
and what it leaves was there. -/
theorem arrived_dbtBuild (hm : m.Arrived vars history now)
    (hnow : i.now ≤ now) :
    (dbtBuild vars history m i).Arrived vars history now := by
  rcases dbtBuild_cases vars history m i with ⟨-, hsame⟩
    | ⟨staged, hstaged, htrades, -⟩
  · rw [hsame]
    exact hm
  · intro trades hmem
    rw [htrades] at hmem
    obtain rfl := Option.some.inj hmem
    refine forall_materialize hm fun inc t ht => ?_
    obtain ⟨s, hs, rfl⟩ := List.mem_map.mp ht
    have hshown := (firsts_staged hstaged).mem s (mem_of_mem_windowed hs)
    exact ⟨s, mem_arrived_mono hnow (mem_arrived_of_shown hshown), rfl⟩

/-- Builds up to a time leave trades that had arrived by it. -/
theorem arrived_dbtBuilds (is : List Invocation)
    (hm : m.Arrived vars history now) (his : ∀ i ∈ is, i.now ≤ now) :
    (dbtBuilds vars history m is).Arrived vars history now := by
  induction is generalizing m with
  | nil => exact hm
  | cons i is ih =>
      obtain ⟨hi, his⟩ := List.forall_mem_cons.mp his
      exact ih (arrived_dbtBuild hm hi) his

/-- What a run stages of a date in its lookback is in its table. -/
theorem mem_runTrades {s : StgTrade} (hs : s ∈ staged)
    (hin : inLookback vars i.now s.eventDate = true) :
    FctTrade.ofStaged s ∈ m.runTrades vars i staged := by
  have hquery : ∀ inc, FctTrade.ofStaged s
      ∈ fctTrades (windowed vars i.now inc StgTrade.eventDate staged) := by
    intro inc
    refine List.mem_map_of_mem ?_
    cases inc with
    | false => exact hs
    | true => exact List.mem_filter.mpr ⟨hs, hin⟩
  unfold Marts.runTrades materialize
  split
  · exact List.mem_append_right _ (hquery true)
  · exact hquery false

/-- Of a product and date in the lookback the table has a trade, when one
had arrived. -/
theorem exists_runTrades (hparts : PartitionsFollow history)
    (hdate : OneDate history) (hstaged : i.staged vars history = some staged)
    {s : StgTrade} (hs : s ∈ arrived vars history i.now)
    (hin : inLookback vars i.now s.eventDate = true) :
    ∃ t ∈ m.runTrades vars i staged,
      t.productId = s.productId ∧ t.eventDate = s.eventDate := by
  have hshown := (mem_shown_iff_arrived hparts hin).mpr hs
  obtain ⟨a, ha, hkey⟩ := (firsts_staged hstaged).each s hshown
  obtain ⟨q, hq, hqs⟩ := derived_of_mem_arrived hs
  obtain ⟨r, hr, hra⟩ := derived_of_mem_shown ((firsts_staged hstaged).mem a ha)
  have hsame : a.eventDate = s.eventDate := hdate r hr q hq a hra s hqs hkey
  refine ⟨FctTrade.ofStaged a, mem_runTrades ha ?_, ?_, hsame⟩
  · rw [hsame]
    exact hin
  · exact congrArg Prod.snd hkey

end Build

-- ================================================================ the test

/-- The test names a tracked product when all its trades are older than
yesterday, or there are none. -/
theorem mem_assertAllProductsPresent {vars : Vars} {now : Int}
    {trades : List FctTrade} {p : String} :
    p ∈ assertAllProductsPresent vars now trades
      ↔ p ∈ vars.trackedProducts
        ∧ ∀ t ∈ trades, t.productId = p → t.eventDate < dateOf now - 1 := by
  simp only [assertAllProductsPresent, List.mem_filter, decide_eq_true_eq,
    List.mem_dedup, List.mem_map, not_exists, not_and]
  refine and_congr_right fun _ => ?_
  constructor
  · intro h t ht hp
    by_contra hle
    exact h t ⟨ht, not_lt.mp hle⟩ hp
  · intro h t ht hp
    exact absurd ht.2 (not_le.mpr (h t ht.1 hp))

/-- From a build that succeeds until the next one, the test names
exactly the tracked products of which no trade of yesterday or later had
arrived by that build.

If no such trade had arrived, none is in the table, since what is there
had arrived (`arrived_dbtBuilds`). If one had, the last build has put a
trade of its product and date into the table (`exists_runTrades`). -/
theorem absent_iff (vars : Vars) (history : List Delivery)
    (hparts : PartitionsFollow history) (hdate : OneDate history)
    (hback : 1 ≤ vars.lookbackDays) (is : List Invocation) (i : Invocation)
    (his : ∀ j ∈ is, j.now ≤ i.now)
    (hok : (i.staged vars history).isSome) (now : Int) (hnow : i.now ≤ now)
    (trades : List FctTrade)
    (htrades : (dbtBuilds vars history {} (is ++ [i])).trades = some trades)
    (p : String) :
    p ∈ assertAllProductsPresent vars now trades
      ↔ p ∈ vars.trackedProducts
        ∧ ∀ s ∈ arrived vars history i.now,
          s.productId = p → s.eventDate < dateOf now - 1 := by
  rw [mem_assertAllProductsPresent]
  refine and_congr_right fun _ => ?_
  constructor
  · intro habsent s hs hp
    by_contra hlate
    obtain ⟨staged, hstaged⟩ := Option.isSome_iff_exists.mp hok
    -- the dates the test reads are inside the lookback of the build
    have hin : inLookback vars i.now s.eventDate = true := by
      have hdates : dateOf i.now ≤ dateOf now :=
        Int.ediv_le_ediv (by decide) hnow
      refine decide_eq_true ?_
      omega
    rw [dbtBuilds_append] at htrades
    rcases dbtBuild_cases vars history (dbtBuilds vars history {} is) i with
      ⟨hnone, -⟩ | ⟨staged', hstaged', hrun, -⟩
    · rw [hstaged] at hnone
      cases hnone
    · obtain rfl := Option.some.inj (hrun.symm.trans htrades)
      obtain ⟨t, ht, htp, htd⟩ :=
        exists_runTrades (m := dbtBuilds vars history {} is) hparts hdate
          hstaged' hs hin
      have hearly := habsent t ht (htp.trans hp)
      rw [htd] at hearly
      exact hlate hearly
  · intro hnone t ht hp
    have hnew : Marts.Arrived vars history i.now {} := by
      intro trades hmem
      cases hmem
    have hall : ∀ j ∈ is ++ [i], j.now ≤ i.now := by
      intro j hj
      rcases List.mem_append.mp hj with hj | hj
      · exact his j hj
      · rw [List.mem_singleton.mp hj]
    obtain ⟨s, hs, rfl⟩ := arrived_dbtBuilds _ hnew hall trades htrades t ht
    exact hnone s hs hp

/-- The last trade of the day of the loss is two days old. -/
theorem absent_iff_gap :
    ∃ trades, (dbtBuilds {} gapDay {} (gapBuilds ++ [buildAt 60])).trades
        = some trades
      ∧ "BTC-USD" ∈ assertAllProductsPresent {} (60 * hour) trades := by
  have hsome : (dbtBuilds {} gapDay {}
      (gapBuilds ++ [buildAt 60])).trades.isSome := by decide +kernel
  obtain ⟨trades, htrades⟩ := Option.isSome_iff_exists.mp hsome
  refine ⟨trades, htrades, ?_⟩
  exact (absent_iff {} gapDay (by decide +kernel) (by decide +kernel)
    (by decide) gapBuilds (buildAt 60) (by decide) (by decide +kernel)
    (60 * hour) (by decide) trades htrades "BTC-USD").mpr
      ⟨by decide, by decide +kernel⟩

end MarketPlatform.Warehouse
