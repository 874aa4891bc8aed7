/-
Which builds the coarser bars wait for.

# The one test that can fail

The minute bars of coherent tables pass every test of their own but one
(`barsPass_iff`): the sums of a product and date must be those of its
trades. A build rewrites the minute bars of the dates in its lookback
that have trades, and those agree (`not_mismatch_of_bars`). So the test
looks at the dates the build leaves alone (`coarse_rebuilt_iff`), and
there the disagreement can only come from earlier builds that wrote
`fct_trades` and stopped at its tests.

# For good

Once such a date is out of the lookback no incremental build touches
either side of it, and the coarser bars are never written again
(`coarse_frozen`). The invariant is `Frozen`: the tables disagree on the
date, and the coarser bars are those of the builds before. A later build
may write trades and minute bars of other dates, and keeps it.

# Open gates

Where the trades of every build pass their tests the tests of the bars
stop nothing, and the tables are those of the builds without tests
(`dbtBuilds_eq_untested`): sound tables agree on every date
(`Tables.Sound.reconciles`) and coherent ones pass the rest. So what is
shown of builds without tests holds of real ones as long as the tests of
`fct_trades` pass.
-/
import MarketPlatform.Proofs.Coherence
import MarketPlatform.Proofs.Latency
import MarketPlatform.Proofs.Schedule

namespace MarketPlatform.Warehouse

open Lib Lib.Rfc3339 Lib.Relation Lib.Partitioned

-- =========================================================== the other tests

/-- Coherent minute bars with one row a key fail no test but the one that
compares them with the trades. -/
theorem barsPass_iff {bars : List Bar} {trades : List FctTrade}
    (h : MinuteBars bars) :
    BarsPass bars trades ↔ assertBarVolumeReconciles bars trades = [] := by
  refine ⟨BarsPass.reconciles, fun hrec => ⟨?_, ?_, ?_, ?_, ?_, hrec⟩⟩
  · refine expressionIsTrue_eq_nil_iff.mpr fun b hb => ?_
    simp [(h.coherent b hb).volume.pos]
  · refine expressionIsTrue_eq_nil_iff.mpr fun b hb => ?_
    simp [(h.coherent b hb).trades]
  · refine expressionIsTrue_eq_nil_iff.mpr fun b hb => ?_
    obtain ⟨x, hx, hlow, hhigh⟩ := (h.coherent b hb).volume.imbalance
    simp [hx, hlow, hhigh]
  · rw [uniqueCombinationOfColumns, List.map_eq_nil_iff]
    exact occurrences_eq_nil_iff.mpr h.keys
  · refine List.filter_eq_nil_iff.mpr fun b hb => ?_
    obtain ⟨o, hi, l, c, ho, hhi, hl, hc, -, hlo, hlc, hoh, hch⟩ :=
      (h.coherent b hb).prices
    simp [ho, hhi, hl, hc, below, hlo, hlc, hoh, hch, hlo.trans hoh]

-- ================================================================== totals

/-- The totals of a product and date, from its bars. -/
def barTotal (bars : List Bar) (k : String × Int) : Option DayTotal :=
  (fromBars bars).find? fun r => r.key = k

/-- The totals of a product and date, from its trades. -/
def tradeTotal (trades : List FctTrade) (k : String × Int) :
    Option DayTotal :=
  (fromTrades trades).find? fun r => r.key = k

/-- The test selects the product and date. -/
def Mismatch (bars : List Bar) (trades : List FctTrade)
    (k : String × Int) : Prop :=
  disagree (barTotal bars k) (tradeTotal trades k) = true

instance (bars : List Bar) (trades : List FctTrade) (k : String × Int) :
    Decidable (Mismatch bars trades k) :=
  inferInstanceAs (Decidable (_ = true))

section Totals

variable {α κ : Type} [DecidableEq κ] {key : α → κ} {rows : List α} {k : κ}

/-- The row of a key is the one a search finds. -/
theorem rowAt_iff_find? (hnodup : (rows.map key).Nodup) {a : Option α} :
    RowAt key rows k a ↔ rows.find? (fun r => key r = k) = a := by
  have hnone : rows.find? (fun r => decide (key r = k)) = none
      ↔ k ∉ groups key rows := by
    rw [List.find?_eq_none, mem_groups]
    simp only [decide_eq_true_eq, not_exists, not_and]
  cases a with
  | none => exact hnone.symm
  | some a =>
      constructor
      · intro h
        obtain ⟨ha, rfl⟩ := h
        cases hfind : rows.find? (fun r => decide (key r = key a)) with
        | none => exact absurd (mem_groups.mpr ⟨a, ha, rfl⟩) (hnone.mp hfind)
        | some b =>
            have hb := List.mem_of_find?_eq_some hfind
            have hkey := List.find?_some hfind
            rw [List.inj_on_of_nodup_map hnodup hb ha
              (of_decide_eq_true hkey)]
      · intro h
        have hkey := List.find?_some h
        exact ⟨List.mem_of_find?_eq_some h, of_decide_eq_true hkey⟩

end Totals

/-- One row for each product and date. -/
theorem nodup_fromBars {bars : List Bar} :
    ((fromBars bars).map DayTotal.key).Nodup := by
  rw [fromBars, map_groupBy fun _ _ => rfl]
  exact nodup_groups

/-- One row for each product and date. -/
theorem nodup_fromTrades {trades : List FctTrade} :
    ((fromTrades trades).map DayTotal.key).Nodup := by
  rw [fromTrades, map_groupBy fun _ _ => rfl]
  exact nodup_groups

/-- The test passes when no product and date disagrees. -/
theorem reconciles_iff {bars : List Bar} {trades : List FctTrade} :
    assertBarVolumeReconciles bars trades = []
      ↔ ∀ k, ¬ Mismatch bars trades k := by
  rw [assertBarVolumeReconciles, List.filter_eq_nil_iff]
  constructor
  · intro h k hk
    refine h (barTotal bars k, tradeTotal trades k)
      (mem_fullOuterJoin_iff.mpr ⟨?_, k,
        (rowAt_iff_find? nodup_fromBars).mpr rfl,
        (rowAt_iff_find? nodup_fromTrades).mpr rfl⟩) hk
    -- two totals that are both missing agree
    by_contra hnone
    rw [not_or, Option.not_isSome_iff_eq_none, Option.not_isSome_iff_eq_none]
      at hnone
    have hb : barTotal bars k = none := hnone.1
    have ht : tradeTotal trades k = none := hnone.2
    rw [Mismatch, hb, ht] at hk
    exact absurd hk (by decide +kernel)
  · rintro h ⟨a, b⟩ hab hdis
    obtain ⟨-, k, ha, hb⟩ := mem_fullOuterJoin_iff.mp hab
    have hak := (rowAt_iff_find? nodup_fromBars).mp ha
    have hbk := (rowAt_iff_find? nodup_fromTrades).mp hb
    refine h k ?_
    rw [Mismatch, barTotal, tradeTotal, hak, hbk]
    exact hdis

/-- Grouping by two columns is grouping by one after the other. -/
theorem group_pair {α κ σ : Type} [DecidableEq κ] [DecidableEq σ]
    {f : α → κ} {g : α → σ} {rows : List α} (k : κ × σ) :
    group (fun a => (f a, g a)) rows k = group f (group g rows k.2) k.1 := by
  rw [group, group, group, List.filter_filter]
  refine List.filter_congr fun a _ => ?_
  rw [← Bool.decide_and]
  exact decide_eq_decide.mpr Prod.ext_iff

/-- The bars of a product and date, within the date's partition. -/
theorem group_barDay (bars : List Bar) (k : String × Int) :
    group Bar.dayKey bars k
      = group Bar.productId (group Bar.eventDate bars k.2) k.1 := group_pair k

/-- The trades of a product and date, within the date's partition. -/
theorem group_tradeDay (trades : List FctTrade) (k : String × Int) :
    group FctTrade.dayKey trades k
      = group FctTrade.productId (group FctTrade.eventDate trades k.2) k.1 :=
  group_pair k

/-- The totals of a product and date, or none without bars. -/
theorem barTotal_eq (bars : List Bar) (k : String × Int) :
    barTotal bars k
      = if group Bar.dayKey bars k = [] then none
        else some ⟨k.1, k.2, ((group Bar.dayKey bars k).map Bar.volume).sum,
          ((group Bar.dayKey bars k).map Bar.tradeCount).sum⟩ := by
  split
  · next h =>
      exact find?_groupBy_eq_none (fun _ _ => rfl) fun hk =>
        group_ne_nil_iff.mpr hk h
  · next h => exact find?_groupBy (fun _ _ => rfl) (group_ne_nil_iff.mp h)

/-- The totals of a product and date, or none without trades. -/
theorem tradeTotal_eq (trades : List FctTrade) (k : String × Int) :
    tradeTotal trades k
      = if group FctTrade.dayKey trades k = [] then none
        else some ⟨k.1, k.2,
          ((group FctTrade.dayKey trades k).map FctTrade.size).sum,
          (group FctTrade.dayKey trades k).length⟩ := by
  split
  · next h =>
      exact find?_groupBy_eq_none (fun _ _ => rfl) fun hk =>
        group_ne_nil_iff.mpr hk h
  · next h => exact find?_groupBy (fun _ _ => rfl) (group_ne_nil_iff.mp h)

/-- A date's totals are those of its partitions. -/
theorem mismatch_congr {bars bars' : List Bar} {trades trades' : List FctTrade}
    {k : String × Int}
    (hbars : group Bar.eventDate bars k.2 = group Bar.eventDate bars' k.2)
    (htrades : group FctTrade.eventDate trades k.2
      = group FctTrade.eventDate trades' k.2) :
    Mismatch bars trades k ↔ Mismatch bars' trades' k := by
  have hb : group Bar.dayKey bars k = group Bar.dayKey bars' k := by
    rw [group_barDay, hbars, ← group_barDay]
  have ht : group FctTrade.dayKey trades k
      = group FctTrade.dayKey trades' k := by
    rw [group_tradeDay, htrades, ← group_tradeDay]
  rw [Mismatch, Mismatch, barTotal_eq, barTotal_eq, tradeTotal_eq,
    tradeTotal_eq, hb, ht]

/-- Bars made of a date's trades add up to them. -/
theorem not_mismatch_of_bars {E : Engine} {bars : List Bar}
    {trades : List FctTrade} {k : String × Int}
    (h : (group Bar.eventDate bars k.2).Perm
      (fctBars1m E (group FctTrade.eventDate trades k.2))) :
    ¬ Mismatch bars trades k := by
  have hbars : (group Bar.dayKey bars k).Perm
      (fctBars1m E (group FctTrade.dayKey trades k)) := by
    have hagg : ∀ (j : String × Int) rows, (barOf E j rows).productId = j.1 :=
      fun _ _ => rfl
    have hproduct : group Bar.productId
        (fctBars1m E (group FctTrade.eventDate trades k.2)) k.1
        = fctBars1m E (group FctTrade.productId
            (group FctTrade.eventDate trades k.2) k.1) :=
      group_groupBy (fun j _ => hagg j _) (fun _ _ => rfl) k.1
    rw [group_barDay, group_tradeDay, ← hproduct]
    exact h.filter _
  have hvolume : ((group Bar.dayKey bars k).map Bar.volume).sum
      = ((group FctTrade.dayKey trades k).map FctTrade.size).sum := by
    rw [sum_map_perm hbars]
    exact sum_groupBy fun _ _ => rfl
  have hcount : ((group Bar.dayKey bars k).map Bar.tradeCount).sum
      = (group FctTrade.dayKey trades k).length := by
    have hsum : ((group Bar.dayKey bars k).map Bar.tradeCount).sum
        = ((group FctTrade.dayKey trades k).map fun _ => 1).sum := by
      rw [sum_map_perm hbars]
      exact sum_groupBy fun _ _ => by simp [barOf]
    rw [hsum, List.map_const', List.sum_replicate]
    exact mul_one _
  have hnil : group Bar.dayKey bars k = []
      ↔ group FctTrade.dayKey trades k = [] := by
    rw [← List.length_eq_zero_iff, hbars.length_eq, List.length_eq_zero_iff]
    exact groupBy_eq_nil_iff
  rw [Mismatch, barTotal_eq, tradeTotal_eq]
  by_cases hempty : group FctTrade.dayKey trades k = []
  · rw [if_pos (hnil.mpr hempty), if_pos hempty]
    decide +kernel
  · rw [if_neg (mt hnil.mp hempty), if_neg hempty, hvolume, hcount]
    simp [disagree]

-- =============================================================== one build

/-- The trades of every table are dated. -/
def Marts.Dated (m : Marts) : Prop :=
  ∀ trades ∈ m.trades, ∀ t ∈ trades, t.Dated

section Build

variable {vars : Vars} {history : List Delivery} {i : Invocation}
  {m : Marts} {staged : List StgTrade} {trades : List FctTrade}
  {bars : List Bar} {d : Int}

/-- The trades that a run leaves are dated. -/
theorem dated_runTrades (hm : m.Dated)
    (hstaged : i.staged vars history = some staged) :
    ∀ t ∈ m.runTrades vars i staged, t.Dated := by
  refine forall_materialize hm fun inc t ht => ?_
  obtain ⟨s, hs, rfl⟩ := List.mem_map.mp ht
  exact dated_of_staged hstaged (mem_of_mem_windowed hs)

/-- And so are those that a build leaves. -/
theorem dated_dbtBuild (hm : m.Dated) : (dbtBuild vars history m i).Dated := by
  unfold dbtBuild
  split
  · next staged hstaged =>
      have hnew := dated_runTrades hm hstaged
      have hthis : ∀ ts ∈ some (m.runTrades vars i staged), ∀ t ∈ ts,
          t.Dated := fun ts hts => Option.some.inj hts ▸ hnew
      unfold Marts.afterTrades Marts.afterBars
      split
      · split
        · exact hthis
        · exact hthis
      · exact hthis
  · exact hm

/-- Or any builds. -/
theorem dated_dbtBuilds (is : List Invocation) (hm : m.Dated) :
    (dbtBuilds vars history m is).Dated := by
  induction is generalizing m with
  | nil => exact hm
  | cons i is ih => exact ih (dated_dbtBuild hm)

/-- An incremental run leaves the trades of a date out of its lookback. -/
theorem group_runTrades_old (htrades : m.trades = some trades)
    (hinc : i.fullRefresh = false) (hout : inLookback vars i.now d ≠ true) :
    group FctTrade.eventDate (m.runTrades vars i staged) d
      = group FctTrade.eventDate trades d := by
  rw [Marts.runTrades, htrades, hinc,
    group_materialize local_fctTrades fun _ _ => trivial,
    if_neg fun h => hout h.1]

/-- The build rewrites the minute bars of the date. -/
def Rewritten (vars : Vars) (i : Invocation) (trades : List FctTrade)
    (d : Int) : Prop :=
  inLookback vars i.now d = true ∧ group FctTrade.eventDate trades d ≠ []

instance : Decidable (Rewritten vars i trades d) :=
  inferInstanceAs (Decidable (_ ∧ _))

/-- The minute bars of a date after an incremental run. -/
theorem group_runBars1m (hbars : m.bars1m = some bars)
    (hinc : i.fullRefresh = false) (hdated : ∀ t ∈ trades, t.Dated) :
    group Bar.eventDate (m.runBars1m vars i trades) d
      = if Rewritten vars i trades d
        then fctBars1m i.engine (group FctTrade.eventDate trades d)
        else group Bar.eventDate bars d := by
  rw [Marts.runBars1m, hbars, hinc,
    group_materialize (local_fctBars1m i.engine) hdated]
  exact if_congr (and_congr_right fun _ => not_congr groupBy_eq_nil_iff)
    rfl rfl

/-- The minute bars of a date after the whole table was written. -/
theorem group_runBars1m_full
    (hfull : m.bars1m = none ∨ i.fullRefresh = true)
    (hdated : ∀ t ∈ trades, t.Dated) :
    group Bar.eventDate (m.runBars1m vars i trades) d
      = fctBars1m i.engine (group FctTrade.eventDate trades d) :=
  group_materialize_full (local_fctBars1m i.engine) hdated hfull

/-- A build's minute bars disagree with its trades on no date but those
where an earlier table was left, and disagreed. A date that is rewritten
has the bars of its trades, and so has every date of a full build. -/
theorem mismatch_runBars1m_iff (hdated : ∀ t ∈ trades, t.Dated)
    {k : String × Int} :
    Mismatch (m.runBars1m vars i trades) trades k
      ↔ i.fullRefresh = false ∧ ¬ Rewritten vars i trades k.2
        ∧ ∃ bars ∈ m.bars1m, Mismatch bars trades k := by
  rcases incremental_or_full m.bars1m i.fullRefresh with
    ⟨bars, hbars, hinc⟩ | hfull
  · have hgroup := @group_runBars1m vars i m trades bars k.2 hbars hinc hdated
    by_cases hre : Rewritten vars i trades k.2
    · rw [if_pos hre] at hgroup
      exact ⟨fun h => absurd h (not_mismatch_of_bars (.of_eq hgroup)),
        fun h => absurd hre h.2.1⟩
    · rw [if_neg hre] at hgroup
      rw [mismatch_congr hgroup rfl, hbars]
      constructor
      · exact fun h => ⟨hinc, hre, bars, rfl, h⟩
      · intro h
        obtain ⟨-, -, b, hb, hmis⟩ := h
        obtain rfl := Option.some.inj hb
        exact hmis
  · constructor
    · exact fun h =>
        absurd h (not_mismatch_of_bars
          (.of_eq (group_runBars1m_full hfull hdated)))
    · intro h
      obtain ⟨hinc, -, b, hb, -⟩ := h
      rcases hfull with hnone | hfull
      · rw [hnone] at hb
        cases hb
      · rw [hinc] at hfull
        cases hfull

/-- The build gets past the tests of `fct_trades`. -/
def TradesOpen (vars : Vars) (history : List Delivery) (m : Marts)
    (i : Invocation) : Prop :=
  ∃ staged ∈ i.staged vars history,
    TradesPass i.approxQuantile vars i.now (m.runTrades vars i staged)

instance : Decidable (TradesOpen vars history m i) :=
  inferInstanceAs (Decidable (∃ staged ∈ i.staged vars history,
    TradesPass i.approxQuantile vars i.now (m.runTrades vars i staged)))

/-- The build writes the coarser bars. -/
def WritesCoarse (vars : Vars) (history : List Delivery) (m : Marts)
    (i : Invocation) : Prop :=
  ∃ staged ∈ i.staged vars history,
    TradesPass i.approxQuantile vars i.now (m.runTrades vars i staged)
    ∧ BarsPass (m.runBars1m vars i (m.runTrades vars i staged))
        (m.runTrades vars i staged)

/-- What a build does that writes no coarser bars. -/
theorem coarse_of_not_writes (h : ¬ WritesCoarse vars history m i) :
    (dbtBuild vars history m i).bars5m = m.bars5m
      ∧ (dbtBuild vars history m i).bars1h = m.bars1h := by
  unfold dbtBuild
  split
  · next staged hstaged =>
      unfold Marts.afterTrades
      split
      · next htrades =>
          unfold Marts.afterBars
          rw [if_neg fun hbars => h ⟨staged, hstaged, htrades, hbars⟩]
          exact ⟨rfl, rfl⟩
      · exact ⟨rfl, rfl⟩
  · exact ⟨rfl, rfl⟩

/-- What a build leaves of the trades and the minute bars. -/
theorem dbtBuild_cases (vars : Vars) (history : List Delivery) (m : Marts)
    (i : Invocation) :
    (i.staged vars history = none ∧ dbtBuild vars history m i = m)
      ∨ ∃ staged, i.staged vars history = some staged
        ∧ (dbtBuild vars history m i).trades
            = some (m.runTrades vars i staged)
        ∧ (dbtBuild vars history m i).bars1m
            = if TradesPass i.approxQuantile vars i.now
                (m.runTrades vars i staged)
              then some (m.runBars1m vars i (m.runTrades vars i staged))
              else m.bars1m := by
  unfold dbtBuild
  cases hstaged : i.staged vars history with
  | none => exact Or.inl ⟨rfl, rfl⟩
  | some staged =>
      refine Or.inr ⟨staged, rfl, ?_⟩
      dsimp only
      unfold Marts.afterTrades Marts.afterBars
      split
      · split
        · exact ⟨rfl, rfl⟩
        · exact ⟨rfl, rfl⟩
      · exact ⟨rfl, rfl⟩

/-- The tables disagree on a date, and the coarser bars are those of `m`. -/
structure Frozen (m m' : Marts) (k : String × Int) : Prop where
  mismatch : ∃ trades ∈ m'.trades, ∃ bars ∈ m'.bars1m, Mismatch bars trades k
  bars5m : m'.bars5m = m.bars5m
  bars1h : m'.bars1h = m.bars1h

/-- A date out of a build's lookback stays as it is, and what disagrees
there holds the coarser bars back. The build cannot rewrite the date's
minute bars, so its test of them fails and the coarser models are
skipped. -/
theorem frozen_dbtBuild {m m' : Marts} {k : String × Int}
    (h : Frozen m m' k) (hdated : m'.Dated) (hinc : i.fullRefresh = false)
    (hout : inLookback vars i.now k.2 ≠ true) :
    Frozen m (dbtBuild vars history m' i) k := by
  obtain ⟨⟨trades, htrades, bars, hbars, hmis⟩, h5m, h1h⟩ := h
  rcases dbtBuild_cases vars history m' i with ⟨-, hsame⟩
    | ⟨staged, hstaged, hts, hbs⟩
  · rw [hsame]
    exact ⟨⟨trades, htrades, bars, hbars, hmis⟩, h5m, h1h⟩
  · have hold : group FctTrade.eventDate (m'.runTrades vars i staged) k.2
        = group FctTrade.eventDate trades k.2 :=
      group_runTrades_old htrades hinc hout
    have hmis' : Mismatch bars (m'.runTrades vars i staged) k :=
      (mismatch_congr rfl hold).mpr hmis
    have hrun : Mismatch
        (m'.runBars1m vars i (m'.runTrades vars i staged))
        (m'.runTrades vars i staged) k :=
      (mismatch_runBars1m_iff (dated_runTrades hdated hstaged)).mpr
        ⟨hinc, fun hre => hout hre.1, bars, hbars, hmis'⟩
    have hnot : ¬ WritesCoarse vars history m' i := by
      intro hx
      obtain ⟨staged', hstaged', -, hpass⟩ := hx
      obtain rfl := Option.some.inj (hstaged'.symm.trans hstaged)
      exact reconciles_iff.mp hpass.reconciles k hrun
    obtain ⟨h5m', h1h'⟩ := coarse_of_not_writes hnot
    refine ⟨⟨_, hts, ?_⟩, h5m'.trans h5m, h1h'.trans h1h⟩
    rw [hbs]
    split
    · exact ⟨_, rfl, hrun⟩
    · exact ⟨bars, hbars, hmis'⟩

/-- Incremental builds from then on keep it, by induction on them. -/
theorem frozen_dbtBuilds {m m' : Marts} {k : String × Int} {now : Int}
    (h : Frozen m m' k) (hdated : m'.Dated)
    (hout : inLookback vars now k.2 = false) (is : List Invocation)
    (his : ∀ i ∈ is, now ≤ i.now ∧ i.fullRefresh = false) :
    Frozen m (dbtBuilds vars history m' is) k := by
  induction is generalizing m' with
  | nil => exact h
  | cons i is ih =>
      obtain ⟨⟨hnow, hinc⟩, his⟩ := List.forall_mem_cons.mp his
      have hi : inLookback vars i.now k.2 ≠ true := by
        intro hin
        rw [inLookback_mono hnow hin] at hout
        cases hout
      exact ih (frozen_dbtBuild h hdated hinc hi) (dated_dbtBuild hdated) his

end Build

-- ================================================================= any builds

/-- Builds one after the other. -/
theorem dbtBuilds_append (vars : Vars) (history : List Delivery) (m : Marts)
    (is is' : List Invocation) :
    dbtBuilds vars history m (is ++ is')
      = dbtBuilds vars history (dbtBuilds vars history m is) is' :=
  List.foldl_append

/-- From no tables on. -/
theorem dated_dbtBuilds_new (vars : Vars) (history : List Delivery)
    (is : List Invocation) : (dbtBuilds vars history {} is).Dated := by
  refine dated_dbtBuilds is ?_
  intro trades htrades
  cases htrades

/-- After any builds, a build that gets past the tests of `fct_trades`
writes the coarser bars exactly when, on every product and date it does
not rewrite, the minute bars built earlier agree with the trades of now.

The tables before it are coherent, so only the test of the sums can stop
the build (`barsPass_iff`), and that test looks where the build has
rewritten nothing (`mismatch_runBars1m_iff`). -/
theorem coarse_rebuilt_iff (vars : Vars) (history : List Delivery)
    (is : List Invocation) (i : Invocation)
    (hopen : TradesOpen vars history (dbtBuilds vars history {} is) i) :
    WritesCoarse vars history (dbtBuilds vars history {} is) i
      ↔ ∀ staged ∈ i.staged vars history, i.fullRefresh = false →
        ∀ bars ∈ (dbtBuilds vars history {} is).bars1m, ∀ k,
          ¬ Rewritten vars i
              ((dbtBuilds vars history {} is).runTrades vars i staged) k.2 →
          ¬ Mismatch bars
              ((dbtBuilds vars history {} is).runTrades vars i staged) k := by
  obtain ⟨staged, hstaged, htrades⟩ := hopen
  have hcoherent := coherent_dbtBuilds vars history is
  have hdated := dated_dbtBuilds_new vars history is
  generalize dbtBuilds vars history {} is = m at htrades hcoherent hdated ⊢
  have hpass : BarsPass (m.runBars1m vars i (m.runTrades vars i staged))
      (m.runTrades vars i staged) ↔ _ :=
    barsPass_iff (minuteBars_runBars1m hcoherent htrades.valid)
  have hmis : ∀ k, Mismatch (m.runBars1m vars i (m.runTrades vars i staged))
      (m.runTrades vars i staged) k ↔ _ := fun k =>
    mismatch_runBars1m_iff (dated_runTrades hdated hstaged)
  constructor
  · intro h staged' hstaged' hinc bars hbars k hre hk
    obtain ⟨staged'', hstaged'', -, hbarsPass⟩ := h
    obtain rfl := Option.some.inj (hstaged'.symm.trans hstaged)
    obtain rfl := Option.some.inj (hstaged''.symm.trans hstaged)
    exact reconciles_iff.mp hbarsPass.reconciles k
      ((hmis k).mpr ⟨hinc, hre, bars, hbars, hk⟩)
  · intro h
    refine ⟨staged, hstaged, htrades, hpass.mpr (reconciles_iff.mpr ?_)⟩
    intro k hk
    obtain ⟨hinc, hre, bars, hbars, hk⟩ := (hmis k).mp hk
    exact h staged hstaged hinc bars hbars k hre hk

/-- Where the minute bars of a date disagree with its trades once the
date is out of the lookback, no later incremental builds write the
coarser bars again. By induction on the later builds
(`frozen_dbtBuilds`). -/
theorem coarse_frozen (vars : Vars) (history : List Delivery)
    (is later : List Invocation) (k : String × Int) (now : Int)
    (hmis : ∃ trades ∈ (dbtBuilds vars history {} is).trades,
      ∃ bars ∈ (dbtBuilds vars history {} is).bars1m, Mismatch bars trades k)
    (hout : inLookback vars now k.2 = false)
    (hlater : ∀ i ∈ later, now ≤ i.now ∧ i.fullRefresh = false) :
    (dbtBuilds vars history {} (is ++ later)).bars5m
        = (dbtBuilds vars history {} is).bars5m
      ∧ (dbtBuilds vars history {} (is ++ later)).bars1h
        = (dbtBuilds vars history {} is).bars1h := by
  rw [dbtBuilds_append]
  have h : Frozen _ (dbtBuilds vars history _ later) k :=
    frozen_dbtBuilds ⟨hmis, rfl, rfl⟩
      (dated_dbtBuilds_new vars history is) hout later hlater
  exact ⟨h.bars5m, h.bars1h⟩

-- ============================================================== a lost day

/-- An incremental build, at a time in hours. -/
def buildAt (hours : Int) : Invocation where
  now := hours * hour
  engine := Engine.inOrder
  approxQuantile := exactQuantile

/-- Two trades of a day with 98 ids missing between them, one more before
midnight, and one four days later. -/
def gapDay : List Delivery :=
  [btcTrade 1 "100" 36000000 36000005, btcTrade 100 "101" 39600000 39600005,
    btcTrade 101 "102" 84600000 84600005,
    btcTrade 5000 "103" 345600000 345600005]

/-- The builds of the day of the loss and of the night after it. -/
def gapBuilds : List Invocation := [buildAt 12, buildAt 25]

theorem coarse_rebuilt_iff_gap :
    WritesCoarse {} gapDay (dbtBuilds {} gapDay {} gapBuilds) (buildAt 97)
      ↔ ∀ staged ∈ (buildAt 97).staged {} gapDay,
        (buildAt 97).fullRefresh = false →
        ∀ bars ∈ (dbtBuilds {} gapDay {} gapBuilds).bars1m, ∀ k,
          ¬ Rewritten {} (buildAt 97) ((dbtBuilds {} gapDay {}
              gapBuilds).runTrades {} (buildAt 97) staged) k.2 →
          ¬ Mismatch bars ((dbtBuilds {} gapDay {}
              gapBuilds).runTrades {} (buildAt 97) staged) k :=
  coarse_rebuilt_iff {} gapDay gapBuilds (buildAt 97) (by decide +kernel)

/-- The night's build stops at the gap in the ids, with the day's last
trade in `fct_trades` and in no bar. The build four days later is stopped
by no test of the trades, and the trade it finds gets no coarser bar. -/
theorem coarse_frozen_gap :
    TradesOpen {} gapDay (dbtBuilds {} gapDay {} gapBuilds) (buildAt 97)
      ∧ (dbtBuilds {} gapDay {} (gapBuilds ++ [buildAt 97])).bars5m
        = (dbtBuilds {} gapDay {} gapBuilds).bars5m
      ∧ (dbtBuilds {} gapDay {} (gapBuilds ++ [buildAt 97])).bars1h
        = (dbtBuilds {} gapDay {} gapBuilds).bars1h := by
  refine ⟨by decide +kernel, ?_⟩
  exact coarse_frozen {} gapDay gapBuilds [buildAt 97] ("BTC-USD", 0)
    (97 * hour) (by decide +kernel) (by decide +kernel) (by decide +kernel)

-- ============================================================ open gates

/-- The tables of builds without tests. -/
def Marts.ofTables (tables : Option Tables) : Marts where
  trades := tables.map Tables.trades
  bars1m := tables.map Tables.bars1m
  bars5m := tables.map Tables.bars5m
  bars1h := tables.map Tables.bars1h

/-- The builds without their tests. -/
def untested (vars : Vars) (history : List Delivery)
    (tables : Option Tables) (is : List Invocation) : Option Tables :=
  is.foldl (fun tables i => build vars history i.fullRefresh tables i.toRun)
    tables

/-- The trades of every build of the schedule pass their tests. -/
def AllPass (vars : Vars) (history : List Delivery)
    (tables : Option Tables) : List Invocation → Prop
  | [] => True
  | i :: is =>
      ((i.staged vars history).isSome →
        ∀ T ∈ build vars history i.fullRefresh tables i.toRun,
          TradesPass i.approxQuantile vars i.now T.trades)
      ∧ AllPass vars history
          (build vars history i.fullRefresh tables i.toRun) is

section Open

variable {vars : Vars} {history : List Delivery} {tables : Option Tables}

/-- Sound tables agree on every date. -/
theorem Tables.Sound.reconciles {T : Tables} (h : T.Sound) :
    assertBarVolumeReconciles T.bars1m T.trades = [] := by
  refine reconciles_iff.mpr fun k => not_mismatch_of_bars (E := Engine.inOrder)
    (h.bars1m k.2 Engine.inOrder)

/-- A build of sound tables whose trades pass is stopped by no test. -/
theorem dbtBuild_ofTables (hsound : ∀ T ∈ tables, T.Sound)
    (hcoherent : (Marts.ofTables tables).Coherent) (i : Invocation)
    (hpass : (i.staged vars history).isSome →
      ∀ T ∈ build vars history i.fullRefresh tables i.toRun,
        TradesPass i.approxQuantile vars i.now T.trades) :
    dbtBuild vars history (Marts.ofTables tables) i
      = Marts.ofTables
          (build vars history i.fullRefresh tables i.toRun) := by
  unfold build dbtBuild at *
  cases hstaged : i.staged vars history with
  | none => rfl
  | some staged =>
      simp only [hstaged] at hpass ⊢
      generalize hm : Marts.ofTables tables = m at hcoherent ⊢
      have htrades : TradesPass i.approxQuantile vars i.now
          (m.runTrades vars i staged) := by
        rw [← hm]
        exact hpass rfl _ rfl
      have hbars : BarsPass (m.runBars1m vars i (m.runTrades vars i staged))
          (m.runTrades vars i staged) := by
        refine (barsPass_iff
          (minuteBars_runBars1m hcoherent htrades.valid)).mpr ?_
        rw [← hm]
        exact (sound_build hstaged hsound).reconciles
      unfold Marts.afterTrades Marts.afterBars
      rw [if_pos htrades, if_pos hbars, ← hm]
      rfl

/-- As long as the trades pass their tests, the builds are those without
tests: the tests of the bars stop none of them. -/
theorem dbtBuilds_ofTables (hsound : ∀ T ∈ tables, T.Sound)
    (hcoherent : (Marts.ofTables tables).Coherent) (is : List Invocation)
    (hpass : AllPass vars history tables is) :
    dbtBuilds vars history (Marts.ofTables tables) is
      = Marts.ofTables (untested vars history tables is) := by
  induction is generalizing tables with
  | nil => rfl
  | cons i is ih =>
      obtain ⟨hi, his⟩ := hpass
      have hstep := dbtBuild_ofTables hsound hcoherent i hi
      have hcoherent' : (dbtBuild vars history (Marts.ofTables tables)
          i).Coherent := coherent_dbtBuild hcoherent
      rw [hstep] at hcoherent'
      have hsound' : ∀ T ∈ build vars history i.fullRefresh tables i.toRun,
          T.Sound := by
        intro T hT
        unfold build at hT
        split at hT
        · next staged hstaged =>
            obtain rfl := Option.some.inj hT
            exact sound_build hstaged hsound
        · exact hsound T hT
      have hrest := ih hsound' hcoherent' his
      rw [← hstep] at hrest
      exact hrest

end Open

/-- As long as the trades pass their tests the tests of the bars stop
nothing, and the tables are those of the builds without tests. -/
theorem dbtBuilds_eq_untested (vars : Vars) (history : List Delivery)
    (is : List Invocation) (hpass : AllPass vars history none is) :
    dbtBuilds vars history {} is
      = Marts.ofTables (untested vars history none is) := by
  refine dbtBuilds_ofTables ?_ ⟨?_, ?_, ?_⟩ is hpass
  all_goals
    intro T hT
    cases hT

theorem dbtBuilds_eq_untested_day :
    dbtBuilds {} gapDay {} [buildAt 11, buildAt 12]
      = Marts.ofTables (untested {} gapDay none [buildAt 11, buildAt 12]) :=
  dbtBuilds_eq_untested {} gapDay [buildAt 11, buildAt 12]
    ⟨fun _ => by decide +kernel, fun _ => by decide +kernel, trivial⟩

end MarketPlatform.Warehouse
