/-
When a full refresh gives back the incremental marts.

The marts are built incrementally: a run stages what its raw window
shows, keeps one copy of each trade, and replaces the partitions inside
its lookback for which it has staged something. A full refresh drops the
tables and builds them anew. It does not read all of the raw table: the
filter on the raw partitions is in the staging model and stays on, so a
refresh only ever sees the last few days.

# What a run is shown

`FirstShown`: the rows of `fct_trades` that a run at a time may write,
one for each copy that is the first of its trade, or ties for it, among
those that the raw window shows. It depends on the history and the time
alone. The run is `Settled` when the ties make no difference, and then
it stages exactly these rows, whatever the engine (`mem_fctTrades_iff`).
`Rewrites` says of a date that a run replaces its partition.

# Incremental runs

Suppose the tables hold what the run before was shown (`Shows`). The
dates that the next run rewrites then hold what it is shown, and the
others what they held; so the tables hold what it is shown exactly when
the raw window shows the same of every date that it does not rewrite
(`Unmoved`, `shows_build_iff`). A full refresh holds what it is shown in
any case.

# The result

After every run of a schedule a full refresh gives the same trades and
bars exactly when every run is settled and nothing moves from one run to
the next (`refresh_agrees_iff`). One direction is the induction over the
schedule (`shows_builds`). For the other, a run that is not settled has
two engines that write different rows, one for the run and one for the
refresh (`settled_of_agrees`); then the tables after each run are those
of its refresh, and `shows_build_iff` is read backwards
(`unmoved_of_agrees`).

`refresh_loses_the_first_day` is the ordinary case in which something
moves: a date that has left the raw window is still in the incremental
tables and in no refresh.
-/
import MarketPlatform.Proofs.Schedule

namespace MarketPlatform.Warehouse

open Lib Lib.Rfc3339 Lib.Relation Lib.Partitioned

variable {vars : Vars} {history : List Delivery} {t t' d : Int}

-- ==================================================== what a run is shown

/-- The query of `stg_trades` does not fail. -/
def Succeeds (vars : Vars) (history : List Delivery) (t : Int) : Prop :=
  ∀ r ∈ rawTrades vars t (snapshotAt history t), (derived r).isSome

/-- A row of `fct_trades` for a copy that is the first, or ties for it,
of those of its trade that the raw window shows. -/
def FirstShown (vars : Vars) (history : List Delivery) (t : Int)
    (f : FctTrade) : Prop :=
  ∃ s, s ∈ least StgTrade.arrival
      (group StgTrade.key (shown vars history t) s.key)
    ∧ FctTrade.ofStaged s = f

/-- Copies that tie for the first place of a trade give one row. -/
def Settled (vars : Vars) (history : List Delivery) (t : Int) : Prop :=
  ∀ f f', FirstShown vars history t f → FirstShown vars history t f' →
    f.key = f'.key → f = f'

/-- A run at `t` rewrites the partition: it is inside the lookback, and
the raw window shows something of its date. -/
def Rewrites (vars : Vars) (history : List Delivery) (t d : Int) : Prop :=
  inLookback vars t d = true
    ∧ ∃ f, FirstShown vars history t f ∧ f.eventDate = d

/-- From one run to the next, the raw window shows the same of every date
that the later run does not rewrite. -/
def Unmoved (vars : Vars) (history : List Delivery) (t t' : Int) : Prop :=
  ∀ d, ¬ Rewrites vars history t' d → ∀ f, f.eventDate = d →
    (FirstShown vars history t f ↔ FirstShown vars history t' f)

theorem exists_staged (hok : Succeeds vars history t) (E : Engine) :
    ∃ staged, Run.staged ⟨t, E⟩ vars history = some staged :=
  ⟨_, staged_eq_some_iff.mpr ⟨hok, rfl⟩⟩

section Staged

variable {b : Run} {staged : List StgTrade}

theorem firstShown_of_mem (h : b.staged vars history = some staged)
    {f : FctTrade} (hf : f ∈ fctTrades staged) :
    FirstShown vars history b.now f := by
  obtain ⟨s, hs, rfl⟩ := List.mem_map.mp hf
  have hfirsts := firsts_staged h
  refine ⟨s, mem_least.mpr ⟨mem_group.mpr ⟨hfirsts.mem s hs, rfl⟩, ?_⟩, rfl⟩
  intro s' hs'
  obtain ⟨hs', hkey⟩ := mem_group.mp hs'
  exact hfirsts.least s hs s' hs' hkey

/-- A settled run stages exactly the first copies. -/
theorem mem_fctTrades_iff (h : b.staged vars history = some staged)
    (hsettled : Settled vars history b.now) {f : FctTrade} :
    f ∈ fctTrades staged ↔ FirstShown vars history b.now f := by
  refine ⟨firstShown_of_mem h, fun hf => ?_⟩
  obtain ⟨s, hs, hs'⟩ := id hf
  obtain ⟨a, ha, hkey⟩ := (firsts_staged h).each s
    (mem_group.mp (mem_least.mp hs).1).1
  have hmem : FctTrade.ofStaged a ∈ fctTrades staged :=
    List.mem_map_of_mem ha
  have hsame : FctTrade.ofStaged a = f :=
    hsettled _ _ (firstShown_of_mem h hmem) hf (by rw [← hs']; exact hkey)
  rw [← hsame]
  exact hmem

/-- Every first copy is staged by some engine. -/
theorem exists_engine (hok : Succeeds vars history t) {f : FctTrade}
    (hf : FirstShown vars history t f) :
    ∃ E staged, Run.staged ⟨t, E⟩ vars history = some staged
      ∧ f ∈ fctTrades staged := by
  obtain ⟨s, htied, rfl⟩ := hf
  obtain ⟨E, hE⟩ := exists_pick htied
  refine ⟨E, _, staged_eq_some_iff.mpr ⟨hok, rfl⟩, ?_⟩
  refine List.mem_map_of_mem (mem_firstBy.mpr ⟨s.key, ?_, hE⟩)
  exact group_ne_nil_iff.mp (List.ne_nil_of_mem (mem_least.mp htied).1)

theorem rewrites_iff (h : b.staged vars history = some staged)
    (hsettled : Settled vars history b.now) :
    Rewrites vars history b.now d
      ↔ inLookback vars b.now d = true
        ∧ fctTrades (group StgTrade.eventDate staged d) ≠ [] := by
  refine and_congr_right fun _ => ?_
  constructor
  · intro hx
    obtain ⟨f, hf, hd⟩ := hx
    obtain ⟨s, hs, rfl⟩ :=
      List.mem_map.mp ((mem_fctTrades_iff h hsettled).mpr hf)
    have hmem : s ∈ group StgTrade.eventDate staged d :=
      mem_group.mpr ⟨hs, hd⟩
    exact List.ne_nil_of_mem (List.mem_map_of_mem hmem)
  · intro hne
    obtain ⟨f, hf⟩ := List.exists_mem_of_ne_nil _ hne
    obtain ⟨s, hs, rfl⟩ := List.mem_map.mp hf
    obtain ⟨hs, hd⟩ := mem_group.mp hs
    exact ⟨_, firstShown_of_mem h (List.mem_map_of_mem hs), hd⟩

end Staged

-- ========================================================= the two tables

/-- `fct_trades` holds what a run at `t` is shown. -/
def Shows (vars : Vars) (history : List Delivery) (t : Int) (T : Tables) :
    Prop :=
  T.Sound ∧ ∀ f, f ∈ T.trades ↔ FirstShown vars history t f

section Build

variable {b : Run} {staged : List StgTrade}

theorem mem_trades_iff {T : Tables} {f : FctTrade} :
    f ∈ T.trades
      ↔ f ∈ group FctTrade.eventDate T.trades f.eventDate := by
  rw [mem_group]
  exact (and_iff_left rfl).symm

theorem mem_group_staged {f : FctTrade} :
    f ∈ fctTrades (group StgTrade.eventDate staged f.eventDate)
      ↔ f ∈ fctTrades staged := by
  rw [← local_fctTrades.group staged (fun _ _ => trivial), mem_group]
  exact and_iff_left rfl

theorem mem_full_trades {full : Bool} {tables : Option Tables}
    (hfull : tables = none ∨ full = true) {f : FctTrade} :
    f ∈ (buildMarts b.engine vars b.now full staged tables).trades
      ↔ f ∈ fctTrades staged := by
  rw [mem_trades_iff, group_build_trades_full hfull, mem_group_staged]

/-- A full build holds what it is shown. -/
theorem shows_full (h : b.staged vars history = some staged)
    (hsettled : Settled vars history b.now) {full : Bool}
    {tables : Option Tables} (hfull : tables = none ∨ full = true)
    (hold : ∀ T ∈ tables, T.Sound) :
    Shows vars history b.now
      (buildMarts b.engine vars b.now full staged tables) :=
  ⟨sound_build h hold, fun _ =>
    (mem_full_trades hfull).trans (mem_fctTrades_iff h hsettled)⟩

/-- An incremental build of tables that held what the run before was
shown holds what it is shown, exactly when nothing has moved. Date by
date: of a date that is rewritten the table holds what was staged, of
another what it held. -/
theorem shows_build_iff (h : b.staged vars history = some staged)
    (hsettled : Settled vars history b.now) {T : Tables}
    (hT : Shows vars history t T) :
    Shows vars history b.now
        (buildMarts b.engine vars b.now false staged (some T))
      ↔ Unmoved vars history t b.now := by
  have hsound : (buildMarts b.engine vars b.now false staged
      (some T)).Sound :=
    sound_build h fun T' hT' => Option.some.inj hT' ▸ hT.1
  have hrewritten : ∀ f : FctTrade,
      Rewrites vars history b.now f.eventDate →
        (f ∈ (buildMarts b.engine vars b.now false staged (some T)).trades
          ↔ FirstShown vars history b.now f) := by
    intro f hf
    rw [mem_trades_iff, group_build_trades,
      if_pos ((rewrites_iff h hsettled).mp hf), mem_group_staged]
    exact mem_fctTrades_iff h hsettled
  have hkept : ∀ f : FctTrade,
      ¬ Rewrites vars history b.now f.eventDate →
        (f ∈ (buildMarts b.engine vars b.now false staged (some T)).trades
          ↔ FirstShown vars history t f) := by
    intro f hf
    rw [mem_trades_iff, group_build_trades,
      if_neg (mt (rewrites_iff h hsettled).mpr hf), ← mem_trades_iff]
    exact hT.2 f
  constructor
  · rintro ⟨-, hshows⟩ d hd f rfl
    exact (hkept f hd).symm.trans (hshows f)
  · refine fun hmoved => ⟨hsound, fun f => ?_⟩
    by_cases hf : Rewrites vars history b.now f.eventDate
    · exact hrewritten f hf
    · exact (hkept f hf).trans (hmoved _ hf f rfl)

/-- Tables that hold the same trades hold the same bars. -/
theorem alike_of_mem_iff {T F : Tables} (hT : T.Sound) (hF : F.Sound)
    (h : ∀ f, f ∈ T.trades ↔ f ∈ F.trades) : Alike T F := by
  refine alike_of_alikeAt fun d => alikeAt_of_trades hT hF ?_
  refine (List.perm_ext_iff_of_nodup (hT.keys d).of_map
    (hF.keys d).of_map).mpr fun f => ?_
  rw [mem_group, mem_group, h]

end Build

-- ============================================================== the result

/-- After every run of a schedule, whatever the engines, a full refresh
gives the tables that the runs have made. -/
def RefreshAgrees (vars : Vars) (history : List Delivery)
    (times : List Int) : Prop :=
  ∀ bs b, (bs ++ [b]).map Run.now <+: times → ∀ T E F,
    builds vars history none (bs ++ [b]) = some T →
      build vars history true (some T) ⟨b.now, E⟩ = some F →
        T.trades.Perm F.trades ∧ T.bars1m.Perm F.bars1m

section Runs

variable {times : List Int}

/-- While nothing moves, the incremental tables hold what the last run
was shown. By induction on the runs, from the last one: the first builds
the tables in full, and each later one keeps it by `shows_build_iff`. -/
theorem shows_builds (hok : ∀ t ∈ times, Succeeds vars history t)
    (hsettled : ∀ t ∈ times, Settled vars history t)
    (hmoved : times.IsChain (Unmoved vars history)) (bs : List Run)
    (b : Run) (hbs : (bs ++ [b]).map Run.now <+: times) :
    ∃ T, builds vars history none (bs ++ [b]) = some T
      ∧ Shows vars history b.now T := by
  have hmem : ∀ {bs : List Run} {b : Run},
      (bs ++ [b]).map Run.now <+: times → b.now ∈ times := by
    intro bs b hbs
    refine hbs.subset (List.mem_map_of_mem ?_)
    exact List.mem_append_right bs List.mem_cons_self
  induction bs using List.reverseRecOn generalizing b with
  | nil =>
      obtain ⟨staged, hstaged⟩ := exists_staged (hok _ (hmem hbs)) b.engine
      refine ⟨_, build_eq_some hstaged false none, ?_⟩
      refine shows_full hstaged (hsettled _ (hmem hbs)) (Or.inl rfl) ?_
      rintro T ⟨⟩
  | append_singleton bs b₀ ih =>
      have hprefix : (bs ++ [b₀]).map Run.now <+: times := by
        rw [List.map_append] at hbs
        exact (List.prefix_append _ _).trans hbs
      obtain ⟨T, hT, hshows⟩ := ih b₀ hprefix
      obtain ⟨staged, hstaged⟩ := exists_staged (hok _ (hmem hbs)) b.engine
      have hbuilt : builds vars history none ((bs ++ [b₀]) ++ [b])
          = some (buildMarts b.engine vars b.now false staged (some T)) := by
        rw [builds_append, hT]
        exact build_eq_some hstaged false (some T)
      refine ⟨_, hbuilt, ?_⟩
      refine (shows_build_iff hstaged (hsettled _ (hmem hbs)) hshows).mpr ?_
      obtain ⟨rest, hrest⟩ := hbs
      have hsplit : times
          = bs.map Run.now ++ b₀.now :: b.now :: rest := by
        rw [← hrest]
        simp
      exact List.isChain_iff_forall_rel_of_append_cons_cons.mp hmoved hsplit

/-- A full refresh of any tables holds what it is shown. -/
theorem shows_refresh {E : Engine} {T F : Tables}
    (hok : Succeeds vars history t) (hsettled : Settled vars history t)
    (hT : T.Sound)
    (hF : build vars history true (some T) ⟨t, E⟩ = some F) :
    Shows vars history t F := by
  obtain ⟨staged, hstaged⟩ := exists_staged hok E
  rw [build_eq_some hstaged] at hF
  obtain rfl := Option.some.inj hF
  exact shows_full hstaged hsettled (Or.inr rfl) fun T' hT' =>
    Option.some.inj hT' ▸ hT

theorem prefix_of_split {before rest : List Int} {t : Int}
    (h : times = before ++ t :: rest) (bs : List Run)
    (hbs : bs.map Run.now = before) (E : Engine) :
    (bs ++ [(⟨t, E⟩ : Run)]).map Run.now <+: times := by
  rw [h, List.map_append, hbs]
  exact ⟨rest, by simp⟩

/-- The runs of some times, on one engine. -/
def runsAt (times : List Int) : List Run :=
  times.map fun t => ⟨t, Engine.inOrder⟩

theorem map_runsAt (times : List Int) : (runsAt times).map Run.now = times := by
  rw [runsAt, List.map_map]
  exact List.map_id times

/-- If the refreshes agree, no engine has a choice: a tie with two
different rows has an engine for each, and the run and its refresh can
use one each. -/
theorem settled_of_agrees (hok : ∀ t ∈ times, Succeeds vars history t)
    (hagrees : RefreshAgrees vars history times) :
    ∀ t ∈ times, Settled vars history t := by
  intro t ht f f' hf hf' hkey
  obtain ⟨before, rest, hsplit⟩ := List.append_of_mem ht
  have hprefix := prefix_of_split hsplit (runsAt before) (map_runsAt before)
    Engine.inOrder
  obtain ⟨staged₀, hstaged₀⟩ := exists_staged (hok t ht) Engine.inOrder
  have hbuilt : builds vars history none (runsAt before
      ++ [(⟨t, Engine.inOrder⟩ : Run)]) = some (buildMarts Engine.inOrder vars t
        false staged₀ (builds vars history none (runsAt before))) := by
    rw [builds_append]
    exact build_eq_some hstaged₀ false _
  -- two refreshes, one for each of the copies
  obtain ⟨E, staged, hstaged, hmem⟩ := exists_engine (hok t ht) hf
  obtain ⟨E', staged', hstaged', hmem'⟩ := exists_engine (hok t ht) hf'
  have hperm := (hagrees _ _ hprefix _ E _ hbuilt
    (build_eq_some hstaged true _)).1
  have hperm' := (hagrees _ _ hprefix _ E' _ hbuilt
    (build_eq_some hstaged' true _)).1
  have hf'' : f' ∈ fctTrades staged :=
    (mem_full_trades (Or.inr rfl)).mp (hperm.mem_iff.mp
      (hperm'.mem_iff.mpr ((mem_full_trades (Or.inr rfl)).mpr hmem')))
  exact List.inj_on_of_nodup_map
    (nodup_fctTrades (firsts_staged hstaged).nodup) hmem hf'' hkey

/-- If the refreshes agree, the incremental tables hold what each run is
shown. -/
theorem shows_of_agrees (hok : ∀ t ∈ times, Succeeds vars history t)
    (hagrees : RefreshAgrees vars history times) {bs : List Run} {b : Run}
    (hbs : (bs ++ [b]).map Run.now <+: times) {T : Tables}
    (hT : builds vars history none (bs ++ [b]) = some T) :
    Shows vars history b.now T := by
  have hmem : b.now ∈ times := by
    refine hbs.subset (List.mem_map_of_mem ?_)
    exact List.mem_append_right bs List.mem_cons_self
  have hsound : T.Sound := sound_of_builds hT
  obtain ⟨staged, hstaged⟩ := exists_staged (hok _ hmem) Engine.inOrder
  have hF := build_eq_some hstaged true (some T)
  have hshows := shows_refresh (hok _ hmem)
    (settled_of_agrees hok hagrees _ hmem) hsound hF
  have hperm := (hagrees bs b hbs T Engine.inOrder _ hT hF).1
  exact ⟨hsound, fun f => hperm.mem_iff.trans (hshows.2 f)⟩

/-- If the refreshes agree, nothing moves. -/
theorem unmoved_of_agrees (hok : ∀ t ∈ times, Succeeds vars history t)
    (hagrees : RefreshAgrees vars history times) :
    times.IsChain (Unmoved vars history) := by
  refine List.isChain_iff_forall_rel_of_append_cons_cons.mpr ?_
  intro t t' before rest hsplit
  have hmem : t' ∈ times := by
    rw [hsplit]
    simp
  have hsplit' : times = (before ++ [t]) ++ t' :: rest := by
    rw [hsplit]
    simp
  have hprefix := prefix_of_split hsplit (runsAt before) (map_runsAt before)
    Engine.inOrder
  have hprefix' := prefix_of_split hsplit'
    (runsAt before ++ [(⟨t, Engine.inOrder⟩ : Run)])
    (by rw [List.map_append, map_runsAt]; rfl) Engine.inOrder
  obtain ⟨staged₀, hstaged₀⟩ := exists_staged (hok t (by
    rw [hsplit]; simp)) Engine.inOrder
  obtain ⟨staged, hstaged⟩ := exists_staged (hok t' hmem) Engine.inOrder
  have hbuilt := build_eq_some hstaged₀ false
    (builds vars history none (runsAt before))
  have hT : builds vars history none (runsAt before
      ++ [(⟨t, Engine.inOrder⟩ : Run)]) = some (buildMarts Engine.inOrder vars t
        false staged₀ (builds vars history none (runsAt before))) := by
    rw [builds_append]
    exact hbuilt
  have hT' : builds vars history none ((runsAt before
      ++ [(⟨t, Engine.inOrder⟩ : Run)]) ++ [⟨t', Engine.inOrder⟩])
        = some (buildMarts Engine.inOrder vars t' false staged (some
          (buildMarts Engine.inOrder vars t false staged₀
            (builds vars history none (runsAt before))))) := by
    rw [builds_append, hT]
    exact build_eq_some hstaged false _
  exact (shows_build_iff hstaged (settled_of_agrees hok hagrees t' hmem)
    (shows_of_agrees hok hagrees hprefix hT)).mp
      (shows_of_agrees hok hagrees hprefix' hT')

/-- After every run of a schedule a full refresh gives the same trades
and minute bars as the incremental runs, exactly when no run leaves a
choice between tied copies and, from each run to the next, the raw
window shows the same of the dates that are not rewritten. -/
theorem refresh_agrees_iff (vars : Vars) (history : List Delivery)
    (times : List Int) (hok : ∀ t ∈ times, Succeeds vars history t) :
    RefreshAgrees vars history times
      ↔ (∀ t ∈ times, Settled vars history t)
        ∧ times.IsChain (Unmoved vars history) := by
  constructor
  · exact fun h => ⟨settled_of_agrees hok h, unmoved_of_agrees hok h⟩
  · intro hx bs b hbs T E F hT hF
    obtain ⟨hsettled, hmoved⟩ := hx
    have hmem : b.now ∈ times := by
      refine hbs.subset (List.mem_map_of_mem ?_)
      exact List.mem_append_right bs List.mem_cons_self
    obtain ⟨T₀, hT₀, hshows⟩ := shows_builds hok hsettled hmoved bs b hbs
    obtain rfl := Option.some.inj (hT.symm.trans hT₀)
    have hfull := shows_refresh (hok _ hmem) (hsettled _ hmem) hshows.1 hF
    have halike := alike_of_mem_iff hshows.1 hfull.1 fun f =>
      (hshows.2 f).trans (hfull.2 f).symm
    exact ⟨halike.trades, halike.bars1m⟩

end Runs

theorem refresh_agrees_iff_late_copy :
    RefreshAgrees {} lateCopy [second, 2 * hour]
      ↔ (∀ t ∈ [second, 2 * hour], Settled {} lateCopy t)
        ∧ [second, 2 * hour].IsChain (Unmoved {} lateCopy) :=
  refresh_agrees_iff {} lateCopy [second, 2 * hour] (by
    unfold Succeeds
    decide +kernel)

/-- Two trades, three days apart. -/
def fourDays : List Delivery :=
  [btcTrade 1 "100" 0 5, btcTrade 2 "101" 259200000 259200005]

/-- A run every hour. -/
def hourly (n : Nat) : List Run :=
  (List.range n).map fun i => ⟨(i + 1) * hour, Engine.inOrder⟩

/-- After 96 hourly runs a full refresh loses the first day: its raw
partition has left the window, and the incremental table still has it. -/
theorem refresh_loses_the_first_day :
    (builds {} fourDays none (hourly 96)).map (fun T =>
        (T.trades.map FctTrade.tradeId, T.bars1m.map Bar.barStart))
      = some ([1, 2], [0, 3 * day])
    ∧ (build {} fourDays true (builds {} fourDays none (hourly 96))
        ⟨96 * hour, Engine.inOrder⟩).map (fun F =>
          (F.trades.map FctTrade.tradeId, F.bars1m.map Bar.barStart))
      = some ([2], [3 * day]) := by
  constructor
  all_goals decide +kernel

end MarketPlatform.Warehouse
