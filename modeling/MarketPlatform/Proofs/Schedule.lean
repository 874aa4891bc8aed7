/-
What a partition of the marts holds after a schedule of builds.

dbt builds the marts again and again, at times that a scheduler decides,
and each build rewrites the partitions inside its lookback. The
repository's promise is that once, twice or ten times gives the same
table. This module says what a partition depends on.

# Freshness

A partition is `Fresh` at a time when it holds the first copies of the
trades of its date that had arrived by then. A build makes every
partition of its lookback fresh (`fresh_build`) and leaves the others
alone (`sameAt_build`); a build that fails in staging leaves every table
alone. So after a schedule a partition is as its last build made it
(`LastBuild`, `fresh_after`). Partitions for which nothing is staged are
not rewritten, which is why freshness at an earlier time has to be
carried along: what the partition held then is what it would hold now.

# What it rests on

`PartitionsFollow`: a row is in the raw partition of a day no earlier
than its trade's, so that the raw window shows all of the dates of the
lookback. `Copies`: the copies of a trade have one date, and copies that
tie in both of their times are one row. `copies_decide_the_partition`
has an example for the failure of either part of the second.

# The result

So a rebuild with no new arrivals changes nothing, and two schedules
whose last builds of a date were at one time leave the same rows in its
partition, however many builds there were before and whichever of them
failed (`schedule_independent`). The tables are compared as multisets of
rows, since a table has no order (`Alike`, `AlikeAt`).
-/
import MarketPlatform.Proofs.Builds

namespace MarketPlatform.Warehouse

open Lib Lib.Rfc3339 Lib.Relation Lib.Partitioned

variable {vars : Vars} {history : List Delivery} {now d : Int}

-- ============================================================== freshness

/-- The partition holds the first copies of what had arrived of its
date. -/
def Fresh (vars : Vars) (history : List Delivery) (now d : Int)
    (T : Tables) : Prop :=
  ∃ out, Firsts StgTrade.key StgTrade.arrival
      (group StgTrade.eventDate (arrived vars history now) d) out
    ∧ group FctTrade.eventDate T.trades d = fctTrades out

/-- A partition of something that was fresh before is fresh after a
build whose lookback it is in. If the build stages something of the
date, it writes the partition; if it stages nothing, nothing of the date
has arrived, and the partition was empty. -/
theorem fresh_build (hparts : PartitionsFollow history)
    (hcopies : Copies history) {b : Run} {tables : Option Tables}
    {staged : List StgTrade} (h : b.staged vars history = some staged)
    (hin : inLookback vars b.now d = true)
    (hold : ∀ T ∈ tables, ∃ t ≤ b.now, Fresh vars history t d T) :
    Fresh vars history b.now d
      (buildMarts b.engine vars b.now false staged tables) := by
  have hfirsts := firsts_staged_date hparts hcopies h hin
  refine ⟨_, hfirsts, ?_⟩
  cases tables with
  | none => exact group_build_trades_full (Or.inl rfl) d
  | some T =>
      rw [group_build_trades]
      by_cases hnil : fctTrades (group StgTrade.eventDate staged d) = []
      · -- nothing had arrived of the date, then or before
        rw [if_neg fun hcase => hcase.2 hnil, hnil]
        obtain ⟨t, ht, out, hout, hslice⟩ := hold T rfl
        have hnone := hfirsts.eq_nil_iff.mp (List.map_eq_nil_iff.mp hnil)
        have hnone' : group StgTrade.eventDate
            (arrived vars history t) d = [] := by
          refine group_eq_nil_iff.mpr fun s hs => ?_
          exact group_eq_nil_iff.mp hnone s (mem_arrived_mono ht hs)
        rw [hslice, hout.eq_nil_iff.mpr hnone']
        rfl
      · rw [if_pos ⟨hin, hnil⟩]

/-- The partition is the same in two states of the tables. -/
structure SameAt (d : Int) (T T' : Tables) : Prop where
  trades : group FctTrade.eventDate T.trades d
    = group FctTrade.eventDate T'.trades d
  bars1m : group Bar.eventDate T.bars1m d = group Bar.eventDate T'.bars1m d
  bars5m : group RolledBar.eventDate T.bars5m d
    = group RolledBar.eventDate T'.bars5m d
  bars1h : group RolledBar.eventDate T.bars1h d
    = group RolledBar.eventDate T'.bars1h d

theorem SameAt.refl (T : Tables) : SameAt d T T := ⟨rfl, rfl, rfl, rfl⟩

theorem SameAt.symm {T T' : Tables} (h : SameAt d T T') : SameAt d T' T :=
  ⟨h.trades.symm, h.bars1m.symm, h.bars5m.symm, h.bars1h.symm⟩

theorem SameAt.trans {T T' T'' : Tables} (h : SameAt d T T')
    (h' : SameAt d T' T'') : SameAt d T T'' :=
  ⟨h.trades.trans h'.trades, h.bars1m.trans h'.bars1m,
    h.bars5m.trans h'.bars5m, h.bars1h.trans h'.bars1h⟩

/-- A build leaves the partitions outside its lookback alone. -/
theorem sameAt_build {b : Run} {T : Tables} {staged : List StgTrade}
    (h : b.staged vars history = some staged) (hold : T.Sound)
    (hout : inLookback vars b.now d ≠ true) :
    SameAt d (buildMarts b.engine vars b.now false staged (some T)) T := by
  have hsound : ∀ T' ∈ some T, T'.Sound := fun T' hT' =>
    Option.some.inj hT' ▸ hold
  have hrolled : ∀ {window : Int → Int},
      (∀ t, dateOf (window t) = dateOf t) → ∀ t : List RolledBar,
        group RolledBar.eventDate (materialize (some t) false
          RolledBar.eventDate fun inc => rollUpBars window b.engine
            (windowed vars b.now inc Bar.eventDate (buildMarts b.engine vars
              b.now false staged (some T)).bars1m)) d
          = group RolledBar.eventDate t d := fun hwindow t =>
    (group_materialize_old (local_rollUpBars hwindow b.engine)
      (dated_build_bars1m hsound) rfl).2 hout
  refine ⟨(build_trades_old d).2 hout, (build_bars1m_old h hold d).2 hout,
    ?_, ?_⟩
  · rw [buildMarts_bars5m]
    exact hrolled dateOf_window5m T.bars5m
  · rw [buildMarts_bars1h]
    exact hrolled dateOf_window1h T.bars1h

-- ============================================================== schedules

/-- The last build that succeeds with the date inside its lookback. -/
def LastBuild (vars : Vars) (history : List Delivery) (d : Int)
    (bs : List Run) (b : Run) : Prop :=
  ∃ before after, bs = before ++ b :: after
    ∧ (b.staged vars history).isSome
    ∧ inLookback vars b.now d = true
    ∧ ∀ b' ∈ after, b'.staged vars history = none
      ∨ inLookback vars b'.now d ≠ true

/-- Builds at nondecreasing times. -/
def Schedule (bs : List Run) : Prop :=
  bs.Pairwise fun b b' => b.now ≤ b'.now

theorem build_eq_some {b : Run} {staged : List StgTrade}
    (h : b.staged vars history = some staged) (full : Bool)
    (tables : Option Tables) :
    build vars history full tables b
      = some (buildMarts b.engine vars b.now full staged tables) := by
  rw [build, h]

theorem build_eq_of_none {b : Run} (h : b.staged vars history = none)
    (full : Bool) (tables : Option Tables) :
    build vars history full tables b = tables := by
  rw [build, h]

theorem builds_append (tables : Option Tables) (bs bs' : List Run) :
    builds vars history tables (bs ++ bs')
      = builds vars history (builds vars history tables bs) bs' :=
  List.foldl_append

/-- Later dates are inside every lookback that an earlier one is. -/
theorem inLookback_mono {t t' : Int} (h : t ≤ t')
    (hin : inLookback vars t' d = true) : inLookback vars t d = true := by
  have hdate : dateOf t ≤ dateOf t' := Int.ediv_le_ediv (by decide) h
  have hle := of_decide_eq_true hin
  exact decide_eq_true (le_trans (sub_le_sub_right hdate _) hle)

/-- Up to a build whose lookback the date is in, its partition is fresh
at some earlier time. -/
theorem fresh_builds (hparts : PartitionsFollow history)
    (hcopies : Copies history) {b : Run}
    (hin : inLookback vars b.now d = true) (bs : List Run)
    (hbs : Schedule (bs ++ [b])) {tables : Option Tables}
    (hold : ∀ T ∈ tables, ∃ t, (∀ b' ∈ bs ++ [b], t ≤ b'.now)
      ∧ Fresh vars history t d T) :
    ∀ T ∈ builds vars history tables bs, ∃ t ≤ b.now,
      Fresh vars history t d T := by
  induction bs generalizing tables with
  | nil =>
      intro T hT
      obtain ⟨t, ht, hfresh⟩ := hold T hT
      exact ⟨t, ht b List.mem_cons_self, hfresh⟩
  | cons b' bs ih =>
      obtain ⟨hle, hbs⟩ := List.pairwise_cons.mp hbs
      have hstep : builds vars history tables (b' :: bs) = builds vars
          history (build vars history false tables b') bs := rfl
      rw [hstep]
      refine ih hbs fun T hT => ?_
      cases hstaged : b'.staged vars history with
      | none =>
          rw [build_eq_of_none hstaged] at hT
          obtain ⟨t, ht, hfresh⟩ := hold T hT
          exact ⟨t, fun c hc => ht c (List.mem_cons_of_mem b' hc), hfresh⟩
      | some staged =>
          rw [build_eq_some hstaged] at hT
          obtain rfl := Option.some.inj hT
          have hlast : b'.now ≤ b.now :=
            hle b (List.mem_append_right bs List.mem_cons_self)
          refine ⟨b'.now, hle, fresh_build hparts hcopies hstaged
            (inLookback_mono hlast hin) fun T hT => ?_⟩
          obtain ⟨t, ht, hfresh⟩ := hold T hT
          exact ⟨t, ht b' List.mem_cons_self, hfresh⟩

/-- Builds that fail, or whose lookback the date has left, leave its
partition alone. -/
theorem sameAt_builds (bs : List Run)
    (hout : ∀ b ∈ bs, b.staged vars history = none
      ∨ inLookback vars b.now d ≠ true) {T : Tables} (hold : T.Sound) :
    ∃ T', builds vars history (some T) bs = some T' ∧ SameAt d T' T := by
  induction bs generalizing T with
  | nil => exact ⟨T, rfl, SameAt.refl T⟩
  | cons b bs ih =>
      have hout' := fun b hb => hout b (List.mem_cons_of_mem _ hb)
      have hstep : builds vars history (some T) (b :: bs) = builds vars
          history (build vars history false (some T) b) bs := rfl
      rw [hstep]
      cases hstaged : b.staged vars history with
      | none =>
          rw [build_eq_of_none hstaged]
          exact ih hout' hold
      | some staged =>
          rw [build_eq_some hstaged]
          have hleft : inLookback vars b.now d ≠ true :=
            (hout b List.mem_cons_self).resolve_left fun hnone => by
              rw [hnone] at hstaged
              cases hstaged
          have hsound : ∀ T' ∈ some T, T'.Sound := fun T' hT' =>
            Option.some.inj hT' ▸ hold
          obtain ⟨T', hT', hsame⟩ := ih hout' (sound_build hstaged hsound)
          exact ⟨T', hT', hsame.trans (sameAt_build hstaged hold hleft)⟩

/-- A partition after a schedule is as its last build made it: fresh
when that build ran, and the same ever since. -/
theorem fresh_after (hparts : PartitionsFollow history)
    (hcopies : Copies history) {bs : List Run} (hbs : Schedule bs)
    {b : Run} (hlast : LastBuild vars history d bs b) :
    ∃ T, builds vars history none bs = some T ∧ T.Sound
      ∧ Fresh vars history b.now d T := by
  obtain ⟨before, after, rfl, hsome, hin, hout⟩ := hlast
  obtain ⟨staged, hstaged⟩ := Option.isSome_iff_exists.mp hsome
  have hnone : ∀ T ∈ (none : Option Tables), T.Sound := by
    rintro T ⟨⟩
  have hsplit : before ++ b :: after = (before ++ [b]) ++ after := by simp
  have hbefore : Schedule (before ++ [b]) := by
    rw [hsplit] at hbs
    exact (List.pairwise_append.mp hbs).1
  have hmade : builds vars history none (before ++ [b])
      = some (buildMarts b.engine vars b.now false staged
          (builds vars history none before)) := by
    rw [builds_append]
    exact build_eq_some hstaged false _
  have hfresh : Fresh vars history b.now d (buildMarts b.engine vars b.now
      false staged (builds vars history none before)) := by
    refine fresh_build hparts hcopies hstaged hin
      (fresh_builds hparts hcopies hin before hbefore ?_)
    rintro T ⟨⟩
  have hsound : (buildMarts b.engine vars b.now false staged
      (builds vars history none before)).Sound :=
    sound_build hstaged (sound_builds before hnone)
  obtain ⟨T, hT, hsame⟩ := sameAt_builds after hout hsound
  have hbuilt : builds vars history none (before ++ b :: after)
      = some T := by
    rw [hsplit, builds_append, hmade, hT]
  obtain ⟨out, hout, hslice⟩ := hfresh
  exact ⟨T, hbuilt, sound_of_builds hbuilt, out, hout,
    hsame.trades.trans hslice⟩

-- ====================================================== comparing the marts

/-- The partition holds the same rows in two states of the tables. -/
structure AlikeAt (d : Int) (T T' : Tables) : Prop where
  trades : (group FctTrade.eventDate T.trades d).Perm
    (group FctTrade.eventDate T'.trades d)
  bars1m : (group Bar.eventDate T.bars1m d).Perm
    (group Bar.eventDate T'.bars1m d)
  bars5m : (group RolledBar.eventDate T.bars5m d).Perm
    (group RolledBar.eventDate T'.bars5m d)
  bars1h : (group RolledBar.eventDate T.bars1h d).Perm
    (group RolledBar.eventDate T'.bars1h d)

/-- All tables hold the same rows. -/
structure Alike (T T' : Tables) : Prop where
  trades : T.trades.Perm T'.trades
  bars1m : T.bars1m.Perm T'.bars1m
  bars5m : T.bars5m.Perm T'.bars5m
  bars1h : T.bars1h.Perm T'.bars1h

theorem Alike.refl (T : Tables) : Alike T T :=
  ⟨List.Perm.refl _, List.Perm.refl _, List.Perm.refl _, List.Perm.refl _⟩

theorem SameAt.alikeAt {T T' : Tables} (h : SameAt d T T') :
    AlikeAt d T T' :=
  ⟨List.Perm.of_eq h.trades, List.Perm.of_eq h.bars1m,
    List.Perm.of_eq h.bars5m, List.Perm.of_eq h.bars1h⟩

theorem alike_of_alikeAt {T T' : Tables} (h : ∀ d, AlikeAt d T T') :
    Alike T T' where
  trades := perm_of_groups _ fun d => (h d).trades
  bars1m := perm_of_groups _ fun d => (h d).bars1m
  bars5m := perm_of_groups _ fun d => (h d).bars5m
  bars1h := perm_of_groups _ fun d => (h d).bars1h

/-- Sound tables with the same trades have the same bars. -/
theorem alikeAt_of_trades {T T' : Tables} (hT : T.Sound) (hT' : T'.Sound)
    (h : (group FctTrade.eventDate T.trades d).Perm
      (group FctTrade.eventDate T'.trades d)) : AlikeAt d T T' := by
  have hbars : (group Bar.eventDate T.bars1m d).Perm
      (group Bar.eventDate T'.bars1m d) :=
    (hT.bars1m d Engine.inOrder).trans
      ((fctBars1m_perm h (hT.keys d)).trans
        (hT'.bars1m d Engine.inOrder).symm)
  have hkeys : ((group Bar.eventDate T.bars1m d).map Bar.key).Nodup :=
    ((hT.bars1m d Engine.inOrder).map Bar.key).nodup_iff.mpr
      nodup_fctBars1m
  refine ⟨h, hbars, ?_, ?_⟩
  · exact (hT.bars5m d Engine.inOrder).trans
      ((rollUpBars_perm hbars hkeys).trans
        (hT'.bars5m d Engine.inOrder).symm)
  · exact (hT.bars1h d Engine.inOrder).trans
      ((rollUpBars_perm hbars hkeys).trans
        (hT'.bars1h d Engine.inOrder).symm)

/-- A partition that is fresh twice, with the same copies arrived, holds
the same rows. -/
theorem alikeAt_of_fresh (hcopies : Copies history) {T T' : Tables}
    (hT : T.Sound) (hT' : T'.Sound) {now' : Int}
    (h : Fresh vars history now d T) (h' : Fresh vars history now' d T')
    (harrived : ∀ s, s ∈ arrived vars history now
      ↔ s ∈ arrived vars history now') : AlikeAt d T T' := by
  obtain ⟨out, hout, hslice⟩ := h
  obtain ⟨out', hout', hslice'⟩ := h'
  have hsame : Firsts StgTrade.key StgTrade.arrival
      (group StgTrade.eventDate (arrived vars history now) d) out' := by
    refine hout'.congr fun s => ?_
    rw [mem_group, mem_group, harrived]
  have hties : ∀ s ∈ group StgTrade.eventDate (arrived vars history now) d,
      ∀ s' ∈ group StgTrade.eventDate (arrived vars history now) d,
        s.key = s'.key → s.arrival = s'.arrival → s = s' := by
    intro s hs s' hs'
    obtain ⟨a, ha, hs⟩ := derived_of_mem_arrived (mem_group.mp hs).1
    obtain ⟨b, hb, hs'⟩ := derived_of_mem_arrived (mem_group.mp hs').1
    exact hcopies.tied a ha b hb s hs s' hs'
  refine alikeAt_of_trades hT hT' ?_
  rw [hslice, hslice']
  exact (hout.perm hties hsame).map FctTrade.ofStaged

theorem mem_arrived_of_no_arrivals {now' : Int} (h : now ≤ now')
    (hquiet : ∀ r ∈ history, r.arrivedAt ≤ now' → r.arrivedAt ≤ now)
    (s : StgTrade) : s ∈ arrived vars history now
      ↔ s ∈ arrived vars history now' := by
  refine ⟨mem_arrived_mono h, fun hs => ?_⟩
  obtain ⟨r, hr, harr, hrest⟩ := mem_arrived.mp hs
  exact mem_arrived.mpr ⟨r, hr, hquiet r hr harr, hrest⟩

/-- A rebuild with no new arrivals changes nothing. -/
theorem alike_rebuild (hparts : PartitionsFollow history)
    (hcopies : Copies history) {bs : List Run} {b b' : Run}
    (hbs : Schedule (bs ++ [b])) (hle : b.now ≤ b'.now)
    (hok : (b.staged vars history).isSome)
    (hquiet : ∀ r ∈ history, r.arrivedAt ≤ b'.now → r.arrivedAt ≤ b.now)
    {T T' : Tables} (hT : builds vars history none (bs ++ [b]) = some T)
    (hT' : build vars history false (some T) b' = some T') :
    Alike T T' := by
  cases hstaged : b'.staged vars history with
  | none =>
      rw [build_eq_of_none hstaged] at hT'
      obtain rfl := Option.some.inj hT'
      exact Alike.refl T
  | some staged =>
      rw [build_eq_some hstaged] at hT'
      obtain rfl := Option.some.inj hT'
      have hsound : T.Sound := sound_of_builds hT
      have hsound' : (buildMarts b'.engine vars b'.now false staged
          (some T)).Sound :=
        sound_build hstaged fun T' hT' => Option.some.inj hT' ▸ hsound
      refine alike_of_alikeAt fun d => ?_
      by_cases hin : inLookback vars b'.now d = true
      · obtain ⟨T₀, hT₀, -, hfresh⟩ := fresh_after hparts hcopies hbs
          ⟨bs, [], rfl, hok, inLookback_mono hle hin, by simp⟩
        obtain rfl := Option.some.inj (hT.symm.trans hT₀)
        refine alikeAt_of_fresh hcopies hsound hsound' hfresh
          (fresh_build hparts hcopies hstaged hin ?_)
          (mem_arrived_of_no_arrivals hle hquiet)
        rintro T' hT'
        obtain rfl := Option.some.inj hT'
        exact ⟨b.now, hle, hfresh⟩
      · exact (sameAt_build hstaged hsound hin).symm.alikeAt

-- ============================================================== the result

/-- After a schedule, the partition of a date holds the first copies of
what had arrived by the last build whose lookback the date was in, and
their bars. So a rebuild with no new arrivals changes nothing, and a
partition does not depend on the schedule but for that last build. -/
theorem schedule_independent (vars : Vars) (history : List Delivery)
    (hparts : PartitionsFollow history) (hcopies : Copies history) :
    (∀ bs, Schedule bs → ∀ d b, LastBuild vars history d bs b →
      ∃ T, builds vars history none bs = some T ∧ T.Sound
        ∧ Fresh vars history b.now d T)
    ∧ (∀ bs b b', Schedule (bs ++ [b]) → b.now ≤ b'.now →
        (b.staged vars history).isSome →
        (∀ r ∈ history, r.arrivedAt ≤ b'.now → r.arrivedAt ≤ b.now) →
        ∀ T T', builds vars history none (bs ++ [b]) = some T →
          builds vars history none (bs ++ [b, b']) = some T' →
          Alike T T')
    ∧ (∀ bs bs', Schedule bs → Schedule bs' →
        ∀ d b b', LastBuild vars history d bs b →
          LastBuild vars history d bs' b' → b.now = b'.now →
          ∀ T T', builds vars history none bs = some T →
            builds vars history none bs' = some T' → AlikeAt d T T') := by
  refine ⟨fun bs hbs d b hlast => fresh_after hparts hcopies hbs hlast, ?_,
    ?_⟩
  · intro bs b b' hbs hle hok hquiet T T' hT hT'
    have hsplit : bs ++ [b, b'] = (bs ++ [b]) ++ [b'] := by simp
    rw [hsplit, builds_append, hT] at hT'
    exact alike_rebuild hparts hcopies hbs hle hok hquiet hT hT'
  · intro bs bs' hbs hbs' d b b' hlast hlast' hnow T T' hT hT'
    obtain ⟨T₁, hT₁, hsound, hfresh⟩ :=
      fresh_after hparts hcopies hbs hlast
    obtain ⟨T₂, hT₂, hsound', hfresh'⟩ :=
      fresh_after hparts hcopies hbs' hlast'
    obtain rfl := Option.some.inj (hT.symm.trans hT₁)
    obtain rfl := Option.some.inj (hT'.symm.trans hT₂)
    refine alikeAt_of_fresh hcopies hsound hsound' hfresh hfresh' ?_
    rw [hnow]
    exact fun s => Iff.rfl

/-- A copy of a trade of BTC-USD, with its times in milliseconds; its
partition is the day it was received. -/
def btcTrade (tradeId : Int) (price : String) (eventTime ingestTime : Int) :
    Delivery where
  row := {
    sequence := 1
    productId := "BTC-USD"
    tradeId, price
    size := "1"
    side := "sell"
    makerOrderId := ""
    takerOrderId := ""
    eventTime := .millis eventTime
    ingestTime := .millis ingestTime }
  arrivedAt := ingestTime * millisecond
  committedAt := ingestTime * millisecond + minute
  partition := truncate day (ingestTime * millisecond)

/-- A trade, and its copy an hour later. -/
def lateCopy : List Delivery :=
  [btcTrade 7 "100" 0 5, btcTrade 7 "100" 0 3600000]

theorem schedule_independent_late_copy :
    ∃ T, builds {} lateCopy none
        [⟨second, Engine.inOrder⟩, ⟨2 * hour, Engine.inOrder⟩] = some T
      ∧ T.Sound ∧ Fresh {} lateCopy (2 * hour) 0 T :=
  (schedule_independent {} lateCopy (by decide +kernel)
    ⟨by decide +kernel, by decide +kernel⟩).1 _ (by simp [Schedule]; decide)
    0 ⟨2 * hour, Engine.inOrder⟩
    ⟨[⟨second, Engine.inOrder⟩], [], rfl, by decide +kernel, by decide,
      by simp⟩

/-- Copies of one trade on two dates. -/
def twoDates : List Delivery :=
  [btcTrade 7 "100" 86399000 86399500, btcTrade 7 "100" 86400000 86400500]

/-- Copies of one trade that tie and differ. -/
def tiedCopies : List Delivery :=
  [btcTrade 7 "100" 0 5, btcTrade 7 "101" 0 5]

/-- A copy on another date has no row in its own partition; and a rebuild
may choose another one of two copies that tie. -/
theorem copies_decide_the_partition :
    (PartitionsFollow twoDates
      ∧ (∃ s ∈ arrived {} twoDates (25 * hour),
          s.key = (7, "BTC-USD") ∧ s.eventDate = 1)
      ∧ (builds {} twoDates none [⟨25 * hour, Engine.inOrder⟩]).map
          (fun T => group FctTrade.eventDate T.trades 1) = some [])
    ∧ PartitionsFollow tiedCopies
      ∧ (builds {} tiedCopies none [⟨hour, Engine.inOrder⟩]).map
          (fun T => T.trades.map FctTrade.price) = some [100]
      ∧ (builds {} tiedCopies none [⟨hour, Engine.inOrder⟩,
          ⟨hour, Engine.inReverse⟩]).map
          (fun T => T.trades.map FctTrade.price) = some [101] := by
  refine ⟨⟨?_, ?_, ?_⟩, ?_, ?_, ?_⟩
  all_goals decide +kernel

end MarketPlatform.Warehouse
