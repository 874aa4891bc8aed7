/-
Realised volatility and the day it was built.

`fct_realized_vol` computes the logarithmic return of each minute bar
from the close of the bar before it, and from the returns of an hour
their deviation. It is built incrementally, by replacing the partitions
inside the lookback.

# Lag after the filter

`lag()` reads the bars that the lookback filter has left. The first bar
of a product inside the window has none before it, so its return is
null, whatever bars the table holds from before the window; on a later
day the window begins later, and another bar is the first. So the rows
of one partition may depend on the day they were built.

`volatility_build_independent_iff` says that the rows of a partition are
those of a full build exactly when no bar of the partition loses its
predecessor so (`Anchored`): every bar of the date that has bars of its
product before it has one inside the window. The predecessor need not be
the previous minute's bar.

# How the two directions go

With `Anchored` every bar of the partition has the same predecessor in
both builds (`lagClose_eq`): the latest bar before it is the latest
inside the window, because a later bar is not before the window. Hence
the same returns, and the same rows, whatever the engine picks of rows
of one date.

The other direction cannot use the published deviations, which may agree
by accident. It uses what they are computed from (`Sample`): the number
of bars of an hour and the pairs of consecutive closes. A bar that loses
its predecessor loses a pair, and its hour has one pair fewer
(`card_closePairs`, `anchored_of_samples`). The logarithm and the square
root are parameters throughout.
-/
import MarketPlatform.Proofs.Builds
import MarketPlatform.Warehouse.Volatility

namespace MarketPlatform.Warehouse

open Lib Lib.Rfc3339 Lib.Relation Lib.Partitioned

-- ==================================================== what should hold

/-- One bar for each product and minute, in the partition of its minute,
with a close. -/
structure BarTable (bars : List Bar) : Prop where
  keys : (bars.map Bar.key).Nodup
  dated : ∀ b ∈ bars, b.Dated
  closes : ∀ b ∈ bars, b.closePrice.isSome

/-- What a row of volatilities is computed from: the number of bars and
the pairs of consecutive closes. -/
structure Sample where
  productId : String
  windowStart : Int
  barCount : Nat
  closePairs : Multiset (ℚ × ℚ)
  eventDate : Option Int
  deriving DecidableEq

/-- The closes whose quotient is `log_return`'s. -/
def Return.closePair (r : Return) : Option (ℚ × ℚ) := do
  let last ← r.lagClose
  let close ← r.bar.closeFloat
  pure (last, close)

def sampleOf (E : Engine) (k : String × Int) (rows : List Return) :
    Sample where
  productId := k.1
  windowStart := k.2
  barCount := rows.length
  closePairs := rows.filterMap Return.closePair
  eventDate := (E.pick rows).map fun r => r.bar.eventDate

def samples (E : Engine) (bars : List Bar) : List Sample :=
  groupBy Return.windowKey (sampleOf E) (returns E bars)

/-- An incremental build at `now` gives the partition that a full build
gives. -/
structure BuildIndependent (vars : Vars) (now : Int) (E E' : Engine)
    (d : Int) (bars : List Bar) : Prop where
  samples :
    (group Sample.eventDate
      (samples E (windowed vars now true Bar.eventDate bars)) (some d)).Perm
      (group Sample.eventDate (samples E' bars) (some d))
  rows : ∀ (R : Type) [Field R] [LinearOrder R] (ln : ℚ → R)
    (sqrt : R → R),
    (group RealizedVol.eventDate (fctRealizedVol ln sqrt E
      (windowed vars now true Bar.eventDate bars)) (some d)).Perm
      (group RealizedVol.eventDate (fctRealizedVol ln sqrt E' bars) (some d))

/-- Every bar of the date that has bars of its product before it has one
inside the lookback window. -/
def Anchored (vars : Vars) (now d : Int) (bars : List Bar) : Prop :=
  ∀ b ∈ bars, b.eventDate = d → before bars b ≠ [] →
    ∃ a ∈ before bars b, inLookback vars now a.eventDate = true

-- ================================================================ one bar

section Lag

variable {vars : Vars} {now d : Int} {E E' : Engine} {bars : List Bar}
  {b : Bar}

theorem mem_before {a : Bar} :
    a ∈ before bars b
      ↔ a ∈ bars ∧ a.productId = b.productId ∧ a.barStart < b.barStart := by
  simp only [before, List.mem_filter, decide_eq_true_eq]

theorem before_windowed :
    before (windowed vars now true Bar.eventDate bars) b
      = (before bars b).filter fun a => inLookback vars now a.eventDate := by
  rw [windowed, if_pos rfl, before, before, List.filter_filter,
    List.filter_filter]
  exact List.filter_congr fun a _ => Bool.and_comm _ _

theorem dateOf_mono {t t' : Int} (h : t ≤ t') : dateOf t ≤ dateOf t' :=
  Int.ediv_le_ediv (by decide) h

/-- A later bar is not before the window. -/
theorem inLookback_of_le (hbars : BarTable bars) {a c : Bar}
    (ha : a ∈ bars) (hc : c ∈ bars) (h : a.barStart ≤ c.barStart)
    (hin : inLookback vars now a.eventDate = true) :
    inLookback vars now c.eventDate = true := by
  have hle := dateOf_mono h
  rw [inLookback, decide_eq_true_eq, hbars.dated a ha] at hin
  rw [inLookback, decide_eq_true_eq, hbars.dated c hc]
  omega

/-- With a predecessor inside the window a bar has the same one in both
builds. -/
theorem lagClose_eq (hbars : BarTable bars)
    (hanchored : before bars b ≠ [] →
      ∃ a ∈ before bars b, inLookback vars now a.eventDate = true) :
    lagClose E (windowed vars now true Bar.eventDate bars) b
      = lagClose E' bars b := by
  unfold lagClose
  rw [before_windowed]
  by_cases hnil : before bars b = []
  · rw [hnil, List.filter_nil, last_eq_none_iff.mpr rfl,
      last_eq_none_iff.mpr rfl]
  · obtain ⟨a, ha, hin⟩ := hanchored hnil
    obtain ⟨m, hm⟩ := exists_last E' Bar.barStart hnil
    have hmem := mem_of_last hm
    have hmin : inLookback vars now m.eventDate = true :=
      inLookback_of_le hbars (mem_before.mp ha).1 (mem_before.mp hmem).1
        (le_last hm ha) hin
    have hmw : m ∈ (before bars b).filter fun a =>
        inLookback vars now a.eventDate := List.mem_filter.mpr ⟨hmem, hmin⟩
    obtain ⟨m', hm'⟩ := exists_last E Bar.barStart (List.ne_nil_of_mem hmw)
    have hmem' := (List.mem_filter.mp (mem_of_last hm')).1
    have hstart : m'.barStart = m.barStart :=
      le_antisymm (le_last hm hmem') (le_last hm' hmw)
    obtain ⟨hin', hp', -⟩ := mem_before.mp hmem'
    obtain ⟨hin, hp, -⟩ := mem_before.mp hmem
    have hkey : m'.key = m.key := Prod.ext (hp'.trans hp.symm) hstart
    rw [hm, hm', List.inj_on_of_nodup_map hbars.keys hin' hin hkey]

/-- A bar without one inside the window has no return there. -/
theorem lagClose_windowed_eq_none
    (hout : ¬ ∃ a ∈ before bars b, inLookback vars now a.eventDate = true) :
    lagClose E (windowed vars now true Bar.eventDate bars) b = none := by
  have hnil : (before bars b).filter
      (fun a => inLookback vars now a.eventDate) = [] :=
    List.filter_eq_nil_iff.mpr fun a ha hin => hout ⟨a, ha, hin⟩
  rw [lagClose, before_windowed, hnil, last_eq_none_iff.mpr rfl]
  rfl

/-- A bar with one before it has a return in a full build. -/
theorem exists_lagClose (hbars : BarTable bars) (h : before bars b ≠ []) :
    ∃ c, lagClose E bars b = some c := by
  obtain ⟨m, hm⟩ := exists_last E Bar.barStart h
  obtain ⟨hmem, -⟩ := mem_before.mp (mem_of_last hm)
  obtain ⟨c, hc⟩ := Option.isSome_iff_exists.mp (hbars.closes m hmem)
  refine ⟨float64 c, ?_⟩
  rw [lagClose, hm, Option.bind_some, Bar.closeFloat, hc]
  rfl

end Lag

-- ========================================================== one partition

section Partition

variable {vars : Vars} {now d : Int} {E E' : Engine} {bars : List Bar}

theorem date_of_pick {rows : List Return} (hne : rows ≠ []) {d : Int}
    (hrows : ∀ r ∈ rows, r.bar.eventDate = d) :
    ((E.pick rows).map fun r => r.bar.eventDate) = some d := by
  obtain ⟨r, hr⟩ := Option.isSome_iff_exists.mp (E.pick_isSome hne)
  rw [hr, Option.map_some, hrows r (E.mem_of_pick hr)]

/-- The rows of a date are made from the returns of its bars. -/
theorem group_by_window {σ : Type} {date : σ → Option Int}
    {agg : String × Int → List Return → σ}
    (hagg : ∀ k rows, date (agg k rows)
      = (E.pick rows).map fun r => r.bar.eventDate)
    (hdated : ∀ b ∈ bars, b.Dated) :
    group date (groupBy Return.windowKey agg (returns E bars)) (some d)
      = groupBy Return.windowKey agg
          ((group Bar.eventDate bars d).map fun b =>
            ⟨b, lagClose E bars b⟩) := by
  have hpart : ∀ r ∈ returns E bars,
      some r.bar.eventDate = some (dateOf r.windowKey.2) := by
    intro r hr
    obtain ⟨b, hb, rfl⟩ := List.mem_map.mp hr
    rw [hdated b hb]
    exact congrArg some (dateOf_window1h b.barStart).symm
  have hdate : ∀ k ∈ groups Return.windowKey (returns E bars),
      date (agg k (group Return.windowKey (returns E bars) k))
        = some (dateOf k.2) := by
    intro k hk
    rw [hagg]
    refine date_of_pick (group_ne_nil_iff.mpr hk) fun r hr => ?_
    obtain ⟨hmem, rfl⟩ := mem_group.mp hr
    exact Option.some.inj (hpart r hmem)
  rw [group_groupBy hdate hpart, returns, group, group, List.filter_map]
  congr 2
  refine List.filter_congr fun b _ => ?_
  rw [Function.comp_apply]
  exact decide_eq_decide.mpr Option.some_inj

/-- Over returns of one date the engine has no choice. -/
theorem groupBy_engine {σ : Type} {rows : List Return}
    (agg : Engine → String × Int → List Return → σ)
    (hagg : ∀ k rows,
      ((E.pick rows).map fun r => r.bar.eventDate)
        = ((E'.pick rows).map fun r => r.bar.eventDate) →
      agg E k rows = agg E' k rows)
    (hrows : ∀ r ∈ rows, r.bar.eventDate = d) :
    groupBy Return.windowKey (agg E) rows
      = groupBy Return.windowKey (agg E') rows := by
  refine List.map_congr_left fun k hk => hagg k _ ?_
  have hne := group_ne_nil_iff.mpr hk
  have hgroup : ∀ r ∈ group Return.windowKey rows k, r.bar.eventDate = d :=
    fun r hr => hrows r (mem_group.mp hr).1
  rw [date_of_pick hne hgroup, date_of_pick hne hgroup]

theorem dated_windowed (hbars : BarTable bars) :
    ∀ b ∈ windowed vars now true Bar.eventDate bars, b.Dated := by
  intro b hb
  rw [windowed, if_pos rfl] at hb
  exact hbars.dated b (List.mem_filter.mp hb).1

/-- What both builds give, where no bar loses its predecessor. It is
stated of any aggregate of an hour's returns, for the rows and for what
they are computed from alike. -/
theorem group_eq_of_anchored {σ : Type} {date : σ → Option Int}
    (agg : Engine → String × Int → List Return → σ)
    (hdate : ∀ E k rows, date (agg E k rows)
      = (E.pick rows).map fun r => r.bar.eventDate)
    (hagg : ∀ k rows,
      ((E.pick rows).map fun r => r.bar.eventDate)
        = ((E'.pick rows).map fun r => r.bar.eventDate) →
      agg E k rows = agg E' k rows)
    (hbars : BarTable bars) (hd : inLookback vars now d = true)
    (hanchored : Anchored vars now d bars) :
    group date (groupBy Return.windowKey (agg E)
        (returns E (windowed vars now true Bar.eventDate bars))) (some d)
      = group date (groupBy Return.windowKey (agg E') (returns E' bars))
          (some d) := by
  rw [group_by_window (hdate E) (dated_windowed hbars),
    group_by_window (hdate E') hbars.dated, group_windowed, if_pos hd]
  have hlag : (group Bar.eventDate bars d).map (fun b =>
        (⟨b, lagClose E (windowed vars now true Bar.eventDate bars) b⟩
          : Return))
      = (group Bar.eventDate bars d).map fun b =>
          ⟨b, lagClose E' bars b⟩ := by
    refine List.map_congr_left fun b hb => ?_
    obtain ⟨hb, hbd⟩ := mem_group.mp hb
    rw [lagClose_eq hbars (hanchored b hb hbd)]
  rw [hlag]
  refine groupBy_engine agg hagg (d := d) fun r hr => ?_
  obtain ⟨b, hb, rfl⟩ := List.mem_map.mp hr
  exact (mem_group.mp hb).2

theorem rows_eq_of_anchored {R : Type} [Field R] [LinearOrder R]
    (ln : ℚ → R) (sqrt : R → R) (hbars : BarTable bars)
    (hd : inLookback vars now d = true)
    (hanchored : Anchored vars now d bars) :
    group RealizedVol.eventDate (fctRealizedVol ln sqrt E
        (windowed vars now true Bar.eventDate bars)) (some d)
      = group RealizedVol.eventDate (fctRealizedVol ln sqrt E' bars)
          (some d) := by
  refine group_eq_of_anchored (realizedVolOf ln sqrt)
    (fun _ _ _ => rfl) (fun k rows h => ?_) hbars hd hanchored
  simp only [realizedVolOf, h]

theorem samples_eq_of_anchored (hbars : BarTable bars)
    (hd : inLookback vars now d = true)
    (hanchored : Anchored vars now d bars) :
    group Sample.eventDate
        (samples E (windowed vars now true Bar.eventDate bars)) (some d)
      = group Sample.eventDate (samples E' bars) (some d) := by
  refine group_eq_of_anchored sampleOf (fun _ _ _ => rfl)
    (fun k rows h => ?_) hbars hd hanchored
  simp only [sampleOf, h]

theorem group_samples (hdated : ∀ b ∈ bars, b.Dated) :
    group Sample.eventDate (samples E bars) (some d)
      = groupBy Return.windowKey (sampleOf E)
          ((group Bar.eventDate bars d).map fun b =>
            ⟨b, lagClose E bars b⟩) :=
  group_by_window (fun _ _ => rfl) hdated

/-- A bar with a close gives a pair if it has a predecessor. -/
theorem isSome_closePair (hbars : BarTable bars) {b : Bar} (hb : b ∈ bars)
    (last : Option ℚ) :
    (Return.closePair ⟨b, last⟩).isSome = last.isSome := by
  obtain ⟨c, hc⟩ := Option.isSome_iff_exists.mp (hbars.closes b hb)
  cases last with
  | none => rfl
  | some l => simp [Return.closePair, Bar.closeFloat, hc]

/-- The product and hour of a bar. -/
def Bar.windowKey (b : Bar) : String × Int :=
  (b.productId, truncate hour b.barStart)

theorem exists_sample {part : List Bar} {b : Bar} (hb : b ∈ part)
    (last : Bar → Option ℚ) :
    ∃ s ∈ groupBy Return.windowKey (sampleOf E)
        (part.map fun b => ⟨b, last b⟩),
      (s.productId, s.windowStart) = b.windowKey := by
  refine ⟨_, mem_groupBy.mpr ⟨b.windowKey, mem_groups.mpr
    ⟨⟨b, last b⟩, List.mem_map_of_mem hb, rfl⟩, rfl⟩, rfl⟩

/-- An hour has a pair for each bar with a predecessor. -/
theorem card_closePairs (hbars : BarTable bars) {part : List Bar}
    (hsub : ∀ b ∈ part, b ∈ bars) {last : Bar → Option ℚ}
    {k : String × Int} {s : Sample}
    (hs : s ∈ groupBy Return.windowKey (sampleOf E)
      (part.map fun b => ⟨b, last b⟩))
    (hk : (s.productId, s.windowStart) = k) :
    s.closePairs.card
      = ((group Bar.windowKey part k).filter fun b =>
          (last b).isSome).length := by
  obtain ⟨k', -, rfl⟩ := mem_groupBy.mp hs
  obtain rfl : k' = k := hk
  show ((group Return.windowKey (part.map fun b => ⟨b, last b⟩)
    k').filterMap Return.closePair).length = _
  rw [group, List.filter_map, List.length_filterMap_eq_countP,
    List.countP_map, ← List.countP_eq_length_filter]
  refine List.countP_congr fun b hb => ?_
  rw [Function.comp_apply, isSome_closePair hbars
    (hsub b (List.mem_filter.mp hb).1)]

/-- If as many rows have one property as have a weaker one, the rows with
the weaker have both. -/
theorem of_length_filter_eq {α : Type} {p q : α → Bool} {rows : List α}
    (hpq : ∀ x ∈ rows, p x = true → q x = true)
    (h : (rows.filter p).length = (rows.filter q).length) {x : α}
    (hx : x ∈ rows) (hq : q x = true) : p x = true := by
  have hfilter : (rows.filter q).filter p = rows.filter p := by
    rw [List.filter_filter]
    refine List.filter_congr fun y hy => ?_
    by_cases hp : p y = true
    · rw [hp, hpq y hy hp, Bool.and_self]
    · rw [Bool.eq_false_iff.mpr hp, Bool.false_and]
  rw [← hfilter, List.length_filter_eq_length_iff] at h
  exact h x (List.mem_filter.mpr ⟨hx, hq⟩)

/-- A bar of the partition that loses its predecessor loses a pair of
closes. The two builds have the same bars of the date, so the pairs of
its hour can be counted: one for each bar with a predecessor. -/
theorem anchored_of_samples (hbars : BarTable bars)
    (hd : inLookback vars now d = true)
    (hperm : (group Sample.eventDate
      (samples E (windowed vars now true Bar.eventDate bars)) (some d)).Perm
      (group Sample.eventDate (samples E' bars) (some d))) :
    Anchored vars now d bars := by
  intro b hb hbd hbefore
  by_contra hout
  rw [group_samples (dated_windowed hbars), group_samples hbars.dated,
    group_windowed, if_pos hd] at hperm
  have hmem : b ∈ group Bar.eventDate bars d := mem_group.mpr ⟨hb, hbd⟩
  have hsub : ∀ c ∈ group Bar.eventDate bars d, c ∈ bars := fun c hc =>
    (mem_group.mp hc).1
  generalize group Bar.eventDate bars d = part at hperm hmem hsub
  -- the bar's hour has as many pairs in both builds
  obtain ⟨s, hs, hk⟩ := exists_sample (E := E) hmem
    (lagClose E (windowed vars now true Bar.eventDate bars))
  have hcard := (card_closePairs hbars hsub hs hk).symm.trans
    (card_closePairs hbars hsub (hperm.mem_iff.mp hs) hk)
  have hlost : ∀ c ∈ group Bar.windowKey part b.windowKey,
      (lagClose E (windowed vars now true Bar.eventDate bars) c).isSome
          = true →
      (lagClose E' bars c).isSome = true := by
    intro c _ hsome
    by_cases hin : ∃ a ∈ before bars c, inLookback vars now a.eventDate = true
    · obtain ⟨a, ha, -⟩ := hin
      exact Option.isSome_iff_exists.mpr
        (exists_lagClose hbars (List.ne_nil_of_mem ha))
    · rw [lagClose_windowed_eq_none hin] at hsome
      cases hsome
  have hsome := of_length_filter_eq hlost hcard
    (mem_group.mpr ⟨hmem, rfl⟩)
    (Option.isSome_iff_exists.mpr (exists_lagClose hbars hbefore))
  rw [lagClose_windowed_eq_none hout] at hsome
  cases hsome

/-- A partition that two builds write alike is left as it was. -/
theorem group_rebuilt {ρ : Type} {date : ρ → Option Int}
    {new old table : List ρ}
    (h : group date new (some d) = group date old (some d)) :
    group date (overwritten date new (overwritten date old table)) (some d)
      = group date (overwritten date old table) (some d) := by
  rw [group_overwritten, group_overwritten, h]
  split <;> rfl

end Partition

/-- Exactly when every bar of the date keeps its predecessor does an
incremental build give the partition that a full build gives; and a
partition of which this holds on two days is left unchanged by the
second build. -/
theorem volatility_build_independent_iff {vars : Vars} {now d : Int}
    {bars : List Bar} (hbars : BarTable bars)
    (hd : inLookback vars now d = true) (E E' : Engine) :
    (BuildIndependent vars now E E' d bars ↔ Anchored vars now d bars)
      ∧ ∀ now', inLookback vars now' d = true →
        Anchored vars now d bars → Anchored vars now' d bars →
        ∀ (R : Type) [Field R] [LinearOrder R] (ln : ℚ → R) (sqrt : R → R)
          (table : List (RealizedVol R)),
          group RealizedVol.eventDate
              (rebuildRealizedVol ln sqrt vars now' E' bars
                (rebuildRealizedVol ln sqrt vars now E bars table)) (some d)
            = group RealizedVol.eventDate
                (rebuildRealizedVol ln sqrt vars now E bars table)
                (some d) := by
  refine ⟨⟨fun h => ?_, fun h => ?_⟩, ?_⟩
  · exact anchored_of_samples hbars hd h.samples
  · refine ⟨?_, fun R _ _ ln sqrt => ?_⟩
    · exact List.Perm.of_eq (samples_eq_of_anchored hbars hd h)
    · exact List.Perm.of_eq (rows_eq_of_anchored ln sqrt hbars hd h)
  · intro now' hd' hnow hnow' R _ _ ln sqrt table
    apply group_rebuilt
    calc group RealizedVol.eventDate (fctRealizedVol ln sqrt E'
            (windowed vars now' true Bar.eventDate bars)) (some d)
        = group RealizedVol.eventDate (fctRealizedVol ln sqrt E' bars)
            (some d) := rows_eq_of_anchored ln sqrt hbars hd' hnow'
      _ = group RealizedVol.eventDate (fctRealizedVol ln sqrt E
            (windowed vars now true Bar.eventDate bars)) (some d) :=
          (rows_eq_of_anchored ln sqrt hbars hd hnow).symm

-- ============================================================ bar tables

theorem barTable_fctBars1m (E : Engine) (rows : List FctTrade) :
    BarTable (fctBars1m E rows) where
  keys := nodup_fctBars1m
  dated := fun _ hb => dated_of_mem_fctBars1m hb
  closes := fun b hb => by
    obtain ⟨k, hk, rfl⟩ := mem_groupBy.mp hb
    obtain ⟨t, ht⟩ := exists_last E FctTrade.tradeId
      (group_ne_nil_iff.mpr hk)
    show ((E.last FctTrade.tradeId _).map FctTrade.price).isSome
    rw [ht]
    rfl

-- ============================================================ two builds

/-- The bars of the last minute of a day and of the first of the next. -/
def midnightBars : List Bar :=
  fctBars1m Engine.inOrder [btcFct 1 86399 100 1, btcFct 2 86400 101 1]

theorem volatility_build_independent_iff_midnight :
    BuildIndependent {} (3 * day) Engine.inOrder Engine.inReverse 1
        midnightBars
      ↔ Anchored {} (3 * day) 1 midnightBars :=
  (volatility_build_independent_iff
    (barTable_fctBars1m Engine.inOrder _) (by decide +kernel)
    Engine.inOrder Engine.inReverse).1

/-- The pair of closes across midnight is there on the third day and gone
on the fourth, when the window begins at that midnight. -/
theorem predecessor_is_lost_at_the_lookback :
    (∀ t ∈ [3 * day, 4 * day], inLookback {} t 1 = true)
      ∧ (group Sample.eventDate (samples Engine.inOrder
          (windowed {} (3 * day) true Bar.eventDate midnightBars))
          (some 1)).map Sample.closePairs = [{(100, 101)}]
      ∧ (group Sample.eventDate (samples Engine.inOrder
          (windowed {} (4 * day) true Bar.eventDate midnightBars))
          (some 1)).map Sample.closePairs = [0]
      ∧ ¬ BuildIndependent {} (4 * day) Engine.inOrder Engine.inOrder 1
          midnightBars := by
  have hfull : (group Sample.eventDate (samples Engine.inOrder midnightBars)
      (some 1)).map Sample.closePairs = [{(100, 101)}] := by decide +kernel
  have hlate : (group Sample.eventDate (samples Engine.inOrder
      (windowed {} (4 * day) true Bar.eventDate midnightBars))
      (some 1)).map Sample.closePairs = [0] := by decide +kernel
  refine ⟨by decide +kernel, by decide +kernel, hlate, fun h => ?_⟩
  have hpairs := h.samples.map Sample.closePairs
  rw [hfull, hlate] at hpairs
  exact absurd hpairs (by decide +kernel)

end MarketPlatform.Warehouse
