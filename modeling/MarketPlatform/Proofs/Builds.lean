/-
What one build does to the marts.

# What is staged

A build stages, of the copies of a trade that the raw window shows it,
the first to arrive. Of a date inside its lookback it sees every copy
that has arrived: that is where the two windows meet, since a row's raw
partition is not before its event date (`mem_shown_iff_arrived`). What
it stages of such a date depends on what has arrived and on nothing else
(`firsts_staged_date`), as long as copies that tie are the same.

# What is written

Each model is written partition by partition (`group_materialize`), and
what an incremental run can do to one is little: inside the lookback it
writes what the query gives, unless that is nothing, outside it leaves
the partition alone, and it never empties one (`group_materialize_old`).

# The invariant

Every build keeps the tables `Sound`: whatever else a partition holds,
its bars are the bars of its trades, for every engine. One step of this
is `group_materialize_made`, which is about any table made from another
by a local query: a partition that is written is made of the source's
new partition, and one that is kept was made of the old, which has not
changed. It is used for the minute bars over the trades and twice for
the coarser bars over the minute bars.

# The trades there are

The last section says which trades a table holds: copies that had
arrived (`arrived_builds`), and after a build that sees everything
exactly the staged ones (`trades_of_builds`).
-/
import MarketPlatform.Proofs.Bars

namespace MarketPlatform.Warehouse

open Lib Lib.Rfc3339 Lib.Relation Lib.Partitioned

variable {vars : Vars} {history : List Delivery} {now d : Int}

-- =========================================================== the raw table

/-- The row is of a tracked product and not synthetic. -/
def Delivery.tracked (vars : Vars) (r : Delivery) : Bool :=
  r.row.productId ∈ vars.trackedProducts
    && r.row.tradeId ∉ vars.syntheticTradeIds

/-- The copies of trades that had arrived. -/
def arrived (vars : Vars) (history : List Delivery) (now : Int) :
    List StgTrade :=
  (history.filter fun r => r.arrivedAt ≤ now && r.tracked vars).filterMap
    fun r => derived r.row

/-- The copies of trades that the raw window shows a query. -/
def shown (vars : Vars) (history : List Delivery) (now : Int) :
    List StgTrade :=
  (rawTrades vars now (snapshotAt history now)).filterMap derived

/-- A copy that had arrived is one of a delivered row, tracked and
readable. -/
theorem mem_arrived {s : StgTrade} :
    s ∈ arrived vars history now
      ↔ ∃ r ∈ history, r.arrivedAt ≤ now ∧ r.tracked vars = true
        ∧ derived r.row = some s := by
  simp only [arrived, List.mem_filterMap, List.mem_filter, Bool.and_eq_true,
    decide_eq_true_eq, and_assoc]

/-- A copy that is shown has arrived and passes the filter of
partitions. -/
theorem mem_shown {s : StgTrade} :
    s ∈ shown vars history now
      ↔ ∃ r ∈ history, r.arrivedAt ≤ now
        ∧ rawPartitionFilter vars now (r.seen now).partitionTime = true
        ∧ r.tracked vars = true ∧ derived r.row = some s := by
  simp only [shown, rawTrades, snapshotAt, List.mem_filterMap,
    List.mem_filter, List.mem_map, Bool.and_eq_true, decide_eq_true_eq]
  constructor
  · intro h
    obtain ⟨_, ⟨⟨r, ⟨hr, harr⟩, rfl⟩, ⟨hwin, hp⟩, hid⟩, hs⟩ := h
    refine ⟨r, hr, harr, hwin, ?_, hs⟩
    rw [Delivery.tracked, Bool.and_eq_true]
    exact ⟨decide_eq_true hp, decide_eq_true hid⟩
  · intro h
    obtain ⟨r, hr, harr, hwin, ht, hs⟩ := h
    rw [Delivery.tracked, Bool.and_eq_true] at ht
    exact ⟨r.seen now, ⟨⟨r, ⟨hr, harr⟩, rfl⟩, ⟨hwin, of_decide_eq_true ht.1⟩,
      of_decide_eq_true ht.2⟩, hs⟩

/-- What has arrived stays so. -/
theorem mem_arrived_mono {now' : Int} (h : now ≤ now') {s : StgTrade}
    (hs : s ∈ arrived vars history now) : s ∈ arrived vars history now' := by
  obtain ⟨r, hr, harr, hrest⟩ := mem_arrived.mp hs
  exact mem_arrived.mpr ⟨r, hr, harr.trans h, hrest⟩

/-- A raw row's partition is not before its event date. -/
def PartitionsFollow (history : List Delivery) : Prop :=
  ∀ r ∈ history, ∀ s ∈ derived r.row, s.eventDate * day ≤ r.partition

instance : Decidable (PartitionsFollow history) :=
  inferInstanceAs (Decidable (∀ r ∈ history, ∀ s ∈ derived r.row,
    s.eventDate * day ≤ r.partition))

/-- Of a date inside the lookback, the raw window shows everything. -/
theorem mem_shown_iff_arrived (hparts : PartitionsFollow history)
    {s : StgTrade} (hin : inLookback vars now s.eventDate = true) :
    s ∈ shown vars history now ↔ s ∈ arrived vars history now := by
  rw [mem_shown, mem_arrived]
  constructor
  · intro h
    obtain ⟨r, hr, harr, -, ht, hs⟩ := h
    exact ⟨r, hr, harr, ht, hs⟩
  · intro h
    obtain ⟨r, hr, harr, ht, hs⟩ := h
    refine ⟨r, hr, harr, ?_, ht, hs⟩
    have hpart := hparts r hr s hs
    have hdate := of_decide_eq_true hin
    unfold Delivery.seen
    split
    · refine decide_eq_true (le_trans ?_ hpart)
      have hle : (dateOf now - vars.lookbackDays) * day
          ≤ s.eventDate * day :=
        Int.mul_le_mul_of_nonneg_right hdate (by decide)
      rw [sub_mul] at hle
      exact hle
    · rfl

/-- The copies of one trade carry one event date. -/
def OneDate (history : List Delivery) : Prop :=
  ∀ a ∈ history, ∀ b ∈ history, ∀ s ∈ derived a.row, ∀ s' ∈ derived b.row,
    s.key = s'.key → s.eventDate = s'.eventDate

instance (history : List Delivery) : Decidable (OneDate history) :=
  inferInstanceAs (Decidable (∀ a ∈ history, ∀ b ∈ history,
    ∀ s ∈ derived a.row, ∀ s' ∈ derived b.row,
      s.key = s'.key → s.eventDate = s'.eventDate))

/-- What is promised of the copies of one trade. -/
structure Copies (history : List Delivery) : Prop where
  /-- They carry one event date. -/
  date : ∀ a ∈ history, ∀ b ∈ history, ∀ s ∈ derived a.row,
    ∀ s' ∈ derived b.row, s.key = s'.key → s.eventDate = s'.eventDate
  /-- Those that tie in both times are the same. -/
  tied : ∀ a ∈ history, ∀ b ∈ history, ∀ s ∈ derived a.row,
    ∀ s' ∈ derived b.row, s.key = s'.key → s.arrival = s'.arrival → s = s'

/-- What is shown has arrived. -/
theorem mem_arrived_of_shown {s : StgTrade}
    (h : s ∈ shown vars history now) : s ∈ arrived vars history now := by
  obtain ⟨r, hr, harr, -, ht, hs⟩ := mem_shown.mp h
  exact mem_arrived.mpr ⟨r, hr, harr, ht, hs⟩

/-- A copy that had arrived is derived from a row of the history. -/
theorem derived_of_mem_arrived {s : StgTrade}
    (h : s ∈ arrived vars history now) :
    ∃ r ∈ history, s ∈ derived r.row := by
  obtain ⟨r, hr, -, -, hs⟩ := mem_arrived.mp h
  exact ⟨r, hr, hs⟩

/-- So is one that is shown. -/
theorem derived_of_mem_shown {s : StgTrade}
    (h : s ∈ shown vars history now) :
    ∃ r ∈ history, s ∈ derived r.row := by
  obtain ⟨r, hr, -, -, -, hs⟩ := mem_shown.mp h
  exact ⟨r, hr, hs⟩

-- ============================================================= stg_trades

/-- Staging succeeds when every row it reads can be derived, and keeps
the first copy to arrive of each. -/
theorem staged_eq_some_iff {b : Run} {staged : List StgTrade} :
    b.staged vars history = some staged
      ↔ (∀ r ∈ rawTrades vars b.now (snapshotAt history b.now),
          (derived r).isSome)
        ∧ firstBy b.engine StgTrade.key StgTrade.arrival
            (shown vars history b.now) = staged := by
  exact map_mapM_eq_some_iff

/-- What is staged are first copies of what is shown. -/
theorem firsts_staged {b : Run} {staged : List StgTrade}
    (h : b.staged vars history = some staged) :
    Firsts StgTrade.key StgTrade.arrival (shown vars history b.now)
      staged := by
  rw [← (staged_eq_some_iff.mp h).2]
  exact firsts_firstBy

/-- The staged trades of a date inside the lookback. -/
theorem firsts_staged_date (hparts : PartitionsFollow history)
    (hcopies : Copies history) {b : Run} {staged : List StgTrade}
    (h : b.staged vars history = some staged)
    (hin : inLookback vars b.now d = true) :
    Firsts StgTrade.key StgTrade.arrival
      (group StgTrade.eventDate (arrived vars history b.now) d)
      (group StgTrade.eventDate staged d) := by
  have hdate : ∀ s ∈ shown vars history b.now,
      ∀ s' ∈ shown vars history b.now, s.key = s'.key →
        decide (s.eventDate = d) = decide (s'.eventDate = d) := by
    intro s hs s' hs' hkey
    obtain ⟨a, ha, hs⟩ := derived_of_mem_shown hs
    obtain ⟨b, hb, hs'⟩ := derived_of_mem_shown hs'
    rw [hcopies.date a ha b hb s hs s' hs' hkey]
  refine ((firsts_staged h).filter hdate).congr fun s => ?_
  rw [List.mem_filter, mem_group, decide_eq_true_eq]
  refine and_congr_left fun hd => ?_
  exact mem_shown_iff_arrived hparts (by rw [hd]; exact hin)

-- ============================================================ one partition

/-- The rows that a query reads of a date: all of them or none. -/
theorem group_windowed {ρ : Type} {date : ρ → Int} {rows : List ρ} :
    group date (windowed vars now true date rows) d
      = if inLookback vars now d then group date rows d else [] := by
  rw [windowed, if_pos rfl, group_filter]
  split
  · next hin =>
      exact List.filter_eq_self.mpr fun r hr => by
        rw [(mem_group.mp hr).2, hin]
  · next hout =>
      exact List.filter_eq_nil_iff.mpr fun r hr => by
        rw [(mem_group.mp hr).2]
        exact hout

/-- A run is incremental, or it writes the whole table. -/
theorem incremental_or_full {σ : Type} (table : Option σ) (full : Bool) :
    (∃ t, table = some t ∧ full = false) ∨ (table = none ∨ full = true) := by
  cases table with
  | none => exact Or.inr (Or.inl rfl)
  | some t =>
      cases full with
      | true => exact Or.inr (Or.inr rfl)
      | false => exact Or.inl ⟨t, rfl, rfl⟩

section Materialize

variable {ρ σ : Type} {ok : ρ → Prop} {date : ρ → Int} {date' : σ → Int}
  {query : List ρ → List σ} {rows : List ρ}

/-- A partition after the whole table has been written. -/
theorem group_materialize_full (hq : Local ok date date' query)
    (hok : ∀ r ∈ rows, ok r) {table : Option (List σ)} {full : Bool}
    (hfull : table = none ∨ full = true) :
    group date' (materialize table full date' fun inc =>
        query (windowed vars now inc date rows)) d
      = query (group date rows d) := by
  have hwhole : materialize table full date' (fun inc =>
      query (windowed vars now inc date rows)) = query rows := by
    rcases hfull with rfl | rfl
    · rfl
    · cases table <;> rfl
  rw [hwhole]
  exact hq.group rows hok d

/-- A partition after an incremental run. -/
theorem group_materialize (hq : Local ok date date' query)
    (hok : ∀ r ∈ rows, ok r) {t : List σ} :
    group date' (materialize (some t) false date' fun inc =>
        query (windowed vars now inc date rows)) d
      = if inLookback vars now d = true ∧ query (group date rows d) ≠ []
        then query (group date rows d) else group date' t d := by
  have hwindow : ∀ r ∈ windowed vars now true date rows, ok r := by
    intro r hr
    rw [windowed, if_pos rfl] at hr
    exact hok r (List.mem_filter.mp hr).1
  unfold materialize
  rw [group_overwritten, hq.group _ hwindow, group_windowed]
  by_cases hin : inLookback vars now d = true
  · by_cases hne : query (group date rows d) = []
    · simp [hin, hne]
    · simp [hin, hne]
  · simp [hin, hq.nil]

/-- What an incremental run may do to a partition: it is never emptied,
and outside the lookback it stays. -/
theorem group_materialize_old (hq : Local ok date date' query)
    (hok : ∀ r ∈ rows, ok r) {t new : List σ}
    (hnew : new = group date' (materialize (some t) false date' fun inc =>
      query (windowed vars now inc date rows)) d) :
    (new = [] → group date' t d = [])
      ∧ (inLookback vars now d ≠ true → new = group date' t d) := by
  rw [group_materialize hq hok] at hnew
  constructor
  · intro hnil
    rw [hnil] at hnew
    split at hnew
    · next hin => exact absurd hnew.symm hin.2
    · exact hnew.symm
  · intro hout
    rw [hnew, if_neg fun hin => hout hin.1]

end Materialize

/-- The rows of a written model are old rows or rows of its query. -/
theorem mem_materialize {ρ : Type} {table : Option (List ρ)} {full : Bool}
    {date : ρ → Int} {query : Bool → List ρ} {r : ρ}
    (h : r ∈ materialize table full date query) :
    (∃ t ∈ table, r ∈ t) ∨ ∃ inc, r ∈ query inc := by
  cases table with
  | none => exact Or.inr ⟨false, h⟩
  | some t =>
      cases full with
      | true => exact Or.inr ⟨false, h⟩
      | false =>
          rcases List.mem_append.mp h with h | h
          · exact Or.inl ⟨t, rfl, (List.mem_filter.mp h).1⟩
          · exact Or.inr ⟨true, h⟩

/-- A derived trade carries the date of its minute. -/
theorem dated_of_derived {r : RawTrade} {s : StgTrade}
    (h : derived r = some s) : s.eventDate = dateOf s.eventMinute := by
  simp only [derived, Option.bind_eq_bind, Option.bind_eq_some_iff,
    Option.pure_def, Option.some.injEq] at h
  obtain ⟨_, -, _, -, t, -, _, -, _, -, rfl⟩ := h
  exact (dateOf_minute t).symm

/-- And so do the staged ones. -/
theorem dated_of_staged {b : Run} {staged : List StgTrade}
    (h : b.staged vars history = some staged) {s : StgTrade}
    (hs : s ∈ staged) : (FctTrade.ofStaged s).Dated := by
  obtain ⟨r, -, hr⟩ := derived_of_mem_shown ((firsts_staged h).mem s hs)
  exact dated_of_derived hr

/-- A table that is made from another one, partition by partition and
whatever the engine, stays so. The partitions that are rewritten are
made from the new source; of the others the source is what it was,
because it was not rewritten either. -/
theorem group_materialize_made {ρ σ : Type} (source : Tables → List ρ)
    (made : Tables → List σ) {ok : ρ → Prop} {date : ρ → Int}
    {date' : σ → Int} {query : Engine → List ρ → List σ}
    (hq : ∀ E, Local ok date date' (query E))
    (hnil : ∀ E rows, query E rows = [] → rows = []) {rows : List ρ}
    (hok : ∀ r ∈ rows, ok r)
    (hperm : ∀ E E', (query E (group date rows d)).Perm
      (query E' (group date rows d)))
    {tables : Option Tables} {full : Bool}
    (hold : ∀ T ∈ tables, ∀ E,
      (group date' (made T) d).Perm (query E (group date (source T) d)))
    (hkept : ∀ T, tables = some T → full = false →
      (group date rows d = [] → group date (source T) d = [])
        ∧ (inLookback vars now d ≠ true →
          group date rows d = group date (source T) d))
    (E E' : Engine) :
    (group date' (materialize (tables.map made) full date' fun inc =>
        query E (windowed vars now inc date rows)) d).Perm
      (query E' (group date rows d)) := by
  rcases incremental_or_full tables full with ⟨T, rfl, rfl⟩ | hfull
  · rw [Option.map_some, group_materialize (hq E) hok]
    split
    · exact hperm E E'
    · next hcase =>
        obtain ⟨hempty, hout⟩ := hkept T rfl rfl
        have hsame : group date (source T) d = group date rows d := by
          by_cases hin : inLookback vars now d = true
          · have hrows : group date rows d = [] := by
              by_contra hne
              exact hcase ⟨hin, fun h => hne (hnil E _ h)⟩
            rw [hempty hrows, hrows]
          · exact (hout hin).symm
        rw [← hsame]
        exact hold T rfl E'
  · rw [group_materialize_full (hq E) hok (hfull.imp_left fun h => by
      rw [h, Option.map_none])]
    exact hperm E E'

-- ============================================================= every build

/-- What every build keeps: rows are dated by their minutes, a key has one
trade in a partition, and the bars of a partition are those of its
trades, whatever the engine. -/
structure Tables.Sound (T : Tables) : Prop where
  dated : ∀ t ∈ T.trades, t.Dated
  barsDated : ∀ b ∈ T.bars1m, b.Dated
  keys : ∀ d, ((group FctTrade.eventDate T.trades d).map
    FctTrade.key).Nodup
  bars1m : ∀ d E, (group Bar.eventDate T.bars1m d).Perm
    (fctBars1m E (group FctTrade.eventDate T.trades d))
  bars5m : ∀ d E, (group RolledBar.eventDate T.bars5m d).Perm
    (fctBars5m E (group Bar.eventDate T.bars1m d))
  bars1h : ∀ d E, (group RolledBar.eventDate T.bars1h d).Perm
    (fctBars1h E (group Bar.eventDate T.bars1m d))

/-- One row of `fct_trades` for each staged trade. -/
theorem nodup_fctTrades {rows : List StgTrade}
    (h : (rows.map StgTrade.key).Nodup) :
    ((fctTrades rows).map FctTrade.key).Nodup := by
  rw [fctTrades, List.map_map]
  exact h

section Build

variable {b : Run} {full : Bool} {tables : Option Tables}
  {staged : List StgTrade}

/-- The trades of a table carry the dates of their minutes. -/
theorem dated_build_trades (h : b.staged vars history = some staged)
    (hold : ∀ T ∈ tables, T.Sound) :
    ∀ t ∈ (buildMarts b.engine vars b.now full staged tables).trades,
      t.Dated := by
  intro t ht
  rw [buildMarts_trades] at ht
  rcases mem_materialize ht with ⟨rows, hrows, ht⟩ | ⟨inc, ht⟩
  · obtain ⟨T, hT, rfl⟩ := Option.map_eq_some_iff.mp hrows
    exact (hold T hT).dated t ht
  · obtain ⟨s, hs, rfl⟩ := List.mem_map.mp ht
    refine dated_of_staged h ?_
    cases inc with
    | true => exact (List.mem_filter.mp hs).1
    | false => exact hs

/-- And so do the minute bars. -/
theorem dated_build_bars1m (hold : ∀ T ∈ tables, T.Sound) :
    ∀ r ∈ (buildMarts b.engine vars b.now full staged tables).bars1m,
      r.Dated := by
  intro r hr
  rw [buildMarts_bars1m] at hr
  rcases mem_materialize hr with ⟨rows, hrows, hr⟩ | ⟨inc, hr⟩
  · obtain ⟨T, hT, rfl⟩ := Option.map_eq_some_iff.mp hrows
    exact (hold T hT).barsDated r hr
  · exact dated_of_mem_fctBars1m hr

/-- A partition of `fct_trades` after a full refresh. -/
theorem group_build_trades_full (hfull : tables = none ∨ full = true)
    (d : Int) :
    group FctTrade.eventDate
        (buildMarts b.engine vars b.now full staged tables).trades d
      = fctTrades (group StgTrade.eventDate staged d) := by
  rw [buildMarts_trades]
  refine group_materialize_full local_fctTrades (fun _ _ => trivial) ?_
  exact hfull.imp_left fun h => by rw [h]; rfl

/-- A partition of `fct_trades` after an incremental build. -/
theorem group_build_trades {T : Tables} (d : Int) :
    group FctTrade.eventDate
        (buildMarts b.engine vars b.now false staged (some T)).trades d
      = if inLookback vars b.now d = true
          ∧ fctTrades (group StgTrade.eventDate staged d) ≠ []
        then fctTrades (group StgTrade.eventDate staged d)
        else group FctTrade.eventDate T.trades d := by
  rw [buildMarts_trades]
  exact group_materialize local_fctTrades fun _ _ => trivial

/-- No key has two trades in a partition. -/
theorem keys_build (h : b.staged vars history = some staged)
    (hold : ∀ T ∈ tables, T.Sound) (d : Int) :
    ((group FctTrade.eventDate (buildMarts b.engine vars b.now full staged
      tables).trades d).map FctTrade.key).Nodup := by
  have hstaged : ((fctTrades (group StgTrade.eventDate staged d)).map
      FctTrade.key).Nodup := by
    refine nodup_fctTrades ((firsts_staged h).nodup.sublist ?_)
    exact List.filter_sublist.map StgTrade.key
  rcases incremental_or_full tables full with ⟨T, rfl, rfl⟩ | hfull
  · rw [group_build_trades]
    split
    · exact hstaged
    · exact (hold T rfl).keys d
  · rw [group_build_trades_full hfull]
    exact hstaged

/-- What a build may do to a partition of `fct_trades`. -/
theorem build_trades_old {T : Tables} (d : Int) :
    (group FctTrade.eventDate
        (buildMarts b.engine vars b.now false staged (some T)).trades d = []
        → group FctTrade.eventDate T.trades d = [])
      ∧ (inLookback vars b.now d ≠ true →
        group FctTrade.eventDate
            (buildMarts b.engine vars b.now false staged (some T)).trades d
          = group FctTrade.eventDate T.trades d) :=
  group_materialize_old local_fctTrades (fun _ _ => trivial)
    (congrArg (fun rows => group FctTrade.eventDate rows d)
      buildMarts_trades)

/-- The minute bars of a partition after a build. -/
theorem build_bars1m (h : b.staged vars history = some staged)
    (hold : ∀ T ∈ tables, T.Sound) (d : Int) (E : Engine) :
    (group Bar.eventDate
        (buildMarts b.engine vars b.now full staged tables).bars1m d).Perm
      (fctBars1m E (group FctTrade.eventDate
        (buildMarts b.engine vars b.now full staged tables).trades d)) := by
  rw [buildMarts_bars1m]
  refine group_materialize_made Tables.trades Tables.bars1m local_fctBars1m
    (fun E rows => groupBy_eq_nil_iff.mp) (dated_build_trades h hold)
    (fun E E' => fctBars1m_perm (List.Perm.refl _) (keys_build h hold d))
    (fun T hT => (hold T hT).bars1m d) ?_ b.engine E
  rintro T rfl rfl
  exact build_trades_old d

/-- What a build may do to a partition of `fct_bars_1m`. -/
theorem build_bars1m_old {T : Tables}
    (h : b.staged vars history = some staged) (hold : T.Sound) (d : Int) :
    (group Bar.eventDate
        (buildMarts b.engine vars b.now false staged (some T)).bars1m d = []
        → group Bar.eventDate T.bars1m d = [])
      ∧ (inLookback vars b.now d ≠ true →
        group Bar.eventDate
            (buildMarts b.engine vars b.now false staged (some T)).bars1m d
          = group Bar.eventDate T.bars1m d) := by
  have hsound : ∀ T' ∈ some T, T'.Sound := fun T' hT' =>
    Option.some.inj hT' ▸ hold
  exact group_materialize_old (local_fctBars1m b.engine)
    (dated_build_trades h hsound)
    (congrArg (fun rows => group Bar.eventDate rows d) buildMarts_bars1m)

/-- The coarser bars of a partition after a build. -/
theorem build_rolled (h : b.staged vars history = some staged)
    (hold : ∀ T ∈ tables, T.Sound) {window : Int → Int}
    (hwindow : ∀ t, dateOf (window t) = dateOf t)
    (rolled : Tables → List RolledBar)
    (holdRolled : ∀ T ∈ tables, ∀ E,
      (group RolledBar.eventDate (rolled T) d).Perm
        (rollUpBars window E (group Bar.eventDate T.bars1m d)))
    (E : Engine) :
    (group RolledBar.eventDate (materialize (tables.map rolled) full
        RolledBar.eventDate fun inc =>
          rollUpBars window b.engine (windowed vars b.now inc Bar.eventDate
            (buildMarts b.engine vars b.now full staged
              tables).bars1m)) d).Perm
      (rollUpBars window E (group Bar.eventDate
        (buildMarts b.engine vars b.now full staged tables).bars1m d)) := by
  have hkeys : ((group Bar.eventDate (buildMarts b.engine vars b.now full
      staged tables).bars1m d).map Bar.key).Nodup :=
    ((build_bars1m h hold d b.engine).map Bar.key).nodup_iff.mpr
      nodup_fctBars1m
  refine group_materialize_made Tables.bars1m rolled
    (local_rollUpBars hwindow) (fun E rows => groupBy_eq_nil_iff.mp)
    (dated_build_bars1m hold)
    (fun E E' => rollUpBars_perm (List.Perm.refl _) hkeys) holdRolled ?_
    b.engine E
  rintro T rfl rfl
  exact build_bars1m_old h (hold T rfl) d

/-- A build of sound tables gives sound tables. The fields are the
lemmas above, for each table over the one it is made from. -/
theorem sound_build (h : b.staged vars history = some staged)
    (hold : ∀ T ∈ tables, T.Sound) :
    (buildMarts b.engine vars b.now full staged tables).Sound where
  dated := dated_build_trades h hold
  barsDated := dated_build_bars1m hold
  keys := keys_build h hold
  bars1m := build_bars1m h hold
  bars5m := fun d E => by
    rw [buildMarts_bars5m]
    exact build_rolled h hold dateOf_window5m Tables.bars5m
      (fun T hT => (hold T hT).bars5m d) E
  bars1h := fun d E => by
    rw [buildMarts_bars1h]
    exact build_rolled h hold dateOf_window1h Tables.bars1h
      (fun T hT => (hold T hT).bars1h d) E

end Build

/-- So does every schedule of builds, by induction on it; a build that
fails leaves the tables. -/
theorem sound_builds (bs : List Run) {tables : Option Tables}
    (hold : ∀ T ∈ tables, T.Sound) :
    ∀ T ∈ builds vars history tables bs, T.Sound := by
  induction bs generalizing tables with
  | nil => exact hold
  | cons b bs ih =>
      refine ih fun T hT => ?_
      unfold build at hT
      split at hT
      · next staged hstaged =>
          obtain rfl := Option.some.inj hT
          exact sound_build hstaged hold
      · exact hold T hT

/-- The minute bars are those of the trades. -/
theorem Tables.Sound.bars1m_perm {T : Tables} (h : T.Sound) (E : Engine) :
    T.bars1m.Perm (fctBars1m E T.trades) := by
  refine perm_of_groups Bar.eventDate fun d => ?_
  rw [(local_fctBars1m E).group T.trades h.dated]
  exact h.bars1m d E

/-- Tables that builds have made from nothing are sound. -/
theorem sound_of_builds {bs : List Run} {T : Tables}
    (h : builds vars history none bs = some T) : T.Sound := by
  have hnone : ∀ T ∈ (none : Option Tables), T.Sound := by
    rintro T ⟨⟩
  exact sound_builds bs hnone T h

-- ======================================================= the trades there are

/-- The trades of the table are copies that had arrived. -/
def Tables.Arrived (vars : Vars) (history : List Delivery) (now : Int)
    (T : Tables) : Prop :=
  ∀ t ∈ T.trades, ∃ s ∈ arrived vars history now, FctTrade.ofStaged s = t

/-- One build keeps it. -/
theorem arrived_build {b : Run} {full : Bool} {tables : Option Tables}
    {staged : List StgTrade} (h : b.staged vars history = some staged)
    (hnow : b.now ≤ now)
    (hold : ∀ T ∈ tables, T.Arrived vars history now) :
    (buildMarts b.engine vars b.now full staged tables).Arrived vars
      history now := by
  intro t ht
  rw [buildMarts_trades] at ht
  rcases mem_materialize ht with ⟨rows, hrows, ht⟩ | ⟨inc, ht⟩
  · obtain ⟨T, hT, rfl⟩ := Option.map_eq_some_iff.mp hrows
    exact hold T hT t ht
  · obtain ⟨s, hs, rfl⟩ := List.mem_map.mp ht
    have hstaged : s ∈ staged := by
      cases inc with
      | true => exact (List.mem_filter.mp hs).1
      | false => exact hs
    have hshown := (firsts_staged h).mem s hstaged
    exact ⟨s, mem_arrived_mono hnow (mem_arrived_of_shown hshown), rfl⟩

/-- So do builds up to a time. -/
theorem arrived_builds (bs : List Run) (hbs : ∀ b ∈ bs, b.now ≤ now)
    {tables : Option Tables}
    (hold : ∀ T ∈ tables, T.Arrived vars history now) :
    ∀ T ∈ builds vars history tables bs, T.Arrived vars history now := by
  induction bs generalizing tables with
  | nil => exact hold
  | cons b bs ih =>
      obtain ⟨hb, hbs⟩ := List.forall_mem_cons.mp hbs
      refine ih hbs fun T hT => ?_
      unfold build at hT
      split at hT
      · next staged hstaged =>
          obtain rfl := Option.some.inj hT
          exact arrived_build hstaged hb hold
      · exact hold T hT

/-- An incremental build whose raw window shows every copy, and whose
lookback holds every date, leaves the trades it staged and no others: it
overwrites the partitions of all dates that any trade of the table has,
since whatever is in the table had arrived. -/
theorem trades_of_builds (hdate : OneDate history) {bs : List Run} {b : Run}
    (hbs : ∀ b' ∈ bs, b'.now ≤ b.now)
    (hwindow : ∀ r ∈ snapshotAt history b.now,
      rawPartitionFilter vars b.now r.partitionTime = true)
    {staged : List StgTrade} (hstaged : b.staged vars history = some staged)
    (hin : ∀ s ∈ staged, inLookback vars b.now s.eventDate = true)
    {T : Tables} (hbuild : builds vars history none (bs ++ [b]) = some T) :
    T.trades.Perm (fctTrades staged) := by
  have hlast : build vars history false (builds vars history none bs) b
      = some T := by
    rw [← hbuild, builds, builds, List.foldl_append]
    rfl
  rw [build, hstaged] at hlast
  obtain rfl := Option.some.inj hlast
  have hnone : ∀ T ∈ (none : Option Tables),
      T.Arrived vars history b.now := by
    rintro T ⟨⟩
  have harrived := arrived_builds bs hbs hnone
  refine perm_of_groups FctTrade.eventDate fun d => List.Perm.of_eq ?_
  rw [local_fctTrades.group staged fun _ _ => trivial]
  cases hold : builds vars history none bs with
  | none => exact group_build_trades_full (Or.inl rfl) d
  | some T =>
      rw [group_build_trades]
      split
      · rfl
      · next hcase =>
          -- a trade of the date would still be staged, with this date
          have hnil : group StgTrade.eventDate staged d = [] := by
            by_contra hne
            obtain ⟨s, hs⟩ := List.exists_mem_of_ne_nil _ hne
            obtain ⟨hs, hsd⟩ := mem_group.mp hs
            refine hcase ⟨hsd ▸ hin s hs, fun hmap => hne ?_⟩
            exact List.map_eq_nil_iff.mp hmap
          rw [hnil]
          refine group_eq_nil_iff.mpr fun t ht htd => ?_
          obtain ⟨s, hs, rfl⟩ := harrived T hold t ht
          obtain ⟨r, hr, harr, htracked, hderived⟩ := mem_arrived.mp hs
          have hseen : r.seen b.now ∈ snapshotAt history b.now :=
            List.mem_map_of_mem (List.mem_filter.mpr
              ⟨hr, decide_eq_true harr⟩)
          have hshown : s ∈ shown vars history b.now := mem_shown.mpr
            ⟨r, hr, harr, hwindow _ hseen, htracked, hderived⟩
          obtain ⟨a, ha, hkey⟩ := (firsts_staged hstaged).each s hshown
          obtain ⟨q, hq, hqa⟩ :=
            derived_of_mem_shown ((firsts_staged hstaged).mem a ha)
          have had : a.eventDate = d :=
            (hdate q hq r hr a hqa s hderived hkey).trans htd
          exact group_eq_nil_iff.mp hnil a ha had

end MarketPlatform.Warehouse
