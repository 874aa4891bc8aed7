/-
The reconciliation balances.

`fct_stream_batch_recon` joins the job's final bars to the batch's. This
file says what its rows come to, over any set of windows and any run of
the job (`recon_balances`).

# A row for each window

The join is a full outer one, so every window that the job has written a
bar of, or that the batch has a bar of, has its row, and there is no row
of another window (`exists_reconRow_iff`). A final bar is one of a window
written, since every window written has a final bar. And each has one row
only, because both sides of the join are unique by window
(`nodup_reconKeys`).

# The differences add up

Each row's `trade_count_diff` is at least the trades staged in its window
less the elements the job has of it, and exactly that once the job has
drained (`tradeCountDiff_bounds`). With one row for each window the rows
of some windows add up to the trades staged there, if all of them have a
row (`sum_windows`), and to no more elements than the job has there
(`sum_windows_le`). Every staged trade has a row, by its bar; the elements
all have one when the job has drained, as each has been written then.
-/
import MarketPlatform.Proofs.StreamBatch

namespace MarketPlatform.Warehouse

open Lib Lib.Rfc3339 Lib.Relation Consumer Streaming

-- ============================================================== the windows

section Windows

variable {E : Engine} {panes : List StreamBar} {bars : List Bar}

/-- The windows of the reconciliation are the keys of its join. -/
theorem map_key_recon :
    (fctStreamBatchRecon E panes bars).map ReconRow.key
      = (fullOuterJoin StreamBar.key Bar.key (streamingFinal E panes)
          bars).filterMap (joinKey StreamBar.key Bar.key) := by
  unfold fctStreamBatchRecon
  dsimp only
  rw [List.map_filterMap]
  refine List.filterMap_congr fun x _ => ?_
  rw [joinKey, Option.map_map]
  exact congrFun Option.map_id _

/-- One row for each window. -/
theorem nodup_reconKeys (hbars : (bars.map Bar.key).Nodup) :
    ((fctStreamBatchRecon E panes bars).map ReconRow.key).Nodup := by
  rw [map_key_recon]
  exact nodup_keys_fullOuterJoin nodup_firstBy hbars

/-- Every window of a bar, of either side, has its row, and no other. -/
theorem exists_reconRow_iff {w : String × Int} :
    (∃ r ∈ fctStreamBatchRecon E panes bars, r.key = w)
      ↔ (∃ s ∈ panes, s.key = w) ∨ ∃ b ∈ bars, b.key = w := by
  constructor
  · rintro ⟨r, hr, rfl⟩
    obtain ⟨k, s, b, hsome, hs, hb, rfl⟩ := mem_fctStreamBatchRecon.mp hr
    rcases hsome with hsome | hsome
    · obtain ⟨s, rfl⟩ := Option.isSome_iff_exists.mp hsome
      exact Or.inl ⟨s, (of_mem_firstBy hs.1).1, hs.2⟩
    · obtain ⟨b, rfl⟩ := Option.isSome_iff_exists.mp hsome
      exact Or.inr ⟨b, hb⟩
  · intro hw
    obtain ⟨s, hs⟩ := exists_rowAt StreamBar.key (streamingFinal E panes) w
    obtain ⟨b, hb⟩ := exists_rowAt Bar.key bars w
    refine ⟨_, mem_fctStreamBatchRecon.mpr ⟨w, s, b, ?_, hs, hb, rfl⟩, rfl⟩
    rcases hw with ⟨a, ha, hkey⟩ | hw
    · obtain ⟨f, hf, hfkey⟩ : ∃ f ∈ streamingFinal E panes, f.key = a.key :=
        exists_mem_firstBy ha
      cases s with
      | some s => exact Or.inl rfl
      | none => exact absurd (mem_groups.mpr ⟨f, hf, hfkey.trans hkey⟩) hs
    · cases b with
      | some b => exact Or.inr rfl
      | none => exact absurd (mem_groups.mpr hw) hb

end Windows

-- ============================================================== the balance

section Balance

variable {F : Type} {fl : Floats F} {vars : Vars} {now : Int}
  {messages : List Trade} {rows : List RawTrade} {staged : List StgTrade}
  {bars : List Bar}

theorem Seen.nodup_bars (h : Seen vars now messages rows staged bars) :
    (bars.map Bar.key).Nodup := by
  obtain ⟨E, hperm⟩ := h.table
  have hkey : ∀ k rows, (barOf E k rows).key = k := fun _ _ => rfl
  rw [(hperm.map Bar.key).nodup_iff, fctBars1m, map_groupBy hkey]
  exact nodup_groups

/-- The trades staged for some windows. -/
def stagedIn (keep : String × Int → Bool) (staged : List StgTrade) : Nat :=
  (staged.filter fun st => keep st.window).length

/-- The elements the job has for some windows. -/
def readIn (keep : String × Int → Bool) (elements : List (Element F)) :
    Nat :=
  (elements.filter fun e => keep e.window).length

/-- What the reconciliation shows of some windows, added up. -/
def netDiff (keep : String × Int → Bool) (recon : List ReconRow) : Int :=
  ((recon.filter fun r => keep r.key).map ReconRow.tradeCountDiff).sum

/-- A row for each window that either side has, once, and the
differences add up. -/
structure Balances (fl : Floats F) (staged : List StgTrade)
    (bars : List Bar) (events : List JobEvent) (recon : List ReconRow) :
    Prop where
  rows : ∀ w, (∃ r ∈ recon, r.key = w)
    ↔ (∃ s ∈ (run fl events).written fl, s.key = w) ∨ ∃ b ∈ bars, b.key = w
  once : (recon.map ReconRow.key).Nodup
  atLeast : ∀ keep, (stagedIn keep staged : Int)
    - readIn keep (run fl events).elements ≤ netDiff keep recon
  drained : Drained (run fl events) → ∀ keep, netDiff keep recon
    = (stagedIn keep staged : Int) - readIn keep (run fl events).elements

section Sums

variable {recon : List ReconRow} {keep : String × Int → Bool}

/-- The rows of some windows, in windows that all have a row. -/
theorem sum_windows {α : Type} {window : α → String × Int} {items : List α}
    (hnodup : (recon.map ReconRow.key).Nodup)
    (hrows : ∀ a ∈ items, ∃ r ∈ recon, r.key = window a) :
    ((recon.filter fun r => keep r.key).map fun r =>
        (group window items r.key).length).sum
      = (items.filter fun a => keep (window a)).length := by
  have hkeys : ((recon.filter fun r => keep r.key).map ReconRow.key).Nodup :=
    hnodup.sublist (List.filter_sublist.map _)
  have hkeep : ∀ a ∈ items, keep (window a) = true
      ↔ window a ∈ (recon.filter fun r => keep r.key).map ReconRow.key := by
    intro a ha
    rw [List.mem_map]
    constructor
    · intro hk
      obtain ⟨r, hr, hkey⟩ := hrows a ha
      rw [← hkey] at hk
      exact ⟨r, List.mem_filter.mpr ⟨hr, hk⟩, hkey⟩
    · intro hx
      obtain ⟨r, hr, hkey⟩ := hx
      rw [← hkey]
      exact (List.mem_filter.mp hr).2
  rw [← sum_length_group hkeys hkeep, List.map_map]
  rfl

/-- Of windows without a row, nothing is added. -/
theorem sum_windows_le {α : Type} {window : α → String × Int}
    {items : List α} (hnodup : (recon.map ReconRow.key).Nodup) :
    ((recon.filter fun r => keep r.key).map fun r =>
        (group window items r.key).length).sum
      ≤ (items.filter fun a => keep (window a)).length := by
  have hgroup : ∀ r ∈ recon.filter (fun r => keep r.key),
      group window items r.key = group window (items.filter fun a =>
        window a ∈ recon.map ReconRow.key) r.key := by
    intro r hr
    have hmem : r.key ∈ recon.map ReconRow.key :=
      List.mem_map_of_mem (List.mem_filter.mp hr).1
    rw [group_filter, eq_comm, List.filter_eq_self]
    intro a ha
    rw [(mem_group.mp ha).2]
    exact decide_eq_true hmem
  have hrows : ∀ a ∈ items.filter (fun a =>
      window a ∈ recon.map ReconRow.key), ∃ r ∈ recon, r.key = window a :=
    fun a ha => List.mem_map.mp
      (of_decide_eq_true (List.mem_filter.mp ha).2)
  rw [List.map_congr_left fun r hr => congrArg List.length (hgroup r hr),
    sum_windows hnodup hrows]
  exact (List.filter_sublist.filter _).length_le

/-- Differences of counts, added up. -/
theorem sum_sub_counts {α : Type} (f g : α → Nat) (rows : List α) :
    (rows.map fun r => (f r : Int) - g r).sum
      = ((rows.map f).sum : Int) - ((rows.map g).sum : Nat) := by
  induction rows with
  | nil => rfl
  | cons r rows ih =>
      simp only [List.map_cons, List.sum_cons]
      omega

end Sums

/-- A row shows its staged trades less what was read, or more. -/
theorem tradeCountDiff_bounds (E : Engine)
    (h : Seen vars now messages rows staged bars) {events : List JobEvent}
    {r : ReconRow}
    (hr : r ∈ fctStreamBatchRecon E ((run fl events).written fl) bars) :
    ((group StgTrade.window staged r.key).length : Int)
        - (group Element.window (run fl events).elements r.key).length
      ≤ r.tradeCountDiff
    ∧ (Drained (run fl events) → r.tradeCountDiff
      = ((group StgTrade.window staged r.key).length : Int)
        - (group Element.window (run fl events).elements r.key).length) := by
  have htally := tallied_of_mem h hr
  have hread : (group Element.window (run fl events).elements r.key).length
      = (idsOf fl r.key (kept events)).length := by
    rw [← tradeIds_run, List.length_map]
  have hstaged : (group StgTrade.window staged r.key).length
      = (stagedIds r.key staged).length := by
    rw [stagedIds, List.length_map]
  rw [hread, hstaged]
  exact ⟨htally.least, htally.drained⟩

/-- Rows of all windows that show the differences of their windows
balance. The keys are distinct, so the rows of some windows count the
trades of these windows once; a trade that is staged has a row, and one
that was read has a row when the job is drained. -/
theorem balances_of_rows {events : List JobEvent} {recon : List ReconRow}
    (hrows : ∀ w, (∃ r ∈ recon, r.key = w)
      ↔ (∃ s ∈ (run fl events).written fl, s.key = w)
        ∨ ∃ b ∈ bars, b.key = w)
    (hnodup : (recon.map ReconRow.key).Nodup)
    (hstaged : ∀ st ∈ staged, ∃ b ∈ bars, b.key = st.window)
    (hread : Drained (run fl events) → ∀ e ∈ (run fl events).elements,
      ∃ s ∈ (run fl events).written fl, s.key = e.window)
    (hdiff : ∀ r ∈ recon,
      ((group StgTrade.window staged r.key).length : Int)
          - (group Element.window (run fl events).elements r.key).length
        ≤ r.tradeCountDiff
      ∧ (Drained (run fl events) → r.tradeCountDiff
        = ((group StgTrade.window staged r.key).length : Int)
          - (group Element.window (run fl events).elements
            r.key).length)) :
    Balances fl staged bars events recon := by
  have hstagedRow : ∀ st ∈ staged, ∃ r ∈ recon, r.key = st.window :=
    fun st hst => (hrows _).mpr (Or.inr (hstaged st hst))
  refine ⟨hrows, hnodup, fun keep => ?_, fun hdrained keep => ?_⟩
  · have hfew : ((recon.filter fun r => keep r.key).map fun r =>
          (group Element.window (run fl events).elements r.key).length).sum
        ≤ readIn keep (run fl events).elements := sum_windows_le hnodup
    have hle : ((recon.filter fun r => keep r.key).map fun r =>
          ((group StgTrade.window staged r.key).length : Int)
            - (group Element.window (run fl events).elements
              r.key).length).sum
        ≤ netDiff keep recon :=
      List.sum_le_sum fun r hr => (hdiff r (List.mem_filter.mp hr).1).1
    rw [sum_sub_counts, sum_windows hnodup hstagedRow] at hle
    unfold stagedIn
    omega
  · have heq : (recon.filter fun r => keep r.key).map
          ReconRow.tradeCountDiff
        = (recon.filter fun r => keep r.key).map fun r =>
          ((group StgTrade.window staged r.key).length : Int)
            - (group Element.window (run fl events).elements
              r.key).length :=
      List.map_congr_left fun r hr =>
        (hdiff r (List.mem_filter.mp hr).1).2 hdrained
    have hreadRow : ∀ e ∈ (run fl events).elements,
        ∃ r ∈ recon, r.key = e.window := fun e he =>
      (hrows _).mpr (Or.inl (hread hdrained e he))
    rw [netDiff, heq, sum_sub_counts, sum_windows hnodup hstagedRow,
      sum_windows hnodup hreadRow]
    rfl

/-- Over any run of the job, whatever it read of the topic and in
whatever order, whatever was late and however often windows fired: the
reconciliation has a row for each window that either side has a bar of,
once, and over any windows its differences come to no less than the
trades staged there less the elements of the job, and to exactly that
once the job has drained.

Both facts about the rows come from the join; the rest is one row's
difference, added up over the windows (`balances_of_rows`). -/
theorem recon_balances (fl : Floats F) (E : Engine)
    (h : Seen vars now messages rows staged bars)
    (events : List JobEvent) :
    Balances fl staged bars events
      (fctStreamBatchRecon E ((run fl events).written fl) bars) := by
  refine balances_of_rows (fun w => exists_reconRow_iff)
    (nodup_reconKeys h.nodup_bars) ?_ ?_ ?_
  · intro st hst
    exact mem_groups.mp (h.mem_groups_bars.mpr ⟨st, hst, rfl⟩)
  · intro hdrained e he
    by_contra hw
    have hfinal : e.window ∉ groups StreamBar.key
        (streamingFinal E ((run fl events).written fl)) := by
      intro hmem
      obtain ⟨s, hs, hkey⟩ := mem_groups.mp hmem
      exact hw ⟨s, (of_mem_firstBy hs).1, hkey⟩
    have hmem : e ∈ group Element.window (run fl events).elements
        e.window := mem_group.mpr ⟨he, rfl⟩
    rw [group_eq_nil_of_drained hdrained hfinal] at hmem
    cases hmem
  · exact fun r hr => tradeCountDiff_bounds E h hr

/-- A reconnect between two trades, drained. -/
theorem recon_balances_reconnect :
    Balances doubles (stagedOf reconnectTrades) (barsOf reconnectTrades)
      (drain doubles reconnectTrades)
      (fctStreamBatchRecon Engine.inOrder
        ((run doubles (drain doubles reconnectTrades)).written doubles)
        (barsOf reconnectTrades)) :=
  recon_balances doubles Engine.inOrder (seen_barsOf (by decide +kernel)) _

example : netDiff (fun _ => true) (fctStreamBatchRecon Engine.inOrder
    ((run doubles (drain doubles reconnectTrades)).written doubles)
    (barsOf reconnectTrades)) = -1 := by decide +kernel

end Balance

end MarketPlatform.Warehouse
