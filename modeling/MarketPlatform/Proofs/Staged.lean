/-
What the staging views hold.

The staging models of the l2 events and the heartbeats are views: they
are computed from the raw tables when they are read, and one row whose
cast fails makes the whole query fail. The lemmas here read a view from
both ends. A view that does not fail holds the rows of the raw rows
inside the window, one raw row at a time; and it does not fail exactly
when every raw row in the window can be cast.

A row of `raw.l2_events` is unnested: a snapshot gives one row for each
level of either side, an l2update one for each change. What all of them
keep of their raw row, the product, the event type and the two times, is
in `of_mem_row`. What a raw row is staged as does not depend on its
partition, so the rows can be compared with the messages they were
published as (`RawL2.message`).
-/
import MarketPlatform.Warehouse.Build

namespace MarketPlatform.Warehouse

open Lib Lib.Rfc3339 Lib.Relation

-- ========================================================== stg_l2_events

/-- A raw row as it was published, before it has a partition. -/
def RawL2.message (r : RawL2) : RawL2 := { r with partitionTime := none }

theorem stgL2Row_message (r : RawL2) : stgL2Row r.message = stgL2Row r := rfl

variable {vars : Vars} {now : Int}

/-- The view, when every raw row is inside the window. -/
theorem stgL2Events_eq_some_iff {rows : List RawL2}
    (hwindow : ∀ r ∈ rows, rawPartitionFilter vars now r.partitionTime)
    {es : List StgL2Event} :
    stgL2Events vars now rows = some es
      ↔ (∀ r ∈ rows, (stgL2Row r).isSome)
        ∧ (rows.filterMap stgL2Row).flatten = es := by
  rw [stgL2Events, List.filter_eq_self.mpr hwindow]
  exact map_mapM_eq_some_iff

/-- The view shows the levels of the rows inside the window. -/
theorem mem_stgL2Events {rows : List RawL2} {es : List StgL2Event}
    (h : stgL2Events vars now rows = some es) {e : StgL2Event} :
    e ∈ es ↔ ∃ r ∈ rows, rawPartitionFilter vars now r.partitionTime = true
      ∧ ∃ ls, stgL2Row r = some ls ∧ e ∈ ls := by
  obtain ⟨lists, hlists, rfl⟩ := Option.map_eq_some_iff.mp h
  obtain ⟨-, rfl⟩ := mapM_eq_some_iff.mp hlists
  simp only [List.mem_flatten, List.mem_filterMap, List.mem_filter]
  constructor
  · intro hx
    obtain ⟨ls, ⟨r, ⟨hr, hwindow⟩, hls⟩, he⟩ := hx
    exact ⟨r, hr, hwindow, ls, hls, he⟩
  · intro hx
    obtain ⟨r, hr, hwindow, ls, hls, he⟩ := hx
    exact ⟨ls, ⟨r, ⟨hr, hwindow⟩, hls⟩, he⟩

theorem stgL2Row_of_stgL2Events {rows : List RawL2} {es : List StgL2Event}
    (h : stgL2Events vars now rows = some es) {r : RawL2} (hr : r ∈ rows)
    (hwindow : rawPartitionFilter vars now r.partitionTime = true) :
    ∃ ls, stgL2Row r = some ls := by
  obtain ⟨lists, hlists, -⟩ := Option.map_eq_some_iff.mp h
  exact Option.isSome_iff_exists.mp ((mapM_eq_some_iff.mp hlists).1 r
    (List.mem_filter.mpr ⟨hr, hwindow⟩))

/-- What a level keeps of its raw row. -/
theorem of_l2Level {r : RawL2} {side price size : Option String}
    {i : Nat} {e : StgL2Event}
    (h : l2Level r side price size i = some e) :
    e.productId = r.productId ∧ e.eventType = r.eventType
      ∧ r.ingestTime.instant = some e.ingestTime
      ∧ r.eventTime.instant = some e.eventTime := by
  simp only [l2Level, Option.bind_eq_bind, Option.bind_eq_some_iff,
    Option.pure_def, Option.some.injEq] at h
  obtain ⟨_, -, _, -, t, ht, u, hu, rfl⟩ := h
  exact ⟨rfl, rfl, hu, ht⟩

/-- Every row of `stg_l2_events` is a level of some raw row. -/
theorem of_mem_stgL2Row {r : RawL2} {ls : List StgL2Event}
    (h : stgL2Row r = some ls) {e : StgL2Event} (he : e ∈ ls) :
    ∃ side price size i, l2Level r side price size i = some e := by
  simp only [stgL2Row, Option.bind_eq_bind, Option.bind_eq_some_iff,
    Option.pure_def, Option.some.injEq] at h
  obtain ⟨changes, hchanges, bids, hbids, asks, hasks, rfl⟩ := h
  have hlevels : ∀ side key out, snapshotLevels side key r = some out →
      e ∈ out → ∃ side price size i, l2Level r side price size i = some e := by
    intro side key out hout hmem
    unfold snapshotLevels at hout
    split at hout
    · obtain ⟨-, rfl⟩ := mapM_eq_some_iff.mp hout
      obtain ⟨level, -, hl⟩ := List.mem_filterMap.mp hmem
      exact ⟨_, _, _, _, hl⟩
    · obtain rfl := Option.some.inj hout
      cases hmem
  rcases List.mem_append.mp he with he | he
  · rcases List.mem_append.mp he with he | he
    · unfold flattened at hchanges
      split at hchanges
      · obtain ⟨-, rfl⟩ := mapM_eq_some_iff.mp hchanges
        obtain ⟨c, -, hl⟩ := List.mem_filterMap.mp he
        exact ⟨_, _, _, _, hl⟩
      · obtain rfl := Option.some.inj hchanges
        cases he
    · exact hlevels _ _ _ hbids he
  · exact hlevels _ _ _ hasks he

theorem of_mem_row {r : RawL2} {ls : List StgL2Event}
    (h : stgL2Row r = some ls) {e : StgL2Event} (he : e ∈ ls) :
    e.productId = r.productId ∧ e.eventType = r.eventType
      ∧ r.ingestTime.instant = some e.ingestTime
      ∧ r.eventTime.instant = some e.eventTime := by
  obtain ⟨side, price, size, i, hl⟩ := of_mem_stgL2Row h he
  exact of_l2Level hl

/-- A raw row of BTC-USD, received at a time. -/
def btcRow (eventType payload : String) (ms : Int) : RawL2 where
  productId := "BTC-USD"
  eventType := eventType
  payload := payload
  eventTime := .millis ms
  ingestTime := .millis ms

end MarketPlatform.Warehouse
