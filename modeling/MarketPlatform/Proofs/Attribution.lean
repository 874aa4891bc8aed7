/-
What the reasons of `fct_stream_batch_recon` rest on.

# Evidence

A reason is supported when the row and the two tables bear out what it
says (`Supported`): for a partial window or late data, that streaming
has fewer trades; for a defect, that batch is past the window; for
agreement, that the bars agree; for a window outside the run, that it
lies before the job's first or after its last. That batch is not yet
built needs no support beyond the frontier, by which it was chosen.

# What the `case` takes for granted

The reasons that a comparison of counts gives are always supported.
Three others say more than the `case` looks at: equal counts are called
agreement whatever the volumes and closes are, a minute that only batch
has is called outside the run also in the middle of it, and a window
that only streaming has is called broken also when batch has no bar of
the product to be ahead of. `Evident` says, of the two sides of a row,
that none of this is so, and `supported_iff` is by cases on which sides
there are (`supported_both`, `supported_streamOnly`,
`supported_batchOnly`).

# The frontier

`at_batch_frontier` is null for a product without batch bars, and a null
condition is not taken (`frontierAt_eq_none_iff`). Where it is there and
not true, the window is before the last one built, which is what the two
defects claim (`builtPast_of_frontierAt`).
-/
import MarketPlatform.Proofs.SameBar

namespace MarketPlatform.Warehouse

open Lib Lib.Rfc3339 Lib.Relation Streaming

variable {E : Engine} {panes : List StreamBar} {bars : List Bar}
  {k : String × Int} {s : Option StreamBar} {b : Option Bar}

-- ============================================================== evidence

/-- The minutes the job wrote of a product. -/
def runMinutes (panes : List StreamBar) (product : String) : List Int :=
  (group StreamBar.productId panes product).map StreamBar.barStart

/-- The minute is before the first streaming window of the product, or
after the last. -/
def OutsideRun (panes : List StreamBar) (k : String × Int) : Prop :=
  (∃ first, minOf (runMinutes panes k.1) = some first ∧ k.2 < first)
    ∨ ∃ last, maxOf (runMinutes panes k.1) = some last ∧ last < k.2

/-- Batch has built a later window of the product. -/
def BuiltPast (bars : List Bar) (k : String × Int) : Prop :=
  ∃ bar ∈ bars, bar.productId = k.1 ∧ k.2 < bar.barStart

/-- The evidence bears the reason out. -/
def Supported (panes : List StreamBar) (bars : List Bar) (r : ReconRow) :
    Prop :=
  match r.divergenceReason with
  | .agree => r.barsAgree = some true
  | .outsideRunWindow => OutsideRun panes r.key
  | .partialAtStartup | .partialAtShutdown | .lateDataDropped =>
      ∃ n ∈ r.streamTradeCount, ∃ m ∈ r.batchTradeCount, n < m
  | .missingFromBatch | .overCount => BuiltPast bars r.key
  | .batchNotYetBuilt => True

/-- What the `case` takes for granted about the two sides of a row. -/
def Evident (panes : List StreamBar) (bars : List Bar)
    (k : String × Int) : Option StreamBar → Option Bar → Prop
  | some s, some b => s.tradeCount = b.tradeCount →
      |s.volume - b.volume| < 1 / 10 ^ 8 ∧ b.closePrice = some s.closePrice
  | none, some _ => OutsideRun panes k
  | some _, none => ∃ bar ∈ bars, bar.productId = k.1
  | none, none => True

-- ============================================================== the case

section Reasons

variable {n m : Nat} {first last frontier : Option Bool}

/-- Streaming has fewer: one of the three reasons that say so. -/
theorem reason_of_lt (h : n < m) :
    divergenceReason true true (some n) (some m) first last frontier
      ∈ [.partialAtStartup, .partialAtShutdown, .lateDataDropped] := by
  have hless : less (some n) (some m) = true := decide_eq_true h
  unfold divergenceReason
  by_cases hfirst : first = some true
  · simp [hless, hfirst]
  · by_cases hlast : last = some true
    · simp [hless, hfirst, hlast]
    · simp [hless, hfirst, hlast]

/-- Streaming has more: batch is not yet built, or the count is over. -/
theorem reason_of_gt (h : m < n) :
    divergenceReason true true (some n) (some m) first last frontier
      = if frontier = some true then .batchNotYetBuilt else .overCount := by
  have hless : less (some n) (some m) = false := decide_eq_false h.not_gt
  have hmore : less (some m) (some n) = true := decide_eq_true h
  unfold divergenceReason
  by_cases hfrontier : frontier = some true
  · simp [hless, hmore, hfrontier]
  · simp [hless, hmore, hfrontier]

/-- Equal counts are called agreement. -/
theorem reason_of_eq :
    divergenceReason true true (some n) (some n) first last frontier
      = .agree := by
  have hless : less (some n) (some n) = false :=
    decide_eq_false (Nat.lt_irrefl n)
  unfold divergenceReason
  simp [hless]

/-- The reason of a window that only streaming has. -/
theorem reason_of_streamOnly :
    divergenceReason true false (some n) none first last frontier
      = if frontier = some true then .batchNotYetBuilt
        else .missingFromBatch := by
  unfold divergenceReason
  by_cases hfrontier : frontier = some true
  · simp [hfrontier]
  · simp [hfrontier]

end Reasons

/-- `at_batch_frontier`: it does not look at the two bars of the row. -/
def frontierAt (bars : List Bar) (k : String × Int) : Option Bool :=
  (reconRow [] [] (batchFrontier bars) k none none).atBatchFrontier

/-- The frontier is null for a product without batch bars. -/
theorem frontierAt_eq_none_iff :
    frontierAt bars k = none ↔ ∀ bar ∈ bars, bar.productId ≠ k.1 := by
  have hkey : ∀ (p : String) (rows : List Bar), BatchFrontier.productId
      ⟨p, maxOf (rows.map Bar.barStart)⟩ = p := fun _ _ => rfl
  show (((batchFrontier bars).find? fun f => f.productId = k.1).bind
    BatchFrontier.latestBuiltWindow).map (fun t => decide (t ≤ k.2))
      = none ↔ _
  by_cases hp : k.1 ∈ groups Bar.productId bars
  · obtain ⟨bar, hbar, hproduct⟩ := mem_groups.mp hp
    have hmem : bar.barStart
        ∈ (group Bar.productId bars k.1).map Bar.barStart :=
      List.mem_map_of_mem (mem_group.mpr ⟨hbar, hproduct⟩)
    obtain ⟨t, hmax⟩ := exists_maxOf hmem
    rw [batchFrontier, find?_groupBy hkey hp, Option.bind_some, hmax]
    exact iff_of_false (Option.some_ne_none _) fun h => h bar hbar hproduct
  · rw [batchFrontier, find?_groupBy_eq_none hkey hp]
    exact iff_of_true rfl fun bar hbar hproduct =>
      hp (mem_groups.mpr ⟨bar, hbar, hproduct⟩)

/-- Off the frontier a window is before it, when there is one. -/
theorem builtPast_of_frontierAt (hsome : ∃ bar ∈ bars, bar.productId = k.1)
    (hnot : frontierAt bars k ≠ some true) : BuiltPast bars k := by
  have hfalse : frontierAt bars k = some false := by
    cases hfrontier : frontierAt bars k with
    | none =>
        obtain ⟨bar, hbar, hproduct⟩ := hsome
        exact absurd hproduct (frontierAt_eq_none_iff.mp hfrontier bar hbar)
    | some p =>
        cases p with
        | false => rfl
        | true => exact absurd hfrontier hnot
  unfold frontierAt at hfalse
  exact atBatchFrontier_iff.mp hfalse

/-- A conjunction is true when both sides are. -/
theorem both_eq_true_iff {p q : Option Bool} :
    both p q = some true ↔ p = some true ∧ q = some true := by
  cases p with
  | none => cases q with
    | none => decide
    | some q => cases q <;> decide
  | some p => cases p with
    | false => simp [both]
    | true => cases q with
      | none => decide
      | some q => cases q <;> decide

/-- A comparison is true when there is the same value on the other
side. -/
theorem equal_eq_true_iff {α : Type} [DecidableEq α] {a : α}
    {o : Option α} : equal (some a) o = some true ↔ o = some a := by
  cases o with
  | none => simp [equal]
  | some c =>
      show some (decide (a = c)) = some true ↔ _
      rw [Option.some_inj, decide_eq_true_iff, Option.some_inj, eq_comm]

/-- `bars_agree`, of a window that both sides have. -/
theorem barsAgree_iff {activity : List PaneActivity}
    {jobs : List JobBoundaries} {frontiers : List BatchFrontier}
    {s : StreamBar} {b : Bar} (h : s.tradeCount = b.tradeCount)
    {r : ReconRow}
    (hr : reconRow activity jobs frontiers k (some s) (some b) = r) :
    r.barsAgree = some true
      ↔ |s.volume - b.volume| < 1 / 10 ^ 8
        ∧ b.closePrice = some s.closePrice := by
  rw [← hr]
  show both (both (equal (some s.tradeCount) (some b.tradeCount))
      (some (decide (|s.volume - b.volume| < 1 / 10 ^ 8))))
      (equal (some s.closePrice) b.closePrice) = some true ↔ _
  rw [both_eq_true_iff, both_eq_true_iff, equal_eq_true_iff,
    equal_eq_true_iff, Option.some_inj, Option.some_inj, decide_eq_true_iff]
  exact ⟨fun hx => ⟨hx.1.2, hx.2⟩, fun hx => ⟨⟨h.symm, hx.1⟩, hx.2⟩⟩

-- =============================================================== the rows

section Rows

variable {activity : List PaneActivity} {jobs : List JobBoundaries}

/-- A window that both sides have: by cases on the counts. If streaming
has fewer, the label compares the counts itself and is supported; if
they are equal, the label says that the bars agree; if it has more, the
label depends on the frontier. -/
theorem supported_both {s : StreamBar} {b : Bar} (hb : b ∈ bars)
    (hkey : b.key = k) :
    Supported panes bars
        (reconRow activity jobs (batchFrontier bars) k (some s) (some b))
      ↔ Evident panes bars k (some s) (some b) := by
  have hpast : frontierAt bars k ≠ some true → BuiltPast bars k :=
    builtPast_of_frontierAt ⟨b, hb, congrArg Prod.fst hkey⟩
  generalize hr : reconRow activity jobs (batchFrontier bars) k (some s)
    (some b) = r
  have hreason : r.divergenceReason = divergenceReason true true
      (some s.tradeCount) (some b.tradeCount) r.isFirstWindow
      r.isLastWindow (frontierAt bars k) := by
    rw [← hr]
    rfl
  have hcolumns : r.streamTradeCount = some s.tradeCount
      ∧ r.batchTradeCount = some b.tradeCount ∧ r.key = k := by
    rw [← hr]
    exact ⟨rfl, rfl, rfl⟩
  obtain ⟨hstream, hbatch, hrk⟩ := hcolumns
  unfold Supported Evident
  rcases lt_trichotomy s.tradeCount b.tradeCount with hlt | heq | hgt
  · -- fewer: the evidence is the comparison itself
    have hfewer : ∃ n ∈ r.streamTradeCount, ∃ m ∈ r.batchTradeCount,
        n < m := ⟨_, hstream, _, hbatch, hlt⟩
    have hmem : r.divergenceReason
        ∈ [.partialAtStartup, .partialAtShutdown, .lateDataDropped] := by
      rw [hreason]
      exact reason_of_lt hlt
    refine iff_of_true ?_ fun heq => absurd heq hlt.ne
    simp only [List.mem_cons, List.not_mem_nil, or_false] at hmem
    rcases hmem with h | h | h
    · rw [h]
      exact hfewer
    · rw [h]
      exact hfewer
    · rw [h]
      exact hfewer
  · have hagree := barsAgree_iff heq hr
    rw [hreason, heq, reason_of_eq]
    exact hagree.trans ⟨fun h _ => h, fun h => h heq⟩
  · refine iff_of_true ?_ fun heq => absurd heq hgt.ne'
    rw [hreason, reason_of_gt hgt]
    by_cases hfrontier : frontierAt bars k = some true
    · rw [if_pos hfrontier]
      trivial
    · rw [if_neg hfrontier, hrk]
      exact hpast hfrontier

/-- A window that only streaming has: by cases on the frontier. With the
frontier past it, the label needs no more than that; otherwise it says
that batch has built past the window, which a bar of the product
shows. -/
theorem supported_streamOnly {s : StreamBar} :
    Supported panes bars
        (reconRow activity jobs (batchFrontier bars) k (some s) none)
      ↔ Evident panes bars k (some s) none := by
  generalize hr : reconRow activity jobs (batchFrontier bars) k (some s)
    none = r
  have hreason : r.divergenceReason = divergenceReason true false
      (some s.tradeCount) none r.isFirstWindow r.isLastWindow
      (frontierAt bars k) := by
    rw [← hr]
    rfl
  have hrk : r.key = k := by
    rw [← hr]
    rfl
  unfold Supported Evident
  rw [hreason, reason_of_streamOnly]
  by_cases hfrontier : frontierAt bars k = some true
  · rw [if_pos hfrontier]
    refine iff_of_true trivial ?_
    by_contra hnone
    rw [frontierAt_eq_none_iff.mpr fun bar hbar hproduct =>
      hnone ⟨bar, hbar, hproduct⟩] at hfrontier
    cases hfrontier
  · rw [if_neg hfrontier, hrk]
    constructor
    · intro h
      obtain ⟨bar, hbar, hproduct, -⟩ := h
      exact ⟨bar, hbar, hproduct⟩
    · exact fun h => builtPast_of_frontierAt h hfrontier

/-- A window that only batch has is called outside of the run, in any
case. -/
theorem supported_batchOnly {b : Bar} :
    Supported panes bars
        (reconRow activity jobs (batchFrontier bars) k none (some b))
      ↔ Evident panes bars k none (some b) :=
  Iff.rfl

end Rows

/-- The two sides of a row: the final streaming bar of its window and its
batch bar, of which one may be missing. -/
structure Sides (E : Engine) (panes : List StreamBar) (bars : List Bar)
    (r : ReconRow) (s : Option StreamBar) (b : Option Bar) : Prop where
  stream : RowAt StreamBar.key (streamingFinal E panes) r.key s
  batch : RowAt Bar.key bars r.key b
  row : reconRow (paneActivity panes)
    (jobBoundaries (streamingFinal E panes)) (batchFrontier bars) r.key s b
      = r

/-- The reason of a row is supported if and only if its two sides are as
the `case` takes for granted. A row of the join has one side at least;
of each kind of row the lemmas above say what its reason can be. -/
theorem supported_iff (E : Engine) (panes : List StreamBar)
    (bars : List Bar) {r : ReconRow}
    (hr : r ∈ fctStreamBatchRecon E panes bars) :
    ∃ s b, Sides E panes bars r s b
      ∧ (Supported panes bars r ↔ Evident panes bars r.key s b) := by
  obtain ⟨k, s, b, hsome, hs, hb, rfl⟩ := mem_fctStreamBatchRecon.mp hr
  refine ⟨s, b, ⟨hs, hb, rfl⟩, ?_⟩
  cases s with
  | none =>
      cases b with
      | none => simp at hsome
      | some b => exact supported_batchOnly
  | some s =>
      cases b with
      | none => exact supported_streamOnly
      | some b => exact supported_both hb.1 hb.2

-- ============================================================== two runs

/-- A job that read the first trade twice and missed the second, was
given none of the next minute, and saw a product that batch does not
have. -/
def patchyPanes : List (Pane ℚ) :=
  [⟨("BTC-USD", 0), 0, true,
      [btcFct 1 1 100 1, btcFct 1 1 100 1].map FctTrade.element, 0⟩,
    ⟨("BTC-USD", 2 * minute), 0, true,
      [btcFct 4 121 100 1].map FctTrade.element, 0⟩,
    ⟨("SOL-USD", 0), 0, true,
      [{ (btcFct 5 1 20 1).element with productId := "SOL-USD" }], 0⟩]

/-- What the job writes of these panes. -/
def patchyStream : List StreamBar :=
  patchyPanes.filterMap (BuildBar.process exactly)

/-- The batch bars of three minutes of the one product. -/
def threeMinutes : List Bar :=
  fctBars1m Engine.inOrder [btcFct 1 1 100 1, btcFct 2 2 101 1,
    btcFct 3 61 100 1, btcFct 4 121 100 1]

/-- A minute between two streaming windows is not outside the run. -/
theorem not_outsideRun_of_between (first last : Int)
    (hfirst : minOf (runMinutes panes k.1) = some first)
    (hlast : maxOf (runMinutes panes k.1) = some last)
    (hle : first ≤ k.2) (hge : k.2 ≤ last) : ¬ OutsideRun panes k := by
  intro h
  rcases h with ⟨t, ht, hlt⟩ | ⟨t, ht, hlt⟩
  · rw [hfirst, Option.some_inj] at ht
    omega
  · rw [hlast, Option.some_inj] at ht
    omega

/-- Unequal closes are called agreement, a minute in the middle of the run
is called outside of it, and a product that batch has not built is called
broken. -/
theorem three_reasons_without_evidence :
    (fctStreamBatchRecon Engine.inOrder patchyStream threeMinutes).map
        (fun r => (r.key, r.divergenceReason, r.barsAgree,
          r.atBatchFrontier))
        = [(("BTC-USD", 0), .agree, some false, some false),
          (("BTC-USD", 2 * minute), .agree, some true, some true),
          (("SOL-USD", 0), .missingFromBatch, some false, none),
          (("BTC-USD", minute), .outsideRunWindow, some false, some false)]
      ∧ ∀ reason ∈ [Divergence.agree, .outsideRunWindow, .missingFromBatch],
        ∃ r ∈ fctStreamBatchRecon Engine.inOrder patchyStream threeMinutes,
          r.divergenceReason = reason
            ∧ ¬ Supported patchyStream threeMinutes r := by
  have hagree : ∃ r ∈ fctStreamBatchRecon Engine.inOrder patchyStream
      threeMinutes, r.divergenceReason = .agree
        ∧ r.barsAgree ≠ some true := by decide +kernel
  have houtside : ∃ r ∈ fctStreamBatchRecon Engine.inOrder patchyStream
      threeMinutes, r.divergenceReason = .outsideRunWindow
        ∧ r.key = ("BTC-USD", minute) := by decide +kernel
  have hmissing : ∃ r ∈ fctStreamBatchRecon Engine.inOrder patchyStream
      threeMinutes, r.divergenceReason = .missingFromBatch
        ∧ r.key = ("SOL-USD", 0) := by decide +kernel
  refine ⟨by decide +kernel, fun reason hreason => ?_⟩
  simp only [List.mem_cons, List.not_mem_nil, or_false] at hreason
  rcases hreason with rfl | rfl | rfl
  · obtain ⟨r, hr, hreason, hbars⟩ := hagree
    refine ⟨r, hr, hreason, fun h => ?_⟩
    unfold Supported at h
    rw [hreason] at h
    exact hbars h
  · obtain ⟨r, hr, hreason, hkey⟩ := houtside
    refine ⟨r, hr, hreason, fun h => ?_⟩
    unfold Supported at h
    rw [hreason, hkey] at h
    exact not_outsideRun_of_between 0 (2 * minute)
      (by decide +kernel) (by decide +kernel) (by decide) (by decide) h
  · obtain ⟨r, hr, hreason, hkey⟩ := hmissing
    refine ⟨r, hr, hreason, fun h => ?_⟩
    unfold Supported at h
    rw [hreason, hkey] at h
    obtain ⟨bar, hbar, hproduct, -⟩ := h
    have hnone : ∀ bar ∈ threeMinutes, bar.productId ≠ "SOL-USD" := by
      decide +kernel
    exact hnone bar hbar hproduct

/-- The last minute of the run is called agreement, and its two bars
agree. -/
theorem supported_iff_last_minute :
    ∃ r ∈ fctStreamBatchRecon Engine.inOrder patchyStream threeMinutes,
      r.key = ("BTC-USD", 2 * minute) ∧ r.divergenceReason = .agree
        ∧ ∃ s b, Sides Engine.inOrder patchyStream threeMinutes r s b
          ∧ Evident patchyStream threeMinutes r.key s b := by
  have hrow : ∃ r ∈ fctStreamBatchRecon Engine.inOrder patchyStream
      threeMinutes, r.key = ("BTC-USD", 2 * minute)
        ∧ r.divergenceReason = .agree ∧ r.barsAgree = some true := by
    decide +kernel
  obtain ⟨r, hr, hkey, hreason, hbars⟩ := hrow
  obtain ⟨s, b, hsides, hiff⟩ := supported_iff Engine.inOrder _ _ hr
  refine ⟨r, hr, hkey, hreason, s, b, hsides, hiff.mp ?_⟩
  unfold Supported
  rw [hreason]
  exact hbars

end MarketPlatform.Warehouse
