/-
What lateness costs: a streaming bar against the batch bar of its window.

Suppose every message of a window is a trade that the batch counts in it,
once, that no size of the window is negative and that staging rounded
none of its numbers (`Clean`). Then lateness only narrows.

# The elements

Whatever is late and whenever the window fires, the elements the job has
of the window are some of the batch's trades, each once
(`elements_subperm`): an element comes from a message, the message from a
row, and the row is counted in this window.

# The bars

So every bar the job ever writes lies inside the batch bar
(`within_of_subperm`). For the volume this takes the sizes: with a
negative one among the late trades, what is left adds up to more than the
whole. A bar that counts as many trades has them all, and shows the same
bar (`sameColumns`), since the trade ids of a window are distinct and so
settle which trade is first and which last.

# The verdict

In such a window `divergence_reason` says `agree` exactly when
`bars_agree` is true, which the `case` of the model does not check: it
compares the two counts only (`lateness_narrows`).
-/
import MarketPlatform.Proofs.Attribution
import MarketPlatform.Proofs.Restated

namespace MarketPlatform.Warehouse

open Lib Lib.Numeral Lib.Rfc3339 Lib.Relation Consumer Streaming

-- ========================================================== the two bars

/-- A streaming bar lies inside a batch bar. -/
structure Within (s : StreamBar) (b : Bar) : Prop where
  key : s.key = b.key
  barEnd : s.barEnd = b.barEnd
  low : ∃ low ∈ b.low, low ≤ s.low
  high : ∃ high ∈ b.high, s.high ≤ high
  volume : s.volume ≤ b.volume
  tradeCount : s.tradeCount ≤ b.tradeCount
  firstTradeId : ∃ first ∈ b.firstTradeId, first ≤ s.firstTradeId
  lastTradeId : ∃ last ∈ b.lastTradeId, s.lastTradeId ≤ last

/-- The two bars show the same trades, but for the quotient. -/
structure SameColumns (s : StreamBar) (b : Bar) : Prop where
  openPrice : b.openPrice = some s.openPrice
  high : b.high = some s.high
  low : b.low = some s.low
  closePrice : b.closePrice = some s.closePrice
  volume : b.volume = s.volume
  firstTradeId : b.firstTradeId = some s.firstTradeId
  lastTradeId : b.lastTradeId = some s.lastTradeId

section Bars

variable {E : Engine} {w : String × Int} {trades : List FctTrade}
  {pane : Pane ℚ} {s : StreamBar}

/-- Some of a minute's trades give a bar inside that of them all:
extremes and ids of fewer trades are less extreme, and a sum of fewer
sizes is no greater, since no size of the window is negative. -/
theorem within_of_subperm (hpane : pane.window = w)
    (hsub : pane.trades.Subperm (trades.map FctTrade.element))
    (hpos : ∀ t ∈ trades, 0 ≤ t.size)
    (hs : BuildBar.process exactly pane = some s) :
    Within s (barOf E w trades) := by
  have hshows := shows_of_process hs
  have hmem : ∀ e ∈ pane.trades, ∃ t ∈ trades, t.element = e :=
    fun e he => List.mem_map.mp (hsub.subset he)
  have hprice : ∀ x ∈ pane.ordered.map Element.price,
      x ∈ trades.map FctTrade.price := by
    intro x hx
    obtain ⟨e, he, rfl⟩ := List.mem_map.mp hx
    obtain ⟨t, ht, rfl⟩ := hmem e (mem_ordered.mp he)
    exact List.mem_map_of_mem ht
  have hid : ∀ e ∈ pane.trades, e.tradeId ∈ trades.map FctTrade.tradeId := by
    intro e he
    obtain ⟨t, ht, rfl⟩ := hmem e he
    exact List.mem_map_of_mem ht
  have hne : pane.ordered.map Element.price ≠ [] := by
    obtain ⟨e, he, -⟩ := hshows.first
    exact List.ne_nil_of_mem (List.mem_map_of_mem (mem_ordered.mpr he))
  refine ⟨?_, ?_, ?_, ?_, ?_, ?_, ?_, ?_⟩
  · rw [(of_process hs).1, hpane]
    rfl
  · rw [hshows.barEnd, hpane]
    rfl
  · have hmin := hprice _ (ordered_exactly.min_mem hne)
    obtain ⟨low, hlow⟩ := exists_minOf hmin
    rw [hshows.low]
    exact ⟨low, hlow, (minOf_eq_some_iff.mp hlow).2 _ hmin⟩
  · have hmax := hprice _ (ordered_exactly.max_mem hne)
    obtain ⟨high, hhigh⟩ := exists_maxOf hmax
    rw [hshows.high]
    exact ⟨high, hhigh, (maxOf_eq_some_iff.mp hhigh).2 _ hmax⟩
  · obtain ⟨some, hperm, hsome⟩ := hsub
    have hsizes : (pane.ordered.map Element.size).Perm
        (some.map Element.size) :=
      ((List.perm_insertionSort _ _).trans hperm.symm).map _
    rw [hshows.volume]
    show (pane.ordered.map Element.size).sum ≤ (trades.map FctTrade.size).sum
    rw [hsizes.sum_eq]
    have hle := hsome.map Element.size
    rw [List.map_map] at hle
    refine hle.sum_le_sum fun x hx => ?_
    obtain ⟨t, ht, rfl⟩ := List.mem_map.mp hx
    exact hpos t ht
  · rw [(of_process hs).2.2]
    have hle := hsub.length_le
    rwa [List.length_map] at hle
  · obtain ⟨e, he, heq, -⟩ := hshows.first
    obtain ⟨first, hfirst⟩ := exists_minOf (hid e he)
    rw [← heq]
    exact ⟨first, hfirst, (minOf_eq_some_iff.mp hfirst).2 _ (hid e he)⟩
  · obtain ⟨e, he, heq, -⟩ := hshows.last
    obtain ⟨last, hlast⟩ := exists_maxOf (hid e he)
    rw [← heq]
    exact ⟨last, hlast, (maxOf_eq_some_iff.mp hlast).2 _ (hid e he)⟩

/-- All of a minute's trades give its bar. The pane's ordered elements
are a permutation of the trades, its first and last are the trades that
the two row numbers select, and sums and extremes do not see an
order. -/
theorem sameColumns (hids : (trades.map FctTrade.tradeId).Nodup)
    (hperm : pane.trades.Perm (trades.map FctTrade.element))
    (hs : BuildBar.process exactly pane = some s) :
    SameColumns s (barOf E w trades) := by
  have hshows := shows_of_process hs
  have hordered : pane.ordered.Perm (trades.map FctTrade.element) :=
    (List.perm_insertionSort _ _).trans hperm
  have hmap : ∀ {τ : Type} (f : Element ℚ → τ), (pane.ordered.map f).Perm
      (trades.map fun t => f t.element) := by
    intro τ f
    have h := hordered.map f
    rwa [List.map_map] at h
  have hmem : ∀ e ∈ pane.trades, ∃ t ∈ trades, t.element = e :=
    fun e he => List.mem_map.mp (hperm.mem_iff.mp he)
  have hback : ∀ t ∈ trades, t.element ∈ pane.trades := fun t ht =>
    hperm.mem_iff.mpr (List.mem_map_of_mem ht)
  have hinj := fun (t : FctTrade) (ht : t ∈ trades) (u : FctTrade)
    (hu : u ∈ trades) => List.inj_on_of_nodup_map hids ht hu
  obtain ⟨e, he, hid, hopen⟩ := hshows.first
  obtain ⟨f, hf, hid', hclose⟩ := hshows.last
  obtain ⟨t, ht, rfl⟩ := hmem e he
  obtain ⟨u, hu, rfl⟩ := hmem f hf
  have hfirst : E.first FctTrade.tradeId trades = some t := by
    refine first_eq_some hinj ht fun a ha => ?_
    have hleast := hshows.least _ (hback a ha)
    rwa [← hid] at hleast
  have hlast : E.last FctTrade.tradeId trades = some u := by
    refine last_eq_some hinj hu fun z hz => ?_
    have hgreatest := hshows.greatest _ (hback z hz)
    rwa [← hid'] at hgreatest
  have hprice : t.price ∈ trades.map FctTrade.price := List.mem_map_of_mem ht
  obtain ⟨high, hhigh⟩ := exists_maxOf hprice
  obtain ⟨low, hlow⟩ := exists_minOf hprice
  refine ⟨?_, ?_, ?_, ?_, ?_, ?_, ?_⟩
  · show (E.first FctTrade.tradeId trades).map FctTrade.price = _
    rw [hfirst, ← hopen]
    rfl
  · have hmax := maxOf_congr fun x => (hmap Element.price).mem_iff (a := x)
    show maxOf (trades.map FctTrade.price) = some s.high
    rw [hshows.high]
    show _ = some ((maxOf (pane.ordered.map Element.price)).getD 0)
    rw [hmax]
    exact hhigh.trans (congrArg (fun o => some (Option.getD o 0)) hhigh).symm
  · have hmin := minOf_congr fun x => (hmap Element.price).mem_iff (a := x)
    show minOf (trades.map FctTrade.price) = some s.low
    rw [hshows.low]
    show _ = some ((minOf (pane.ordered.map Element.price)).getD 0)
    rw [hmin]
    exact hlow.trans (congrArg (fun o => some (Option.getD o 0)) hlow).symm
  · show (E.last FctTrade.tradeId trades).map FctTrade.price = _
    rw [hlast, ← hclose]
    rfl
  · rw [hshows.volume]
    exact (hmap Element.size).sum_eq.symm
  · refine (minOf_map (E := E)).trans ?_
    rw [hfirst, ← hid]
    rfl
  · refine (maxOf_map (E := E)).trans ?_
    rw [hlast, ← hid']
    rfl

end Bars

-- ==================================================== what the job has read

/-- Staging rounded neither number. -/
structure NumbersKept (r : RawTrade) (st : StgTrade) : Prop where
  price : parse (strip r.price.toList) = some st.price
  size : parse (strip r.size.toList) = some st.size

section Read

variable {vars : Vars} {now : Int} {messages : List Trade}
  {rows : List RawTrade} {staged : List StgTrade} {bars : List Bar}
  {events : List JobEvent} {w : String × Int}

/-- What the job makes of the message of a staged trade. -/
theorem parseTrade_of_numbersKept {r : RawTrade} {st : StgTrade}
    (hst : derived r = some st) (hkept : NumbersKept r st) {m : Trade}
    (hm : r.Holds m) :
    ParseTrade.process exactly m = .ok (FctTrade.ofStaged st).element := by
  obtain ⟨-, hproduct, hid, hprice, hsize, -, -, -, htime, -⟩ :=
    RawTrade.mk.inj hm
  simp only [derived, Option.bind_eq_bind, Option.bind_eq_some_iff,
    Option.pure_def, Option.some.injEq] at hst
  obtain ⟨price, hp, size, hs, t, ht, _, _, _, _, rfl⟩ := hst
  unfold ParseTrade.process pyFloat
  rw [← htime, timestampOf_of_instant ht, ← hprice, ← hsize,
    isFloat_of_castNumeric hp, isFloat_of_castNumeric hs, ← hproduct, ← hid]
  show Except.ok _ = Except.ok _
  simp only [exactly, hkept.price, hkept.size, Option.getD_some]
  rfl

/-- A window of trades that the batch counts once, staged as they are and
none of a negative size. -/
structure Clean (vars : Vars) (messages : List Trade)
    (rows : List RawTrade) (staged : List StgTrade) (w : String × Int) :
    Prop where
  tracked : w.1 ∈ vars.trackedProducts
  once : CountedOnce exactly vars messages staged w
  kept : ∀ r ∈ rows, ∀ st, derived r = some st → st.window = w →
    NumbersKept r st
  /-- A negative size that is late leaves a volume above the batch's. -/
  size : ∀ st ∈ staged, st.window = w → 0 ≤ st.size

/-- The trades of a window in `fct_trades`. -/
def windowTrades (staged : List StgTrade) (w : String × Int) :
    List FctTrade :=
  group FctTrade.barKey (fctTrades staged) w

theorem windowTrades_eq : windowTrades staged w
    = (group StgTrade.window staged w).map FctTrade.ofStaged :=
  List.filter_map

theorem ids_windowTrades :
    (windowTrades staged w).map FctTrade.tradeId = stagedIds w staged := by
  rw [windowTrades_eq, List.map_map]
  rfl

/-- An element of the window is a trade of it. Its message landed as a
raw row, of whose trade one copy is staged in the same minute; the
window has one message of the trade, so the copy is of this message. -/
theorem exists_windowTrade (h : Seen vars now messages rows staged bars)
    (hw : Clean vars messages rows staged w) {m : Trade} (hm : m ∈ messages)
    (hwindow : windowOf exactly m = some w) {e : Element ℚ}
    (he : ParseTrade.process exactly m = .ok e) :
    ∃ t ∈ windowTrades staged w, t.element = e := by
  have htracked : m.productId ∈ vars.trackedProducts := by
    rw [productId_of_windowOf hwindow]
    exact hw.tracked
  obtain ⟨st, hst, hkey⟩ :=
    h.exists_staged hm htracked (hw.once.genuine m hm hwindow)
  have hsame := hw.once.sameMinute m hm hwindow st hst hkey
  obtain ⟨r, hr, hderived, hproduct, hid, -, -⟩ := h.exists_row hst
  obtain ⟨m', hm', hholds⟩ := h.published r hr
  have hparse := parseTrade_of_numbersKept hderived
    (hw.kept r hr st hderived hsame) hholds
  -- the window has one message of the trade
  obtain ⟨-, hp, hi, hprice, hsize, -, -, -, htime, -⟩ :=
    RawTrade.mk.inj hholds
  have hm'w : windowOf exactly m' = some w := by
    rw [windowOf_of_derived hderived hprice.symm hsize.symm htime.symm,
      ← hsame, StgTrade.window, hproduct, hp]
  have hm'id : m'.tradeId = m.tradeId := by
    rw [← hi, ← hid]
    exact congrArg Prod.fst hkey
  have heq : m' = m := List.inj_on_of_nodup_map hw.once.distinct
    (List.mem_filter.mpr ⟨hm', decide_eq_true hm'w⟩)
    (List.mem_filter.mpr ⟨hm, decide_eq_true hwindow⟩) hm'id
  rw [heq, he] at hparse
  refine ⟨FctTrade.ofStaged st, ?_, (Except.ok.inj hparse).symm⟩
  rw [windowTrades_eq]
  exact List.mem_map_of_mem (mem_group.mpr ⟨hst, hsame⟩)

/-- The elements of a window are some of its trades, each once. -/
theorem elements_subperm (h : Seen vars now messages rows staged bars)
    (hw : Clean vars messages rows staged w)
    (hread : (arrivals events).Subperm messages) :
    (group Element.window (run exactly events).elements w).Subperm
      ((windowTrades staged w).map FctTrade.element) := by
  have hsub : (kept events).Subperm messages :=
    (kept_sublist events).subperm.trans hread
  refine List.subperm_of_subset ?_ ?_
  · obtain ⟨ids, hperm, hids⟩ := idsOf_subperm hsub w
    have hids := hperm.nodup_iff.mp (hw.once.distinct.sublist hids)
    rw [← tradeIds_run] at hids
    exact hids.of_map
  · intro e he
    obtain ⟨he, hew⟩ := mem_group.mp he
    obtain ⟨m, hm, hprocess⟩ := exists_kept_of_mem he
    have hwindow : windowOf exactly m = some w := by
      rw [windowOf, hprocess, ← hew]
      rfl
    exact List.mem_map.mpr
      (exists_windowTrade h hw (hsub.subset hm) hwindow hprocess)

-- ============================================================= the batch

/-- The batch bar of a window is that of its trades. -/
theorem exists_barOf (h : Seen vars now messages rows staged bars) {b : Bar}
    (hb : b ∈ bars) : ∃ E, b = barOf E b.key (windowTrades staged b.key) := by
  obtain ⟨E, hperm⟩ := h.table
  obtain ⟨k, -, rfl⟩ := mem_groupBy.mp (hperm.mem_iff.mp hb)
  exact ⟨E, rfl⟩

theorem size_windowTrades (hw : Clean vars messages rows staged w) :
    ∀ t ∈ windowTrades staged w, 0 ≤ t.size := by
  intro t ht
  rw [windowTrades_eq] at ht
  obtain ⟨st, hst, rfl⟩ := List.mem_map.mp ht
  obtain ⟨hst, hwindow⟩ := mem_group.mp hst
  exact hw.size st hst hwindow

/-- A batch bar counts a trade. -/
theorem tradeCount_pos (h : Seen vars now messages rows staged bars)
    {b : Bar} (hb : b ∈ bars) : 0 < b.tradeCount := by
  obtain ⟨st, hst, hwindow⟩ := h.mem_groups_bars.mp
    (mem_groups.mpr ⟨b, hb, rfl⟩)
  rw [h.mem_bars hb]
  exact List.length_pos_of_mem (mem_stagedIds.mpr ⟨st, hst, hwindow, rfl⟩)

/-- Whatever the job writes of the window lies inside its batch bar, and
shows the same once it counts as many trades. The elements of the pane
are among the trades of the window, and as many of them are all of
them. -/
theorem exists_within (h : Seen vars now messages rows staged bars)
    (hw : Clean vars messages rows staged w)
    (hread : (arrivals events).Subperm messages) {s : StreamBar}
    (hs : s ∈ (run exactly events).written exactly) (hkey : s.key = w) :
    (∃ b ∈ bars, b.key = w)
      ∧ ∀ b ∈ bars, b.key = w → Within s b
        ∧ (s.tradeCount = b.tradeCount → SameColumns s b) := by
  obtain ⟨pane, hpane, hprocess⟩ := mem_written.mp hs
  have hwindow : pane.window = w := by rw [← (of_process hprocess).1, hkey]
  have hheld := (accumulates_run exactly events).held pane hpane
  rw [hwindow] at hheld
  have hsub := hheld.subperm.trans (elements_subperm h hw hread)
  constructor
  · obtain ⟨e, he, -⟩ := (shows_of_process hprocess).first
    obtain ⟨t, ht, -⟩ := List.mem_map.mp (hsub.subset he)
    rw [windowTrades_eq] at ht
    obtain ⟨st, hst, -⟩ := List.mem_map.mp ht
    obtain ⟨hst, hstw⟩ := mem_group.mp hst
    exact mem_groups.mp (h.mem_groups_bars.mpr ⟨st, hst, hstw⟩)
  · intro b hb hbw
    obtain ⟨E, hbar⟩ := exists_barOf h hb
    rw [hbw] at hbar
    rw [hbar]
    refine ⟨within_of_subperm hwindow hsub (size_windowTrades hw) hprocess,
      fun hcount => ?_⟩
    have hids : ((windowTrades staged w).map FctTrade.tradeId).Nodup := by
      rw [ids_windowTrades]
      exact nodup_stagedIds h.nodup w
    refine sameColumns hids (hsub.perm_of_length_le ?_) hprocess
    rw [List.length_map, ← (of_process hprocess).2.2, hcount]
    exact le_rfl

/-- Read whole and drained, the window has the batch's trades. -/
theorem length_ids_of_complete
    (h : Seen vars now messages rows staged bars)
    (hw : Clean vars messages rows staged w)
    (hperm : (arrivals events).Perm messages)
    (hlate : NoneLate exactly w events) :
    (idsOf exactly w (kept events)).length = (stagedIds w staged).length := by
  have hread := hperm.subperm
  apply le_antisymm
  · have hle := (elements_subperm h hw hread).length_le
    rwa [List.length_map, ← List.length_map FctTrade.tradeId,
      ids_windowTrades, ← List.length_map Element.tradeId, tradeIds_run]
      at hle
  · rw [idsOf_kept hlate, (idsOf_perm hperm w).length_eq]
    exact (List.subperm_of_subset (nodup_stagedIds h.nodup w)
      (stagedIds_subset h exactly w)).length_le

end Read

-- ==================================================== the reconciliation

/-- What the reconciliation shows of a window, whatever is late. -/
structure Narrowed (messages : List Trade) (events : List JobEvent)
    (bars : List Bar) (r : ReconRow) : Prop where
  inside : ∀ s ∈ (run exactly events).written exactly, s.key = r.key →
    ∃ b ∈ bars, b.key = r.key ∧ Within s b
  agree : r.divergenceReason = .agree ↔ r.barsAgree = some true
  complete : (arrivals events).Perm messages →
    Drained (run exactly events) → NoneLate exactly r.key events →
    r.divergenceReason = .agree

section Recon

variable {E : Engine} {vars : Vars} {now : Int} {messages : List Trade}
  {rows : List RawTrade} {staged : List StgTrade} {bars : List Bar}
  {events : List JobEvent} {r : ReconRow}

/-- On either side missing the row does not agree, and does not say so. -/
theorem not_agree_of_missing {activity : List PaneActivity}
    {jobs : List JobBoundaries} {frontiers : List BatchFrontier}
    {k : String × Int} {s : Option StreamBar} {b : Option Bar}
    (hmissing : s = none ∨ b = none) (hsome : s.isSome ∨ b.isSome)
    (hr : reconRow activity jobs frontiers k s b = r) :
    r.divergenceReason ≠ .agree ∧ r.barsAgree ≠ some true := by
  rw [← hr]
  rcases hmissing with rfl | rfl
  · cases b with
    | none => simp at hsome
    | some b =>
        refine ⟨by simp [reconRow, divergenceReason], fun hagree => ?_⟩
        have hcounts := (both_eq_true_iff.mp hagree).1
        cases (both_eq_true_iff.mp hcounts).1
  · cases s with
    | none => simp at hsome
    | some s =>
        constructor
        · intro hreason
          have hcase : divergenceReason true false (some s.tradeCount) none
              r.isFirstWindow r.isLastWindow r.atBatchFrontier
                = if r.atBatchFrontier = some true then .batchNotYetBuilt
                  else .missingFromBatch := reason_of_streamOnly
          rw [← hr] at hcase
          have hsplit := hcase.symm.trans hreason
          split at hsplit
          · cases hsplit
          · cases hsplit
        · intro hagree
          have hcounts := (both_eq_true_iff.mp hagree).1
          cases (both_eq_true_iff.mp hcounts).1

/-- With both sides there, the reason is that they agree when the counts
are equal. -/
theorem reason_agree_iff {n m : Nat} {first last frontier : Option Bool} :
    divergenceReason true true (some n) (some m) first last frontier
        = .agree
      ↔ n = m := by
  rcases lt_trichotomy n m with hlt | rfl | hgt
  · refine iff_of_false (fun hagree => ?_) hlt.ne
    have hmem : divergenceReason true true (some n) (some m) first last
        frontier ∈ [.partialAtStartup, .partialAtShutdown,
          .lateDataDropped] := reason_of_lt hlt
    rw [hagree] at hmem
    exact absurd hmem (by decide)
  · exact iff_of_true reason_of_eq rfl
  · refine iff_of_false (fun hagree => ?_) hgt.ne'
    rw [reason_of_gt hgt] at hagree
    split at hagree
    · cases hagree
    · cases hagree

/-- Then the verdict is the same, if equal counts show the same bar. -/
theorem barsAgree_iff_counts {activity : List PaneActivity}
    {jobs : List JobBoundaries} {frontiers : List BatchFrontier}
    {k : String × Int} {s : StreamBar} {b : Bar}
    (hsame : s.tradeCount = b.tradeCount → SameColumns s b)
    (hr : reconRow activity jobs frontiers k (some s) (some b) = r) :
    r.barsAgree = some true ↔ s.tradeCount = b.tradeCount := by
  constructor
  · intro hagree
    rw [← hr] at hagree
    have hcounts := (both_eq_true_iff.mp (both_eq_true_iff.mp hagree).1).1
    exact (Option.some.inj (equal_eq_true_iff.mp hcounts)).symm
  · intro heq
    obtain ⟨-, -, -, hclose, hvolume, -, -⟩ := hsame heq
    refine (barsAgree_iff heq hr).mpr ⟨?_, hclose⟩
    rw [hvolume, sub_self, abs_zero]
    positivity

/-- Over any run of the job on the messages of the topic, whatever is
late, dropped or fired early: in a window whose messages the batch counts
once, every bar the job writes lies inside the batch bar, `agree` is said
exactly when the two bars agree, and it is said when nothing of the
window was dropped and the job has drained. -/
theorem lateness_narrows (E : Engine)
    (h : Seen vars now messages rows staged bars)
    (hread : (arrivals events).Subperm messages)
    (hr : r ∈ fctStreamBatchRecon E ((run exactly events).written exactly)
      bars)
    (hw : Clean vars messages rows staged r.key) :
    Narrowed messages events bars r := by
  have htally := tallied_of_mem h hr
  obtain ⟨s, b, hsides, -⟩ := supported_iff E _ _ hr
  obtain ⟨hs, hb, hrow⟩ := hsides
  have hsome : s.isSome ∨ b.isSome := by
    obtain ⟨k, s', b', hsome, hs', hb', hrow'⟩ :=
      mem_fctStreamBatchRecon.mp hr
    have hin := congrArg ReconRow.inStream (hrow.trans hrow'.symm)
    have hin' := congrArg ReconRow.inBatch (hrow.trans hrow'.symm)
    rw [show s.isSome = s'.isSome from hin,
      show b.isSome = b'.isSome from hin']
    exact hsome
  have hagree : r.divergenceReason = .agree ↔ r.barsAgree = some true := by
    cases s with
    | none =>
        have hnot := not_agree_of_missing (Or.inl rfl) hsome hrow
        exact iff_of_false hnot.1 hnot.2
    | some s =>
        cases b with
        | none =>
            have hnot := not_agree_of_missing (Or.inr rfl) hsome hrow
            exact iff_of_false hnot.1 hnot.2
        | some b =>
            have hmem := (of_mem_firstBy hs.1).1
            have hsame := ((exists_within h hw hread hmem hs.2).2 b hb.1
              hb.2).2
            rw [barsAgree_iff_counts hsame hrow, ← hrow]
            exact reason_agree_iff
  refine ⟨fun s' hs' hkey => ?_, hagree, fun hperm hdrained hlate => ?_⟩
  · obtain ⟨⟨b', hb', hkey'⟩, hinside⟩ := exists_within h hw hread hs' hkey
    exact ⟨b', hb', hkey', (hinside b' hb' hkey').1⟩
  · have hdiff := htally.drained hdrained
    rw [length_ids_of_complete h hw hperm hlate, sub_self] at hdiff
    rw [← hrow] at hdiff
    cases s with
    | none =>
        cases b with
        | none => simp at hsome
        | some b =>
            have hcount : (b.tradeCount : Int) - 0 = 0 := hdiff
            have hpos := tradeCount_pos h hb.1
            omega
    | some s =>
        have hpos := (tradeCount_le (accumulates_run exactly events) hs.1).1
        cases b with
        | none =>
            have hcount : (0 : Int) - s.tradeCount = 0 := hdiff
            omega
        | some b =>
            have hcount : (b.tradeCount : Int) - s.tradeCount = 0 := hdiff
            rw [← hrow]
            exact reason_agree_iff.mpr (by omega)

end Recon

-- ============================================================ a late trade

/-- Two trades of a minute and one of the next, a second of the epoch
each. -/
def lateTrades : List Trade :=
  (MessageHandler.after ["BTC-USD"] RecordingPublisher
    [tradeCall "match" 10 "1970-01-01T00:00:01Z",
      tradeCall "match" 11 "1970-01-01T00:00:02Z",
      tradeCall "match" 12 "1970-01-01T00:01:01Z"]).publisher.trades

/-- The second of them is dropped. -/
def lateEvents : List JobEvent :=
  lateTrades.map (fun m => JobEvent.arrive m (m.tradeId = 11))
    ++ [.fire ("BTC-USD", 0) true 0, .fire ("BTC-USD", minute) true 0]

theorem clean_lateTrades (w : String × Int)
    (hw : w.1 ∈ ({} : Vars).trackedProducts) :
    Clean {} lateTrades (snapshotAt (historyOf lateTrades) (90 * second))
      (stagedOf lateTrades) w := by
  have hgenuine : ∀ m ∈ lateTrades,
      m.tradeId ∉ ({} : Vars).syntheticTradeIds := by decide +kernel
  have hminute : ∀ m ∈ lateTrades, ∀ st ∈ stagedOf lateTrades,
      st.key = (m.tradeId, m.productId) →
      windowOf exactly m = some st.window := by decide +kernel
  have hdistinct : (lateTrades.map Trade.tradeId).Nodup := by
    decide +kernel
  have hkept : ∀ r ∈ snapshotAt (historyOf lateTrades) (90 * second),
      ∀ st ∈ derived r, parse (strip r.price.toList) = some st.price
        ∧ parse (strip r.size.toList) = some st.size := by decide +kernel
  have hsizes : ∀ st ∈ stagedOf lateTrades, 0 ≤ st.size := by
    decide +kernel
  refine ⟨hw, ⟨?_, ?_, ?_⟩, ?_, fun st hst _ => hsizes st hst⟩
  · exact hdistinct.sublist (List.filter_sublist.map _)
  · exact fun m hm _ => hgenuine m hm
  · intro m hm hwindow st hst hkey
    have hsame := hminute m hm st hst hkey
    rw [hwindow] at hsame
    exact (Option.some.inj hsame).symm
  · intro r hr st hst _
    obtain ⟨hprice, hsize⟩ := hkept r hr st hst
    exact ⟨hprice, hsize⟩

theorem lateness_narrows_late :
    ∃ r ∈ fctStreamBatchRecon Engine.inOrder
        ((run exactly lateEvents).written exactly) (barsOf lateTrades),
      r.key = ("BTC-USD", 0) ∧ r.divergenceReason = .partialAtStartup
        ∧ Narrowed lateTrades lateEvents (barsOf lateTrades) r := by
  have hrow : ∃ r ∈ fctStreamBatchRecon Engine.inOrder
      ((run exactly lateEvents).written exactly) (barsOf lateTrades),
      r.key = ("BTC-USD", 0) ∧ r.divergenceReason = .partialAtStartup := by
    decide +kernel
  obtain ⟨r, hr, hkey, hreason⟩ := hrow
  have hread : arrivals lateEvents = lateTrades := by decide +kernel
  have htracked : r.key.1 ∈ ({} : Vars).trackedProducts := by
    rw [hkey]
    decide
  exact ⟨r, hr, hkey, hreason, lateness_narrows Engine.inOrder
    (seen_barsOf (by decide +kernel)) (List.Perm.of_eq hread).subperm hr
    (clean_lateTrades r.key htracked)⟩

end MarketPlatform.Warehouse
