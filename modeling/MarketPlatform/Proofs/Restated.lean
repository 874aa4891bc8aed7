/-
What a later pane of a window may change.

A window of the streaming job fires more than once, and each time a row
is appended to `curated.bars_1m_stream`. Readers take the row of the
highest pane index. This module says how the rows of one window are
related, over any run of the job.

# Wider and never narrower

Panes accumulate, so a pane shows all that the panes before it showed.
That makes a bar that is written again wider and never narrower
(`widens_of_process`): lows fall, highs, volumes and counts grow, and
the ids reach further out. The open and the close may change, when an
element arrives with a lower or a higher id. The volume grows only
because no size is negative (`Element.Unsigned`).

The panes of a window are numbered in the order they fire and the table
only ever grows, so the bar that `streaming_final` takes of a window
widens as the job goes on, and there is no choice in which bar it takes
(`panes_widen`).

# What is asked of the floats

The job computes with doubles, whose sums and roundings are not exact.
What the result needs of them is that no operation turns an order round
(`Floats.Ordered`): the greatest of more numbers is no less, the sum of
more numbers that are not negative is no less, and rounding to nine
digits is monotone. That holds of exact arithmetic and of doubles alike
(`ordered_exactly`, `ordered_doubles`). For a sum of doubles it is an
induction over the two lists, in which the lists may differ by any
elements and the partial sums are compared (`foldl_float64_le`).
-/
import MarketPlatform.Proofs.Panes
import MarketPlatform.Proofs.SameBar

namespace MarketPlatform.Streaming

open Lib Lib.Numeral Lib.Rfc3339 Lib.Relation Consumer Warehouse

variable {F : Type} [LinearOrder F] [Zero F] {fl : Floats F}

-- ============================================================ the floats

/-- No operation turns an order round. -/
structure Floats.Ordered (fl : Floats F) : Prop where
  max_mem : ∀ {xs}, xs ≠ [] → fl.max xs ∈ xs
  le_max : ∀ {xs x}, x ∈ xs → x ≤ fl.max xs
  min_mem : ∀ {xs}, xs ≠ [] → fl.min xs ∈ xs
  min_le : ∀ {xs x}, x ∈ xs → fl.min xs ≤ x
  sum_nil : fl.sum [] = 0
  sum_sublist : ∀ {xs ys : List F}, xs.Sublist ys → (∀ y ∈ ys, 0 ≤ y) →
    fl.sum xs ≤ fl.sum ys
  round9_mono : ∀ {x y : F}, 0 ≤ x → x ≤ y → fl.round9 x ≤ fl.round9 y

theorem getD_maxOf_mem {xs : List ℚ} (h : xs ≠ []) :
    (maxOf xs).getD 0 ∈ xs := by
  obtain ⟨x, hx⟩ := List.exists_mem_of_ne_nil xs h
  obtain ⟨m, hm⟩ := exists_maxOf hx
  rw [hm]
  exact mem_of_maxOf hm

theorem le_getD_maxOf {xs : List ℚ} {x : ℚ} (h : x ∈ xs) :
    x ≤ (maxOf xs).getD 0 := by
  obtain ⟨m, hm⟩ := exists_maxOf h
  rw [hm]
  exact (maxOf_eq_some_iff.mp hm).2 x h

theorem getD_minOf_mem {xs : List ℚ} (h : xs ≠ []) :
    (minOf xs).getD 0 ∈ xs := by
  obtain ⟨x, hx⟩ := List.exists_mem_of_ne_nil xs h
  obtain ⟨m, hm⟩ := exists_minOf hx
  rw [hm]
  exact mem_of_minOf hm

theorem getD_minOf_le {xs : List ℚ} {x : ℚ} (h : x ∈ xs) :
    (minOf xs).getD 0 ≤ x := by
  obtain ⟨m, hm⟩ := exists_minOf h
  rw [hm]
  exact (minOf_eq_some_iff.mp hm).2 x h

theorem ordered_exactly : exactly.Ordered where
  max_mem := getD_maxOf_mem
  le_max := le_getD_maxOf
  min_mem := getD_minOf_mem
  min_le := getD_minOf_le
  sum_nil := rfl
  sum_sublist := fun h hpos => h.sum_le_sum hpos
  round9_mono := fun _ h => h

/-- Adding up more doubles, from no less, gives no less. An element that
only the longer list has adds something that is not negative, and
rounding cannot bring the sum below the double it was before. -/
theorem foldl_float64_le {xs ys : List ℚ} (h : xs.Sublist ys)
    (hpos : ∀ y ∈ ys, 0 ≤ y) {a b : ℚ} (ha : 0 ≤ a) (hab : a ≤ b)
    (hb : float64 b = b) :
    xs.foldl (fun a b => float64 (a + b)) a
      ≤ ys.foldl (fun a b => float64 (a + b)) b := by
  induction h generalizing a b with
  | slnil => exact hab
  | cons y _ ih =>
      rw [List.forall_mem_cons] at hpos
      have hsum : 0 ≤ b + y := add_nonneg (ha.trans hab) hpos.1
      refine ih hpos.2 ha ?_ (float64_float64 hsum)
      calc a ≤ float64 b := hab.trans hb.ge
        _ ≤ float64 (b + y) :=
          float64_mono (ha.trans hab) (le_add_of_nonneg_right hpos.1)
  | cons_cons y _ ih =>
      rw [List.forall_mem_cons] at hpos
      have hsum : 0 ≤ a + y := add_nonneg ha hpos.1
      have hle : a + y ≤ b + y := add_le_add_left hab y
      exact ih hpos.2 (float64_nonneg hsum) (float64_mono hsum hle)
        (float64_float64 (hsum.trans hle))

theorem ordered_doubles : doubles.Ordered where
  max_mem := getD_maxOf_mem
  le_max := le_getD_maxOf
  min_mem := getD_minOf_mem
  min_le := getD_minOf_le
  sum_nil := rfl
  sum_sublist := fun h hpos => foldl_float64_le h hpos le_rfl le_rfl rfl
  round9_mono := fun {x y} _ hxy => by
    have heven : roundEven (x * 10 ^ 9) ≤ roundEven (y * 10 ^ 9) :=
      roundEven_mono (by gcongr)
    have hcast : (roundEven (x * 10 ^ 9) : ℚ) ≤ roundEven (y * 10 ^ 9) := by
      exact_mod_cast heven
    show (roundEven (x * 10 ^ 9) / 10 ^ 9 : ℚ)
      ≤ roundEven (y * 10 ^ 9) / 10 ^ 9
    gcongr

-- ============================================================== one bar

/-- The elements of a pane as `BuildBar.process` orders them. -/
def Pane.ordered (pane : Pane F) : List (Element F) :=
  pane.trades.insertionSort fun a b => a.tradeId ≤ b.tradeId

omit [LinearOrder F] [Zero F] in
theorem mem_ordered {pane : Pane F} {e : Element F} :
    e ∈ pane.ordered ↔ e ∈ pane.trades :=
  (List.perm_insertionSort _ _).mem_iff

omit [LinearOrder F] [Zero F] in
/-- More elements stay in their places. -/
theorem ordered_sublist {a b : Pane F} (h : a.trades.Sublist b.trades) :
    a.ordered.Sublist b.ordered := by
  unfold Pane.ordered
  generalize a.trades = xs, b.trades = ys at h
  induction h with
  | slnil => exact List.Sublist.refl _
  | cons e _ ih => exact ih.trans (List.sublist_orderedInsert ..)
  | cons_cons e _ ih =>
      exact List.Sublist.orderedInsert_sublist e ih
        (List.pairwise_insertionSort _ _)

/-- What a bar shows of its pane. -/
structure Shows (fl : Floats F) (pane : Pane F) (s : StreamBar) :
    Prop where
  barEnd : s.barEnd = pane.window.2 + minute
  first : ∃ e ∈ pane.trades, e.tradeId = s.firstTradeId
    ∧ fl.round9 e.price = s.openPrice
  least : ∀ e ∈ pane.trades, s.firstTradeId ≤ e.tradeId
  last : ∃ e ∈ pane.trades, e.tradeId = s.lastTradeId
    ∧ fl.round9 e.price = s.closePrice
  greatest : ∀ e ∈ pane.trades, e.tradeId ≤ s.lastTradeId
  high : s.high = fl.round9 (fl.max (pane.ordered.map Element.price))
  low : s.low = fl.round9 (fl.min (pane.ordered.map Element.price))
  volume : s.volume = fl.round9 (fl.sum (pane.ordered.map Element.size))

omit [LinearOrder F] [Zero F] in
/-- A bar shows its pane's first and last prices in the order of the
ids, and its extremes and sums, each rounded to nine digits. -/
theorem shows_of_process {pane : Pane F} {s : StreamBar}
    (h : BuildBar.process fl pane = some s) : Shows fl pane s := by
  have hsorted := List.pairwise_insertionSort
    (fun a b : Element F => a.tradeId ≤ b.tradeId) pane.trades
  unfold BuildBar.process at h
  dsimp only at h
  split at h
  · next first last hfirst hlast =>
      obtain rfl := Option.some.inj h
      exact {
        barEnd := rfl
        first := ⟨first, mem_ordered.mp (List.mem_of_head? hfirst), rfl, rfl⟩
        least := by
          intro e he
          obtain ⟨rest, hrest⟩ := List.head?_eq_some_iff.mp hfirst
          have hmem := mem_ordered.mpr he
          rw [Pane.ordered, hrest] at hmem
          rw [hrest] at hsorted
          rcases List.mem_cons.mp hmem with rfl | hmem
          · exact le_rfl
          · exact List.rel_of_pairwise_cons hsorted hmem
        last := ⟨last, mem_ordered.mp (List.mem_of_getLast? hlast), rfl, rfl⟩
        greatest := by
          intro e he
          obtain ⟨init, hinit⟩ := List.getLast?_eq_some_iff.mp hlast
          have hmem := mem_ordered.mpr he
          rw [Pane.ordered, hinit] at hmem
          rw [hinit] at hsorted
          rcases List.mem_append.mp hmem with hmem | hmem
          · exact (List.pairwise_append.mp hsorted).2.2 e hmem last
              (List.mem_singleton_self last)
          · obtain rfl := List.mem_singleton.mp hmem
            exact le_rfl
        high := rfl
        low := rfl
        volume := rfl }
  · cases h

-- ============================================================ two bars

/-- A later bar of a window shows no less than an earlier one. -/
structure Widens (s s' : StreamBar) : Prop where
  key : s.key = s'.key
  barEnd : s.barEnd = s'.barEnd
  low : s'.low ≤ s.low
  high : s.high ≤ s'.high
  volume : s.volume ≤ s'.volume
  tradeCount : s.tradeCount ≤ s'.tradeCount
  firstTradeId : s'.firstTradeId ≤ s.firstTradeId
  lastTradeId : s.lastTradeId ≤ s'.lastTradeId

/-- Prices and sizes are not negative. -/
def Element.Unsigned (e : Element F) : Prop := 0 ≤ e.price ∧ 0 ≤ e.size

/-- A pane that shows all of another widens its bar. Both lists are
ordered by id, and the one is a sublist of the other when ordered
too. -/
theorem widens_of_process (hfl : fl.Ordered) {a b : Pane F}
    {s s' : StreamBar} (ha : BuildBar.process fl a = some s)
    (hb : BuildBar.process fl b = some s') (hwindow : a.window = b.window)
    (hsub : a.trades.Sublist b.trades)
    (hpos : ∀ e ∈ b.trades, e.Unsigned) : Widens s s' := by
  have hs := shows_of_process ha
  have hs' := shows_of_process hb
  have hordered := ordered_sublist hsub
  have hprices := hordered.map Element.price
  have hprice : ∀ x ∈ b.ordered.map Element.price, 0 ≤ x := by
    intro x hx
    obtain ⟨e, he, rfl⟩ := List.mem_map.mp hx
    exact (hpos e (mem_ordered.mp he)).1
  have hsize : ∀ x ∈ b.ordered.map Element.size, 0 ≤ x := by
    intro x hx
    obtain ⟨e, he, rfl⟩ := List.mem_map.mp hx
    exact (hpos e (mem_ordered.mp he)).2
  have hne : a.ordered.map Element.price ≠ [] := by
    obtain ⟨e, he, -⟩ := hs.first
    exact List.ne_nil_of_mem (List.mem_map_of_mem (mem_ordered.mpr he))
  have hne' : b.ordered.map Element.price ≠ [] := fun hnil => by
    rw [hnil, List.sublist_nil] at hprices
    exact hne hprices
  refine ⟨?_, ?_, ?_, ?_, ?_, ?_, ?_, ?_⟩
  · rw [(of_process ha).1, (of_process hb).1, hwindow]
  · rw [hs.barEnd, hs'.barEnd, hwindow]
  · rw [hs.low, hs'.low]
    exact hfl.round9_mono (hprice _ (hfl.min_mem hne'))
      (hfl.min_le (hprices.subset (hfl.min_mem hne)))
  · rw [hs.high, hs'.high]
    have hmax := hprices.subset (hfl.max_mem hne)
    exact hfl.round9_mono (hprice _ hmax) (hfl.le_max hmax)
  · rw [hs.volume, hs'.volume]
    have hsizes := hordered.map Element.size
    refine hfl.round9_mono ?_ (hfl.sum_sublist hsizes hsize)
    rw [← hfl.sum_nil]
    exact hfl.sum_sublist (List.nil_sublist _)
      fun x hx => hsize x (hsizes.subset hx)
  · rw [(of_process ha).2.2, (of_process hb).2.2]
    exact hsub.length_le
  · obtain ⟨e, he, hid, -⟩ := hs.first
    rw [← hid]
    exact hs'.least e (hsub.subset he)
  · obtain ⟨e, he, hid, -⟩ := hs.last
    rw [← hid]
    exact hs'.greatest e (hsub.subset he)

-- ============================================================== the run

omit [LinearOrder F] [Zero F] in
/-- The panes of a window are numbered in the order they fire. -/
theorem inOrder_run (fl : Floats F) (events : List JobEvent) :
    (run fl events).panes.Pairwise fun a b =>
      a.window = b.window → a.index < b.index := by
  induction events using List.reverseRecOn with
  | nil => exact List.Pairwise.nil
  | append_singleton events event ih =>
      have hbelow := (accumulates_run fl events).below
      rw [run_append]
      show (Job.step fl (run fl events) event).panes.Pairwise _
      cases event with
      | arrive trade late =>
          unfold Job.step
          dsimp only
          split
          · exact ih
          · exact ih
      | fire window isLast writtenAt =>
          refine List.pairwise_append.mpr
            ⟨ih, List.pairwise_singleton _ _, ?_⟩
          intro a ha b hb hwindow
          obtain rfl := List.mem_singleton.mp hb
          show a.index < (run fl events).fired window
          rw [← show a.window = window from hwindow]
          exact hbelow a ha

omit [LinearOrder F] [Zero F] in
/-- The rows of a window are numbered in the order they are written. -/
theorem inOrder_written (fl : Floats F) (events : List JobEvent) :
    ((run fl events).written fl).Pairwise fun s s' =>
      s.key = s'.key → s.paneIndex < s'.paneIndex := by
  refine (inOrder_run fl events).filterMap _ ?_
  intro a b hab s hs s' hs' hkey
  obtain ⟨hwindow, hindex, -⟩ := of_process hs
  obtain ⟨hwindow', hindex', -⟩ := of_process hs'
  rw [hindex, hindex']
  exact hab (by rw [← hwindow, ← hwindow', hkey])

omit [LinearOrder F] [Zero F] in
/-- The table only ever grows. -/
theorem written_append (events more : List JobEvent) :
    ((run fl events).written fl).IsPrefix
      ((run fl (events ++ more)).written fl) := by
  induction more using List.reverseRecOn with
  | nil => rw [List.append_nil]
  | append_singleton more event ih =>
      refine ih.trans ?_
      rw [← List.append_assoc, run_append (events ++ more)]
      show _ <+: (Job.step fl (run fl (events ++ more)) event).written fl
      cases event with
      | arrive trade late =>
          unfold Job.step
          dsimp only
          split
          · exact List.prefix_refl _
          · exact List.prefix_refl _
      | fire window isLast writtenAt =>
          unfold Job.written Job.step
          rw [List.filterMap_append]
          exact List.prefix_append _ _

section Written

variable {E : Engine} {events : List JobEvent}

/-- Of two rows of a window the one with the greater number widens the
other. -/
theorem widens_of_mem (hfl : fl.Ordered)
    (hpos : ∀ e ∈ (run fl events).elements, e.Unsigned) {s s' : StreamBar}
    (hs : s ∈ (run fl events).written fl)
    (hs' : s' ∈ (run fl events).written fl) (hkey : s.key = s'.key)
    (hindex : s.paneIndex ≤ s'.paneIndex) : Widens s s' := by
  have hjob := accumulates_run fl events
  obtain ⟨a, ha, hsa⟩ := mem_written.mp hs
  obtain ⟨b, hb, hsb⟩ := mem_written.mp hs'
  obtain ⟨hwindow, hia, -⟩ := of_process hsa
  obtain ⟨hwindow', hib, -⟩ := of_process hsb
  have hsame : a.window = b.window := by rw [← hwindow, ← hwindow', hkey]
  have hle : a.index ≤ b.index := by rwa [← hia, ← hib]
  refine widens_of_process hfl hsa hsb hsame
    (hjob.grows a ha b hb hsame hle) fun e he => ?_
  exact hpos e (mem_group.mp ((hjob.held b hb).subset he)).1

omit [LinearOrder F] [Zero F] in
/-- The number of a row leaves the engine no choice. -/
theorem streamingFinal_congr (E' : Engine) :
    streamingFinal E' ((run fl events).written fl)
      = streamingFinal E ((run fl events).written fl) := by
  have hnodup : (((run fl events).written fl).map fun s =>
      (s.key, s.paneIndex)).Nodup := by
    refine List.pairwise_map.mpr ((inOrder_written fl events).imp ?_)
    intro s s' hlt heq
    obtain ⟨hkey, hindex⟩ := Prod.mk.inj heq
    exact (hlt hkey).ne hindex
  refine List.filterMap_congr fun k _ => ?_
  refine first_congr (List.Perm.refl _) fun s hs s' hs' hrecency => ?_
  obtain ⟨hs, hkey⟩ := mem_group.mp hs
  obtain ⟨hs', hkey'⟩ := mem_group.mp hs'
  have hindex : s.paneIndex = s'.paneIndex :=
    le_antisymm (paneIndex_le_of_recency hrecency.ge)
      (paneIndex_le_of_recency hrecency.le)
  exact List.inj_on_of_nodup_map hnodup hs hs'
    (Prod.ext (hkey.trans hkey'.symm) hindex)

end Written

/-- Over any run of the job the rows of a window are written in the
order of their numbers, each wider than those before it; the final row
is the same whatever the engine does, and it widens every row that was
written at any earlier point of the run. -/
theorem panes_widen (hfl : fl.Ordered) (events : List JobEvent)
    (hpos : ∀ m ∈ kept events, ∀ e, ParseTrade.process fl m = .ok e →
      e.Unsigned) :
    ((run fl events).written fl).Pairwise (fun s s' => s.key = s'.key →
        s.paneIndex < s'.paneIndex ∧ Widens s s')
      ∧ (∀ E E', streamingFinal E' ((run fl events).written fl)
        = streamingFinal E ((run fl events).written fl))
      ∧ ∀ before, before <+: events →
        ∀ E, ∀ s ∈ (run fl before).written fl,
          ∃ f ∈ streamingFinal E ((run fl events).written fl),
            Widens s f := by
  have hunsigned : ∀ e ∈ (run fl events).elements, e.Unsigned := by
    intro e he
    obtain ⟨m, hm, hprocess⟩ := exists_kept_of_mem he
    exact hpos m hm e hprocess
  refine ⟨?_, fun E E' => streamingFinal_congr E', ?_⟩
  · refine (inOrder_written fl events).imp_of_mem ?_
    intro s s' hs hs' hlt hkey
    exact ⟨hlt hkey, widens_of_mem hfl hunsigned hs hs' hkey (hlt hkey).le⟩
  · intro before hbefore E s hs
    obtain ⟨more, rfl⟩ := hbefore
    have hmem := (written_append before more).subset hs
    obtain ⟨f, hf, hkey⟩ : ∃ f ∈ streamingFinal E
        ((run fl (before ++ more)).written fl), f.key = s.key :=
      exists_mem_firstBy hmem
    obtain ⟨hfmem, hfinal⟩ := of_mem_firstBy hf
    exact ⟨f, hf, widens_of_mem hfl hunsigned hmem hfmem hkey.symm
      (paneIndex_le_of_recency (hfinal s hmem hkey.symm))⟩

/-- A minute of which one trade is read after it has fired. -/
def lateRun : List JobEvent :=
  [.arrive (minuteTrade 11 "100.10" "0.3") false,
    .fire ("BTC-USD", minute) false 0,
    .arrive (minuteTrade 10 "100.25" "0.1") false,
    .fire ("BTC-USD", minute) true 0]
where
  minuteTrade (tradeId : Int) (price size : String) : Trade :=
    { minuteMessage with tradeId, price, size }

theorem panes_widen_late :
    ((run doubles lateRun).written doubles).Pairwise (fun s s' =>
        s.key = s'.key → s.paneIndex < s'.paneIndex ∧ Widens s s')
      ∧ ((run doubles lateRun).written doubles).map (fun s =>
          (s.high, s.volume, s.tradeCount, s.firstTradeId))
        = [(1001 / 10, 3 / 10, 1, 11), (401 / 4, 2 / 5, 2, 10)] := by
  have hread : ∀ m ∈ kept lateRun, ∀ e ∈
      (ParseTrade.process doubles m).toOption, e.Unsigned := by
    unfold Element.Unsigned
    decide +kernel
  have hpos : ∀ m ∈ kept lateRun, ∀ e,
      ParseTrade.process doubles m = .ok e → e.Unsigned := by
    intro m hm e he
    refine hread m hm e ?_
    rw [he]
    rfl
  exact ⟨(panes_widen ordered_doubles lateRun hpos).1, by decide +kernel⟩

end MarketPlatform.Streaming
