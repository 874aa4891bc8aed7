/-
What the streaming job writes of a window.

The job reads messages from a topic, parses them to elements, puts each
element in the one-minute window of its event time, and writes a bar
whenever a window fires. Windows fire early, on time and late, and
accumulate: each firing holds all of the window's elements so far. An
element that comes after the allowed lateness is dropped. Which elements
are late, when a window fires and in what order messages arrive is left
open by the source and is an event of the run here (`JobEvent`).

# Panes

Whatever is late and whenever windows fire, a pane holds elements of its
window, and no fewer than the panes before it (`Accumulates`). That is
the invariant of a step and, by induction, of a run (`accumulates_run`).
The warehouse reads the bar of the highest pane index as the final one,
so that bar's pane holds at least what every other pane of its window
holds (`of_mem_streamingFinal`).

# All of a window

Once every window has fired with all of its elements (`Drained`), the
final bar of a window counts them all (`tradeCount_of_drained`). The
elements of a window are the messages read for it, each as often as it
was read, but for those dropped (`tradeIds_run`): the trade ids are not
deduplicated anywhere in the job. Together the two say what a final bar
counts in terms of the messages read, which is what it is compared by
with the bar of the batch.

`drain` is the run that loses nothing: it reads any messages, drops none
and fires every window at the end.
-/
import MarketPlatform.Warehouse.Recon

namespace MarketPlatform.Streaming

open Lib Lib.Rfc3339 Lib.Relation Consumer Warehouse

variable {F : Type} {fl : Floats F}

-- ============================================================== one firing

theorem process_eq_none_iff {pane : Pane F} :
    BuildBar.process fl pane = none ↔ pane.trades = [] := by
  have hlen := (pane.trades.perm_insertionSort
    fun a b => a.tradeId ≤ b.tradeId).length_eq
  unfold BuildBar.process
  cases h : pane.trades.insertionSort fun a b => a.tradeId ≤ b.tradeId with
  | nil =>
      rw [h, List.length_nil] at hlen
      simp [List.length_eq_zero_iff.mp hlen.symm]
  | cons a as =>
      rw [h, List.length_cons] at hlen
      have hne : pane.trades ≠ [] := by
        intro hnil
        rw [hnil] at hlen
        cases hlen
      simp [hne, List.getLast?_cons]

/-- What a bar keeps of its pane. -/
theorem of_process {pane : Pane F} {s : StreamBar}
    (h : BuildBar.process fl pane = some s) :
    s.key = pane.window ∧ s.paneIndex = pane.index
      ∧ s.tradeCount = pane.trades.length := by
  unfold BuildBar.process at h
  dsimp only at h
  split at h
  · obtain rfl := Option.some.inj h
    exact ⟨rfl, rfl, (List.perm_insertionSort _ _).length_eq⟩
  · cases h

theorem exists_process {fl : Floats F} {pane : Pane F} (h : pane.trades ≠ []) :
    ∃ s, BuildBar.process fl pane = some s :=
  Option.ne_none_iff_exists'.mp fun hnone => h (process_eq_none_iff.mp hnone)

theorem mem_written {job : Job F} {s : StreamBar} :
    s ∈ job.written fl
      ↔ ∃ pane ∈ job.panes, BuildBar.process fl pane = some s :=
  List.mem_filterMap

-- ========================================================= accumulation

/-- A pane holds elements of its window, and all that the panes before it
held. -/
structure Accumulates (job : Job F) : Prop where
  held : ∀ pane ∈ job.panes,
    pane.trades.Sublist (group Element.window job.elements pane.window)
  below : ∀ pane ∈ job.panes, pane.index < job.fired pane.window
  grows : ∀ a ∈ job.panes, ∀ b ∈ job.panes, a.window = b.window →
    a.index ≤ b.index → a.trades.Sublist b.trades

theorem Accumulates.arrive {job : Job F} (h : Accumulates job)
    (e : Element F) :
    Accumulates { job with elements := job.elements ++ [e] } where
  held := fun pane hpane => (h.held pane hpane).trans
    ((List.sublist_append_left job.elements [e]).filter _)
  below := h.below
  grows := h.grows

/-- A window that fires gets a pane of all its elements, numbered after
its earlier panes. -/
theorem Accumulates.fire {job : Job F} (h : Accumulates job)
    (window : String × Int) (isLast : Bool) (writtenAt : Int) :
    Accumulates (job.step fl (.fire window isLast writtenAt)) where
  held := by
    intro pane hpane
    rcases List.mem_append.mp hpane with hpane | hpane
    · exact h.held pane hpane
    · obtain rfl := List.mem_singleton.mp hpane
      exact List.Sublist.refl _
  below := by
    intro pane hpane
    simp only [Job.fired, Job.step, List.countP_append]
    rcases List.mem_append.mp hpane with hpane | hpane
    · exact (h.below pane hpane).trans_le (Nat.le_add_right _ _)
    · obtain rfl := List.mem_singleton.mp hpane
      simp [Job.fired]
  grows := by
    intro a ha b hb hwindow hindex
    rcases List.mem_append.mp ha with ha | ha
    · rcases List.mem_append.mp hb with hb | hb
      · exact h.grows a ha b hb hwindow hindex
      · obtain rfl := List.mem_singleton.mp hb
        show a.trades.Sublist (group Element.window job.elements window)
        rw [← show a.window = window from hwindow]
        exact h.held a ha
    · obtain rfl := List.mem_singleton.mp ha
      rcases List.mem_append.mp hb with hb | hb
      · -- no earlier pane has the new index
        have hbelow := h.below b hb
        rw [← hwindow] at hbelow
        exact absurd hindex (Nat.not_le.mpr hbelow)
      · obtain rfl := List.mem_singleton.mp hb
        exact List.Sublist.refl _

theorem accumulates_step {job : Job F} (h : Accumulates job)
    (event : JobEvent) : Accumulates (job.step fl event) := by
  cases event with
  | arrive trade late =>
      unfold Job.step
      dsimp only
      split
      · exact h.arrive _
      · exact h
  | fire window isLast writtenAt => exact h.fire window isLast writtenAt

theorem run_append (events more : List JobEvent) :
    run fl (events ++ more) = more.foldl (Job.step fl) (run fl events) :=
  List.foldl_append

theorem accumulates_run (fl : Floats F) (events : List JobEvent) :
    Accumulates (run fl events) := by
  induction events using List.reverseRecOn with
  | nil => exact ⟨by simp [run], by simp [run], by simp [run]⟩
  | append_singleton events event ih =>
      rw [run_append]
      exact accumulates_step ih event

-- ========================================================= the final pane

/-- Every window has fired with all of its elements. -/
def Drained (job : Job F) : Prop :=
  ∀ e ∈ job.elements, ∃ pane ∈ job.panes, pane.window = e.window
    ∧ pane.trades = group Element.window job.elements e.window

section Final

variable {E : Engine} {job : Job F}

theorem paneIndex_le_of_recency {s s' : StreamBar}
    (h : recency s ≤ recency s') : s'.paneIndex ≤ s.paneIndex := by
  rcases Prod.Lex.toLex_le_toLex.mp h with hlt | heq
  · exact (OrderDual.toDual_lt_toDual.mp hlt).le
  · exact (OrderDual.toDual_inj.mp heq.1).ge

/-- The pane of a final bar. -/
theorem of_mem_streamingFinal {s : StreamBar}
    (hs : s ∈ streamingFinal E (job.written fl)) :
    ∃ a ∈ job.panes, BuildBar.process fl a = some s
      ∧ a.window = s.key ∧ a.trades ≠ []
      ∧ ∀ b ∈ job.panes, b.window = s.key → b.trades ≠ [] →
        b.index ≤ a.index := by
  obtain ⟨hmem, hfinal⟩ := of_mem_firstBy hs
  obtain ⟨a, ha, hsa⟩ := mem_written.mp hmem
  obtain ⟨hkey, hindex, -⟩ := of_process hsa
  refine ⟨a, ha, hsa, hkey.symm, fun hnil => ?_, fun b hb hwindow hne => ?_⟩
  · rw [process_eq_none_iff.mpr hnil] at hsa
    cases hsa
  · obtain ⟨s', hs'⟩ := exists_process hne
    obtain ⟨hkey', hindex', -⟩ := of_process hs'
    rw [← hindex, ← hindex']
    exact paneIndex_le_of_recency
      (hfinal s' (mem_written.mpr ⟨b, hb, hs'⟩) (hkey'.trans hwindow))

/-- A final bar counts no more than the elements of its window. -/
theorem tradeCount_le (hjob : Accumulates job) {s : StreamBar}
    (hs : s ∈ streamingFinal E (job.written fl)) :
    0 < s.tradeCount
      ∧ s.tradeCount ≤ (group Element.window job.elements s.key).length := by
  obtain ⟨a, ha, hsa, hwindow, hne, -⟩ := of_mem_streamingFinal hs
  rw [(of_process hsa).2.2, ← hwindow]
  exact ⟨List.length_pos_iff.mpr hne, (hjob.held a ha).length_le⟩

/-- Once its window has fired with all of them, it counts them all. The
pane that holds them all is not after the final one, so the final pane
holds no fewer. -/
theorem tradeCount_of_drained (hjob : Accumulates job)
    (hdrained : Drained job) {s : StreamBar}
    (hs : s ∈ streamingFinal E (job.written fl)) :
    s.tradeCount = (group Element.window job.elements s.key).length := by
  apply le_antisymm (tradeCount_le hjob hs).2
  obtain ⟨a, ha, hsa, hwindow, hne, hfinal⟩ := of_mem_streamingFinal hs
  obtain ⟨e, he⟩ := List.exists_mem_of_ne_nil _ hne
  obtain ⟨he, hwe⟩ := mem_group.mp ((hjob.held a ha).subset he)
  obtain ⟨b, hb, hbwindow, htrades⟩ := hdrained e he
  rw [hwe, hwindow] at hbwindow htrades
  have hbne : b.trades ≠ [] := fun hnil => by
    rw [htrades] at hnil
    have hmem : e ∈ group Element.window job.elements s.key :=
      mem_group.mpr ⟨he, hwe.trans hwindow⟩
    rw [hnil] at hmem
    cases hmem
  rw [(of_process hsa).2.2, ← htrades]
  exact (hjob.grows b hb a ha (hbwindow.trans hwindow.symm)
    (hfinal b hb hbwindow hbne)).length_le

/-- Once drained, a window with an element has a final bar. -/
theorem group_eq_nil_of_drained (hdrained : Drained job) {w : String × Int}
    (hw : w ∉ groups StreamBar.key (streamingFinal E (job.written fl))) :
    group Element.window job.elements w = [] := by
  by_contra hgroup
  apply hw
  obtain ⟨e, he⟩ := List.exists_mem_of_ne_nil _ hgroup
  obtain ⟨hmem, rfl⟩ := mem_group.mp he
  obtain ⟨b, hb, hbwindow, htrades⟩ := hdrained e hmem
  obtain ⟨s', hs'⟩ := exists_process (htrades ▸ hgroup)
  have hwritten : s' ∈ job.written fl := mem_written.mpr ⟨b, hb, hs'⟩
  obtain ⟨s, hs, hkey⟩ : ∃ s ∈ streamingFinal E (job.written fl),
      s.key = s'.key := exists_mem_firstBy hwritten
  exact mem_groups.mpr
    ⟨s, hs, hkey.trans ((of_process hs').1.trans hbwindow)⟩

end Final

-- ======================================================= the messages read

/-- The messages read, in order. -/
def arrivals (events : List JobEvent) : List Trade :=
  events.filterMap fun
    | .arrive trade _ => some trade
    | .fire .. => none

/-- The messages read whose elements were not dropped. -/
def kept (events : List JobEvent) : List Trade :=
  events.filterMap fun
    | .arrive trade false => some trade
    | _ => none

/-- The window a message belongs to; none when it cannot be parsed. -/
def windowOf (fl : Floats F) (trade : Trade) : Option (String × Int) :=
  (ParseTrade.process fl trade).toOption.map Element.window

/-- The trade ids of a window's messages. -/
def idsOf (fl : Floats F) (w : String × Int) (trades : List Trade) :
    List Int :=
  (trades.filter fun m => windowOf fl m = some w).map Trade.tradeId

/-- The elements of messages. -/
def elementsOf (fl : Floats F) (trades : List Trade) : List (Element F) :=
  trades.filterMap fun m => (ParseTrade.process fl m).toOption

theorem of_parseTrade {m : Trade} {e : Element F}
    (h : ParseTrade.process fl m = .ok e) :
    e.productId = m.productId ∧ e.tradeId = m.tradeId
      ∧ timestampOf m.eventTime = .ok e.timestamp := by
  unfold ParseTrade.process at h
  cases ht : timestampOf m.eventTime with
  | error x =>
      rw [ht] at h
      cases h
  | ok t =>
      cases hp : pyFloat fl m.price with
      | error x =>
          rw [ht, hp] at h
          cases h
      | ok p =>
          cases hs : pyFloat fl m.size with
          | error x =>
              rw [ht, hp, hs] at h
              cases h
          | ok s =>
              rw [ht, hp, hs] at h
              obtain rfl := Except.ok.inj h
              exact ⟨rfl, rfl, rfl⟩

theorem elements_run (events : List JobEvent) :
    (run fl events).elements = elementsOf fl (kept events) := by
  induction events using List.reverseRecOn with
  | nil => rfl
  | append_singleton events event ih =>
      rw [run_append, kept, List.filterMap_append, elementsOf,
        List.filterMap_append, ← elementsOf, ← kept, ← ih]
      show (Job.step fl (run fl events) event).elements = _
      cases event with
      | fire window isLast writtenAt => simp [Job.step]
      | arrive trade late =>
          cases late with
          | true => simp [Job.step]
          | false =>
              cases h : ParseTrade.process fl trade with
              | error x => simp [Job.step, h, Except.toOption]
              | ok e => simp [Job.step, h, Except.toOption]

/-- An element of the job is what a message it kept parses to. -/
theorem exists_kept_of_mem {events : List JobEvent} {e : Element F}
    (he : e ∈ (run fl events).elements) :
    ∃ m ∈ kept events, ParseTrade.process fl m = .ok e := by
  rw [elements_run] at he
  obtain ⟨m, hm, hparsed⟩ := List.mem_filterMap.mp he
  refine ⟨m, hm, ?_⟩
  cases hprocess : ParseTrade.process fl m with
  | error x =>
      rw [hprocess] at hparsed
      cases hparsed
  | ok e' =>
      rw [hprocess] at hparsed
      obtain rfl := Option.some.inj hparsed
      rfl

/-- The trade ids of a window's elements are those of its messages: a
message that cannot be parsed is in no window. -/
theorem tradeIds_elementsOf (w : String × Int) (trades : List Trade) :
    (group Element.window (elementsOf fl trades) w).map Element.tradeId
      = idsOf fl w trades := by
  induction trades with
  | nil => rfl
  | cons m trades ih =>
      unfold elementsOf idsOf at ih ⊢
      cases h : ParseTrade.process fl m with
      | error x =>
          have hnone : windowOf fl m ≠ some w := by
            rw [windowOf, h]
            intro hw
            cases hw
          rw [List.filterMap_cons_none (by rw [h]; rfl), ih,
            List.filter_cons_of_neg (by simpa using hnone)]
      | ok e =>
          have hwindow : windowOf fl m = some e.window := by
            rw [windowOf, h]
            rfl
          rw [List.filterMap_cons_some (by rw [h]; rfl), group]
          by_cases hw : e.window = w
          · rw [List.filter_cons_of_pos (by simpa using hw),
              List.filter_cons_of_pos (by simp [hwindow, hw]), List.map_cons,
              List.map_cons, ← group, ih, (of_parseTrade h).2.1]
          · rw [List.filter_cons_of_neg (by simpa using hw),
              List.filter_cons_of_neg (by simp [hwindow, hw]), ← group, ih]

/-- The elements of a window are the messages read for it that were not
dropped. -/
theorem tradeIds_run (events : List JobEvent) (w : String × Int) :
    (group Element.window (run fl events).elements w).map Element.tradeId
      = idsOf fl w (kept events) := by
  rw [elements_run, tradeIds_elementsOf]

theorem idsOf_sublist {trades trades' : List Trade}
    (h : trades.Sublist trades') (w : String × Int) :
    (idsOf fl w trades).Sublist (idsOf fl w trades') :=
  (h.filter _).map _

theorem idsOf_perm {trades trades' : List Trade} (h : trades.Perm trades')
    (w : String × Int) : (idsOf fl w trades).Perm (idsOf fl w trades') :=
  (h.filter _).map _

theorem idsOf_subperm {trades trades' : List Trade}
    (h : trades.Subperm trades') (w : String × Int) :
    (idsOf fl w trades).Subperm (idsOf fl w trades') := by
  obtain ⟨some, hperm, hsub⟩ := h
  exact (idsOf_perm hperm w).symm.subperm.trans
    (idsOf_sublist hsub w).subperm

theorem kept_sublist (events : List JobEvent) :
    (kept events).Sublist (arrivals events) := by
  induction events with
  | nil => exact List.Sublist.refl _
  | cons event events ih =>
      unfold kept arrivals at ih ⊢
      cases event with
      | fire window isLast writtenAt => exact ih
      | arrive trade late =>
          cases late with
          | false => exact ih.cons_cons trade
          | true => exact ih.cons trade

/-- Nothing of the window was dropped. -/
def NoneLate (fl : Floats F) (w : String × Int) (events : List JobEvent) :
    Prop :=
  ∀ m, JobEvent.arrive m true ∈ events → windowOf fl m ≠ some w

theorem idsOf_kept {w : String × Int} {events : List JobEvent}
    (h : NoneLate fl w events) :
    idsOf fl w (kept events) = idsOf fl w (arrivals events) := by
  induction events with
  | nil => rfl
  | cons event events ih =>
      have htail : NoneLate fl w events := fun m hm =>
        h m (List.mem_cons_of_mem _ hm)
      unfold idsOf kept arrivals at ih ⊢
      cases event with
      | fire window isLast writtenAt => exact ih htail
      | arrive trade late =>
          cases late with
          | false =>
              simp only [List.filterMap_cons, List.filter_cons]
              split
              · rw [List.map_cons, List.map_cons, ih htail]
              · exact ih htail
          | true =>
              have hlate := h trade List.mem_cons_self
              simp only [List.filterMap_cons, List.filter_cons, hlate,
                decide_false, Bool.false_eq_true, if_false]
              exact ih htail

-- ================================================== a run without loss

/-- Read the messages, drop none, and fire every window at the end. -/
def drain (fl : Floats F) (trades : List Trade) : List JobEvent :=
  trades.map (fun m => JobEvent.arrive m false)
    ++ (groups Element.window (elementsOf fl trades)).map fun w =>
      JobEvent.fire w true 0

theorem arrivals_drain (fl : Floats F) (trades : List Trade) :
    arrivals (drain fl trades) = trades := by
  have hfires : ∀ ws : List (String × Int),
      arrivals (ws.map fun w => JobEvent.fire w true 0) = [] := by
    intro ws
    unfold arrivals
    rw [List.filterMap_map]
    exact List.filterMap_eq_nil_iff.mpr fun w _ => rfl
  have harrive : arrivals (trades.map fun m => JobEvent.arrive m false)
      = trades := by
    unfold arrivals
    rw [List.filterMap_map]
    exact List.filterMap_some
  rw [drain, arrivals, List.filterMap_append, ← arrivals, ← arrivals,
    harrive, hfires, List.append_nil]

theorem noneLate_drain (trades : List Trade) (w : String × Int) :
    NoneLate fl w (drain fl trades) := by
  intro m hm
  rcases List.mem_append.mp hm with hm | hm
  · obtain ⟨m', -, heq⟩ := List.mem_map.mp hm
    cases heq
  · obtain ⟨w', -, heq⟩ := List.mem_map.mp hm
    cases heq

theorem foldl_fire (fl : Floats F) (ws : List (String × Int)) (job : Job F) :
    ((ws.map fun w => JobEvent.fire w true 0).foldl (Job.step fl) job).elements
        = job.elements
      ∧ (∀ pane ∈ job.panes, pane ∈ ((ws.map fun w =>
          JobEvent.fire w true 0).foldl (Job.step fl) job).panes)
      ∧ ∀ w ∈ ws, ∃ pane ∈ ((ws.map fun w =>
          JobEvent.fire w true 0).foldl (Job.step fl) job).panes,
        pane.window = w
          ∧ pane.trades = group Element.window job.elements w := by
  induction ws generalizing job with
  | nil => exact ⟨rfl, fun _ h => h, by simp⟩
  | cons w ws ih =>
      obtain ⟨helements, hkeep, hfired⟩ :=
        ih (job.step fl (.fire w true 0))
      rw [List.map_cons, List.foldl_cons]
      refine ⟨helements, fun pane hpane => ?_, fun w' hw' => ?_⟩
      · exact hkeep pane (List.mem_append_left _ hpane)
      · rcases List.mem_cons.mp hw' with rfl | hw'
        · exact ⟨_, hkeep _ (List.mem_append_right _ List.mem_cons_self),
            rfl, rfl⟩
        · exact hfired w' hw'

theorem drained_drain (fl : Floats F) (trades : List Trade) :
    Drained (run fl (drain fl trades)) := by
  have hkept : kept (trades.map fun m => JobEvent.arrive m false) = trades := by
    unfold kept
    rw [List.filterMap_map]
    exact List.filterMap_some
  rw [drain, run_append]
  obtain ⟨helements, -, hfired⟩ := foldl_fire fl
    (groups Element.window (elementsOf fl trades))
    (run fl (trades.map fun m => JobEvent.arrive m false))
  intro e he
  rw [helements] at he ⊢
  rw [elements_run, hkept] at he
  exact hfired e.window (mem_groups.mpr ⟨e, he, rfl⟩)

end MarketPlatform.Streaming
