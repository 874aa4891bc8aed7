/-
Streaming against batch: when the streaming bars count no more than
`fct_bars_1m`.

# The same texts

Both paths read a message's time and numbers from the same texts, by
readers of their own: `timestamp()` and a cast to `NUMERIC` here,
`fromisoformat` and `float` there. What the warehouse reads the job reads
too, and alike as far as the minute goes (`windowOf_of_derived`). So a
trade that the batch counts in a minute comes of a message that the job
reads for that minute.

# A batch that has seen the messages

The comparison is with a batch that has seen them all (`Seen`): the raw
rows are those of the messages, all in the window of the build, and its
minute bars are made of every trade that it staged. A first or full build
has (`seen_of_build`), and so has an incremental one, if every date is
inside its lookback (`seen_of_builds`); of a trade that came in later
than that the minute bars never hear.

# The counts

The batch counts a trade once and leaves out synthetic ids; the job counts
whatever it reads. A final pane counts no more than the messages read for
its window, and exactly those once the job has drained (`tallied_of_mem`).
So a window that lost nothing counts at least the batch's trades, and
exactly these if and only if its messages are they, one to one
(`CountedOnce`). One direction takes any run of the job; for the other it
is enough to look at one, that drops nothing and drains
(`countedOnce_of_neverOverCounts`).
-/
import MarketPlatform.Consumer.Handler
import MarketPlatform.Proofs.Builds
import MarketPlatform.Proofs.Panes
import MarketPlatform.Warehouse.Topic

namespace MarketPlatform.Warehouse

open Lib Lib.Numeral Lib.Rfc3339 Lib.Relation Consumer Streaming

variable {F : Type} {fl : Floats F} {vars : Vars} {now : Int}

-- ======================================================= the same texts

/-- An offset is neither digits nor a fraction, and has no `Z` but that
of UTC. -/
theorem zone_of_offset {zone : List Char} {o : Int}
    (h : offset zone = some o) : zone = ['Z']
      ∨ (∀ c ∈ zone, c ≠ 'Z') ∧ Opens zone ∧ zone ≠ [] := by
  unfold offset at h
  split at h
  · exact Or.inl rfl
  · next sign h₁ h₂ m₁ m₂ =>
      refine Or.inr ?_
      split at h
      · next hh hm hhh hmm =>
          split at h
          · have hsign : sign = '+' ∨ sign = '-' := by
              by_cases hplus : sign = '+'
              · exact Or.inl hplus
              · by_cases hminus : sign = '-'
                · exact Or.inr hminus
                · simp [hplus, hminus] at h
            have hh' := inner_of_two hhh
            have hm' := inner_of_two hmm
            rcases hsign with rfl | rfl
            · refine ⟨?_, ⟨rfl, by simp⟩, by simp⟩
              simp [hh'.1.1, hh'.2.1, hm'.1.1, hm'.2.1]
            · refine ⟨?_, ⟨rfl, by simp⟩, by simp⟩
              simp [hh'.1.1, hh'.2.1, hm'.1.1, hm'.2.1]
          · cases h
      · cases h
  · cases h

/-- A time the warehouse reads is one the job reads. -/
theorem timestampOf_of_instant {text : Text} {t : Int}
    (h : text.instant = some t) : timestampOf text = .ok t := by
  cases text with
  | millis n =>
      obtain rfl := Option.some.inj h
      rfl
  | other s =>
      unfold Text.instant timestamp at h
      dsimp only at h
      cases hscan : scan s.toList with
      | none =>
          rw [hscan] at h
          cases h
      | some sc =>
          obtain ⟨civil, htext, hinner, hrest⟩ := scan_split hscan
          have hcivil : replaceZ civil = civil :=
            replaceZ_of_ne fun c hc => (hinner c hc).1
          rw [hscan] at h
          dsimp only at h
          split at h
          · cases h
          · unfold timestampOf
            dsimp only
            rw [htext, replaceZ_append, hcivil]
            by_cases hzone : sc.zone = []
            · have hopens : Opens [] := ⟨rfl, by simp⟩
              simp only [hzone, if_true, Option.map_some, sub_zero,
                Option.some.injEq] at h
              rw [hzone, fromisoformat]
              have hnil : replaceZ [] = [] := rfl
              rw [hnil, hrest [] hopens]
              simp [Except.map, h]
            · rw [if_neg hzone] at h
              obtain ⟨o, ho, rfl⟩ := Option.map_eq_some_iff.mp h
              rcases zone_of_offset ho with hz | ⟨hz, hopens, hne⟩
              · have hzero : o = 0 := by
                  rw [hz] at ho
                  exact (Option.some.inj ho).symm
                have hutc : replaceZ sc.zone
                    = ['+', '0', '0', ':', '0', '0'] := by
                  rw [hz]
                  rfl
                have hopens : Opens ['+', '0', '0', ':', '0', '0'] :=
                  ⟨rfl, by decide⟩
                have hoffset : offset ['+', '0', '0', ':', '0', '0']
                    = some 0 := by decide
                rw [hutc, fromisoformat, hrest _ hopens]
                simp [Except.map, hoffset, hzero]
              · rw [replaceZ_of_ne hz, fromisoformat, hrest _ hopens]
                simp [Except.map, hne, ho]

theorem grouped_of_notMem {cs : List Char} (h : '_' ∉ cs) (b : Bool) :
    grouped b cs = true := by
  induction cs generalizing b with
  | nil => rfl
  | cons c cs ih =>
      rw [List.mem_cons, not_or] at h
      unfold grouped
      rw [if_neg (Ne.symm h.1)]
      exact ih h.2 _

/-- A number the warehouse reads is one the job reads. -/
theorem isFloat_of_castNumeric {text : String} {q : ℚ}
    (h : castNumeric text = some q) : isFloat text = true := by
  unfold castNumeric at h
  rw [Option.bind_eq_bind, Option.bind_eq_some_iff] at h
  obtain ⟨q', hparse, -⟩ := h
  have hnot := notMem_of_parse hparse
  have hfilter : (strip text.toList).filter (fun c => c ≠ '_')
      = strip text.toList := by
    refine List.filter_eq_self.mpr fun c hc => ?_
    rw [decide_eq_true_eq]
    rintro rfl
    exact hnot hc
  unfold isFloat
  simp only [grouped_of_notMem hnot, hfilter, hparse, Option.isSome_some,
    Bool.and_true, Bool.or_true]

/-- A message the batch can stage is one the job can parse, into the same
minute. -/
theorem windowOf_of_derived {r : RawTrade} {st : StgTrade}
    (h : derived r = some st) {m : Trade} (hprice : m.price = r.price)
    (hsize : m.size = r.size) (htime : m.eventTime = r.eventTime) :
    windowOf fl m = some (m.productId, st.eventMinute) := by
  simp only [derived, Option.bind_eq_bind, Option.bind_eq_some_iff,
    Option.pure_def, Option.some.injEq] at h
  obtain ⟨price, hp, size, hs, t, ht, -, -, -, -, rfl⟩ := h
  have hread : ParseTrade.process fl m = .ok {
      productId := m.productId
      tradeId := m.tradeId
      price := fl.ofText m.price
      size := fl.ofText m.size
      timestamp := t } := by
    unfold ParseTrade.process pyFloat
    rw [htime, timestampOf_of_instant ht, hprice, hsize,
      isFloat_of_castNumeric hp, isFloat_of_castNumeric hs]
    rfl
  rw [windowOf, hread]
  rfl

-- ================================================== the rows of the query

section Rows

variable {E : Engine} {panes : List StreamBar} {bars : List Bar}
  {activity : List PaneActivity} {jobs : List JobBoundaries}
  {k : String × Int} {s : Option StreamBar} {b : Option Bar}

/-- A row for each window that either side has. -/
theorem mem_fctStreamBatchRecon {r : ReconRow} :
    r ∈ fctStreamBatchRecon E panes bars
      ↔ ∃ k s b, (s.isSome ∨ b.isSome)
        ∧ RowAt StreamBar.key (streamingFinal E panes) k s
        ∧ RowAt Bar.key bars k b
        ∧ reconRow (paneActivity panes)
            (jobBoundaries (streamingFinal E panes)) (batchFrontier bars)
            k s b = r := by
  have hkey : ∀ {k : String × Int} {s : Option StreamBar} {b : Option Bar},
      (s.isSome ∨ b.isSome) →
      RowAt StreamBar.key (streamingFinal E panes) k s →
      RowAt Bar.key bars k b →
      (s.map StreamBar.key).or (b.map Bar.key) = some k := by
    intro k s b hsome hs hb
    cases s with
    | some s => exact congrArg some hs.2
    | none =>
        cases b with
        | some b => exact congrArg some hb.2
        | none => simp at hsome
  unfold fctStreamBatchRecon
  dsimp only
  rw [List.mem_filterMap]
  constructor
  · intro h
    obtain ⟨⟨s, b⟩, hmem, hr⟩ := h
    obtain ⟨hsome, k, hs, hb⟩ := mem_fullOuterJoin_iff.mp hmem
    rw [hkey hsome hs hb, Option.map_some, Option.some.injEq] at hr
    exact ⟨k, s, b, hsome, hs, hb, hr⟩
  · intro h
    obtain ⟨k, s, b, hsome, hs, hb, rfl⟩ := h
    refine ⟨(s, b), mem_fullOuterJoin_iff.mpr ⟨hsome, k, hs, hb⟩, ?_⟩
    rw [hkey hsome hs hb, Option.map_some]

/-- A window is before the frontier when the batch has built a later one
of its product. -/
theorem atBatchFrontier_iff :
    (reconRow activity jobs (batchFrontier bars) k s b).atBatchFrontier
        = some false
      ↔ ∃ bar ∈ bars, bar.productId = k.1 ∧ k.2 < bar.barStart := by
  have hkey : ∀ (p : String) (rows : List Bar), BatchFrontier.productId
      ⟨p, maxOf (rows.map Bar.barStart)⟩ = p := fun _ _ => rfl
  show (((batchFrontier bars).find? fun f => f.productId = k.1).bind
    BatchFrontier.latestBuiltWindow).map (fun t => decide (t ≤ k.2))
      = some false ↔ _
  by_cases hp : k.1 ∈ groups Bar.productId bars
  · rw [batchFrontier, find?_groupBy hkey hp, Option.bind_some,
      Option.map_eq_some_iff]
    constructor
    · intro h
      obtain ⟨t, hmax, hlt⟩ := h
      obtain ⟨bar, hbar, rfl⟩ := List.mem_map.mp (mem_of_maxOf hmax)
      obtain ⟨hmem, hproduct⟩ := mem_group.mp hbar
      exact ⟨bar, hmem, hproduct, not_le.mp (of_decide_eq_false hlt)⟩
    · intro h
      obtain ⟨bar, hbar, hproduct, hlt⟩ := h
      have hmem : bar.barStart
          ∈ (group Bar.productId bars k.1).map Bar.barStart :=
        List.mem_map_of_mem (mem_group.mpr ⟨hbar, hproduct⟩)
      obtain ⟨t, hmax⟩ := exists_maxOf hmem
      have hle := (maxOf_eq_some_iff.mp hmax).2 _ hmem
      exact ⟨t, hmax, decide_eq_false (not_le.mpr (hlt.trans_le hle))⟩
  · rw [batchFrontier, find?_groupBy_eq_none hkey hp]
    constructor
    · intro h
      cases h
    · intro h
      obtain ⟨bar, hbar, hproduct, -⟩ := h
      exact absurd (mem_groups.mpr ⟨bar, hbar, hproduct⟩) hp

/-- Before the frontier the two reasons that say something is broken are
given where streaming counts more. By the branches of the CASE, with a
missing side counted as none. -/
theorem broken_iff {stream batch : Option Nat} {first last : Option Bool}
    (hpos : ∀ n ∈ stream, 0 < n) :
    (divergenceReason stream.isSome batch.isSome stream batch first last
          (some false) = .missingFromBatch
      ∨ divergenceReason stream.isSome batch.isSome stream batch first last
          (some false) = .overCount)
      ↔ batch.getD 0 < stream.getD 0 := by
  unfold divergenceReason
  cases stream with
  | none =>
      cases batch with
      | none => simp [less]
      | some m => simp
  | some n =>
      cases batch with
      | none => simp [hpos n rfl]
      | some m =>
          rcases lt_trichotomy n m with hlt | rfl | hlt
          · have hnot : ¬ m < n := hlt.not_gt
            by_cases hfirst : first = some true
            · simp [less, hlt, hnot, hfirst]
            · by_cases hlast : last = some true
              · simp [less, hlt, hnot, hfirst, hlast]
              · simp [less, hlt, hnot, hfirst, hlast]
          · simp [less]
          · simp [less, hlt, hlt.not_gt]

end Rows

-- ============================================================== the batch

/-- The window the batch counts a trade in. -/
def StgTrade.window (st : StgTrade) : String × Int :=
  (st.productId, st.eventMinute)

/-- The trade ids the batch counts in a window. -/
def stagedIds (w : String × Int) (staged : List StgTrade) : List Int :=
  (group StgTrade.window staged w).map StgTrade.tradeId

theorem mem_stagedIds {w : String × Int} {staged : List StgTrade} {i : Int} :
    i ∈ stagedIds w staged
      ↔ ∃ st ∈ staged, st.window = w ∧ st.tradeId = i := by
  simp only [stagedIds, List.mem_map, mem_group, and_assoc]

theorem nodup_stagedIds {staged : List StgTrade}
    (h : (staged.map StgTrade.key).Nodup) (w : String × Int) :
    (stagedIds w staged).Nodup := by
  refine List.Nodup.map_on ?_ (h.of_map.filter _)
  intro a ha b hb hid
  obtain ⟨ha, hwa⟩ := mem_group.mp ha
  obtain ⟨hb, hwb⟩ := mem_group.mp hb
  have hproduct : a.productId = b.productId :=
    congrArg Prod.fst (hwa.trans hwb.symm)
  exact List.inj_on_of_nodup_map h ha hb (Prod.ext hid hproduct)

/-- A raw row holds a message. -/
def RawTrade.Holds (r : RawTrade) (m : Trade) : Prop :=
  { r with publishTime := none, partitionTime := none }
    = RawTrade.ofMessage m none

/-- A batch that has seen the messages: the raw rows are they, and lie in
the window of a build whose bars are those of every trade it staged. -/
structure Seen (vars : Vars) (now : Int) (messages : List Trade)
    (rows : List RawTrade) (staged : List StgTrade) (bars : List Bar) :
    Prop where
  inWindow : ∀ r ∈ rows, rawPartitionFilter vars now r.partitionTime = true
  published : ∀ r ∈ rows, ∃ m ∈ messages, r.Holds m
  landed : ∀ m ∈ messages, ∃ r ∈ rows, r.Holds m
  view : ∃ E, stgTrades E vars now rows = some staged
  table : ∃ E, bars.Perm (fctBars1m E (fctTrades staged))

namespace Seen

variable {messages : List Trade} {rows : List RawTrade}
  {staged : List StgTrade} {bars : List Bar}

theorem nodup (h : Seen vars now messages rows staged bars) :
    (staged.map StgTrade.key).Nodup := by
  obtain ⟨E, hE⟩ := h.view
  obtain ⟨ss, -, rfl⟩ := Option.map_eq_some_iff.mp hE
  exact nodup_firstBy

/-- A staged trade is of a raw row that the filters keep. -/
theorem exists_row (h : Seen vars now messages rows staged bars)
    {st : StgTrade} (hst : st ∈ staged) :
    ∃ r ∈ rows, derived r = some st
      ∧ st.productId = r.productId ∧ st.tradeId = r.tradeId
      ∧ r.productId ∈ vars.trackedProducts
      ∧ r.tradeId ∉ vars.syntheticTradeIds := by
  obtain ⟨E, hE⟩ := h.view
  obtain ⟨ss, hss, rfl⟩ := Option.map_eq_some_iff.mp hE
  obtain ⟨-, rfl⟩ := mapM_eq_some_iff.mp hss
  obtain ⟨r, hr, hderived⟩ := List.mem_filterMap.mp (of_mem_firstBy hst).1
  obtain ⟨hr, hkeep⟩ := List.mem_filter.mp hr
  simp only [Bool.and_eq_true, decide_eq_true_eq] at hkeep
  refine ⟨r, hr, hderived, ?_, ?_, hkeep.1.2, hkeep.2⟩
  all_goals
    simp only [derived, Option.bind_eq_bind, Option.bind_eq_some_iff,
      Option.pure_def, Option.some.injEq] at hderived
    obtain ⟨_, -, _, -, _, -, _, -, _, -, rfl⟩ := hderived
    rfl

theorem tracked (h : Seen vars now messages rows staged bars)
    {st : StgTrade} (hst : st ∈ staged) :
    st.productId ∈ vars.trackedProducts
      ∧ st.tradeId ∉ vars.syntheticTradeIds := by
  obtain ⟨r, -, -, hproduct, hid, htracked, hgenuine⟩ := h.exists_row hst
  rw [hproduct, hid]
  exact ⟨htracked, hgenuine⟩

/-- A staged trade comes of a message of its window. -/
theorem exists_message (h : Seen vars now messages rows staged bars)
    (fl : Floats F) {st : StgTrade} (hst : st ∈ staged) :
    ∃ m ∈ messages, m.tradeId = st.tradeId
      ∧ windowOf fl m = some st.window := by
  obtain ⟨r, hr, hderived, hproduct, hid, -, -⟩ := h.exists_row hst
  obtain ⟨m, hm, hholds⟩ := h.published r hr
  obtain ⟨-, hmproduct, hmid, hprice, hsize, -, -, -, htime, -⟩ :=
    RawTrade.mk.inj hholds
  refine ⟨m, hm, ?_, ?_⟩
  · rw [hid, hmid]
  · rw [windowOf_of_derived hderived hprice.symm hsize.symm htime.symm,
      StgTrade.window, hproduct, hmproduct]

/-- A message of a tracked product that is not synthetic is staged. -/
theorem exists_staged (h : Seen vars now messages rows staged bars)
    {m : Trade} (hm : m ∈ messages)
    (htracked : m.productId ∈ vars.trackedProducts)
    (hgenuine : m.tradeId ∉ vars.syntheticTradeIds) :
    ∃ st ∈ staged, st.key = (m.tradeId, m.productId) := by
  obtain ⟨r, hr, hholds⟩ := h.landed m hm
  obtain ⟨-, hproduct, hrid, -⟩ := RawTrade.mk.inj hholds
  obtain ⟨E, hE⟩ := h.view
  obtain ⟨ss, hss, rfl⟩ := Option.map_eq_some_iff.mp hE
  obtain ⟨hsome, rfl⟩ := mapM_eq_some_iff.mp hss
  have hraw : r ∈ rawTrades vars now rows := by
    refine List.mem_filter.mpr ⟨hr, ?_⟩
    rw [h.inWindow r hr, hproduct, hrid]
    simp [htracked, hgenuine]
  obtain ⟨st, hst⟩ := Option.isSome_iff_exists.mp (hsome r hraw)
  have hkey : st.key = (m.tradeId, m.productId) := by
    simp only [derived, Option.bind_eq_bind, Option.bind_eq_some_iff,
      Option.pure_def, Option.some.injEq] at hst
    obtain ⟨_, -, _, -, _, -, _, -, _, -, rfl⟩ := hst
    exact Prod.ext hrid hproduct
  obtain ⟨st', hst', hsame⟩ : ∃ st' ∈ firstBy E StgTrade.key
      StgTrade.arrival ((rawTrades vars now rows).filterMap derived),
      st'.key = st.key :=
    exists_mem_firstBy (List.mem_filterMap.mpr ⟨r, hraw, hst⟩)
  exact ⟨st', hst', hsame.trans hkey⟩

theorem mem_bars (h : Seen vars now messages rows staged bars) {bar : Bar}
    (hbar : bar ∈ bars) :
    bar.tradeCount = (stagedIds bar.key staged).length := by
  obtain ⟨E, hperm⟩ := h.table
  obtain ⟨k, -, rfl⟩ := mem_groupBy.mp (hperm.mem_iff.mp hbar)
  show (group FctTrade.barKey (fctTrades staged) k).length
    = (stagedIds k staged).length
  rw [fctTrades, group, List.filter_map, List.length_map, stagedIds,
    List.length_map]
  rfl

theorem mem_groups_bars (h : Seen vars now messages rows staged bars)
    {w : String × Int} :
    w ∈ groups Bar.key bars ↔ ∃ st ∈ staged, st.window = w := by
  obtain ⟨E, hperm⟩ := h.table
  have hkey : ∀ k rows, (barOf E k rows).key = k := fun _ _ => rfl
  rw [groups, List.mem_dedup, (hperm.map Bar.key).mem_iff, fctBars1m,
    map_groupBy hkey, mem_groups]
  simp only [fctTrades, List.mem_map]
  constructor
  · intro hw
    obtain ⟨_, ⟨st, hst, rfl⟩, hwindow⟩ := hw
    exact ⟨st, hst, hwindow⟩
  · intro hw
    obtain ⟨st, hst, hwindow⟩ := hw
    exact ⟨_, ⟨st, hst, rfl⟩, hwindow⟩

end Seen

-- ================================================= streaming against batch

/-- What the reconciliation should show of a window the batch has built:
streaming counts no more than batch, and as much when the job has read
and fired everything and dropped nothing of the window, and nothing is
called broken. -/
structure Reconciled (fl : Floats F) (messages : List Trade)
    (events : List JobEvent) (r : ReconRow) : Prop where
  atMost : 0 ≤ r.tradeCountDiff
  exact : (arrivals events).Perm messages → Drained (run fl events) →
    NoneLate fl r.key events → r.tradeCountDiff = 0
  missing : r.divergenceReason ≠ .missingFromBatch
  overCount : r.divergenceReason ≠ .overCount

/-- Whatever the job has read of the messages, in whatever order, and
whatever was late and whenever windows fired: every window before the
frontier is reconciled. -/
def NeverOverCounts (fl : Floats F) (E : Engine) (messages : List Trade)
    (bars : List Bar) : Prop :=
  ∀ events, (arrivals events).Subperm messages →
    ∀ r ∈ fctStreamBatchRecon E ((run fl events).written fl) bars,
      r.atBatchFrontier = some false → Reconciled fl messages events r

/-- The messages of a window are trades that the batch counts in it, each
once. -/
structure CountedOnce (fl : Floats F) (vars : Vars) (messages : List Trade)
    (staged : List StgTrade) (w : String × Int) : Prop where
  distinct : (idsOf fl w messages).Nodup
  genuine : ∀ m ∈ messages, windowOf fl m = some w →
    m.tradeId ∉ vars.syntheticTradeIds
  sameMinute : ∀ m ∈ messages, windowOf fl m = some w → ∀ st ∈ staged,
    st.key = (m.tradeId, m.productId) → st.window = w

/-- The batch has staged a trade of a later minute of the product. -/
def BeforeFrontier (staged : List StgTrade) (w : String × Int) : Prop :=
  ∃ st ∈ staged, st.productId = w.1 ∧ w.2 < st.eventMinute

section Compare

variable {E : Engine} {messages : List Trade} {rows : List RawTrade}
  {staged : List StgTrade} {bars : List Bar} {events : List JobEvent}

theorem mem_idsOf {w : String × Int} {trades : List Trade} {i : Int} :
    i ∈ idsOf fl w trades
      ↔ ∃ m ∈ trades, windowOf fl m = some w ∧ m.tradeId = i := by
  simp only [idsOf, List.mem_map, List.mem_filter, decide_eq_true_eq,
    and_assoc]

theorem productId_of_windowOf {m : Trade} {w : String × Int}
    (h : windowOf fl m = some w) : m.productId = w.1 := by
  unfold windowOf at h
  cases he : ParseTrade.process fl m with
  | error x =>
      rw [he] at h
      cases h
  | ok e =>
      rw [he] at h
      obtain rfl := Option.some.inj h
      exact (of_parseTrade he).1.symm

/-- Every trade the batch counts in a window was read for it. -/
theorem stagedIds_subset (h : Seen vars now messages rows staged bars)
    (fl : Floats F) (w : String × Int) :
    stagedIds w staged ⊆ idsOf fl w messages := by
  intro i hi
  obtain ⟨st, hst, rfl, rfl⟩ := mem_stagedIds.mp hi
  obtain ⟨m, hm, hid, hwindow⟩ := h.exists_message fl hst
  exact mem_idsOf.mpr ⟨m, hm, hwindow, hid⟩

/-- In a window of trades that the batch counts once, every message read
is one of them. -/
theorem CountedOnce.subset (h : Seen vars now messages rows staged bars)
    {w : String × Int} (hbefore : BeforeFrontier staged w)
    (hw : CountedOnce fl vars messages staged w) :
    idsOf fl w messages ⊆ stagedIds w staged := by
  intro i hi
  obtain ⟨m, hm, hwindow, rfl⟩ := mem_idsOf.mp hi
  obtain ⟨later, hlater, hproduct, -⟩ := hbefore
  have htracked : m.productId ∈ vars.trackedProducts := by
    rw [productId_of_windowOf hwindow, ← hproduct]
    exact (h.tracked hlater).1
  obtain ⟨st, hst, hkey⟩ :=
    h.exists_staged hm htracked (hw.genuine m hm hwindow)
  exact mem_stagedIds.mpr ⟨st, hst, hw.sameMinute m hm hwindow st hst hkey,
    congrArg Prod.fst hkey⟩

/-- Messages that are as many as the trades the batch counts in their
window are those trades. -/
theorem countedOnce_of_length (h : Seen vars now messages rows staged bars)
    {w : String × Int}
    (hlength : (idsOf fl w messages).length = (stagedIds w staged).length) :
    CountedOnce fl vars messages staged w := by
  have hperm : (stagedIds w staged).Perm (idsOf fl w messages) :=
    (List.subperm_of_subset (nodup_stagedIds h.nodup w)
      (stagedIds_subset h fl w)).perm_of_length_le hlength.le
  have hstaged : ∀ m ∈ messages, windowOf fl m = some w →
      ∃ st ∈ staged, st.window = w ∧ st.tradeId = m.tradeId :=
    fun m hm hwindow => mem_stagedIds.mp
      (hperm.mem_iff.mpr (mem_idsOf.mpr ⟨m, hm, hwindow, rfl⟩))
  refine ⟨hperm.nodup_iff.mp (nodup_stagedIds h.nodup w), ?_, ?_⟩
  · intro m hm hwindow
    obtain ⟨st, hst, -, hid⟩ := hstaged m hm hwindow
    rw [← hid]
    exact (h.tracked hst).2
  · intro m hm hwindow st hst hkey
    obtain ⟨st', hst', hw, hid⟩ := hstaged m hm hwindow
    have hproduct : st'.productId = m.productId := by
      rw [productId_of_windowOf hwindow]
      exact congrArg Prod.fst hw
    have hsame : st = st' := List.inj_on_of_nodup_map h.nodup hst hst'
      (hkey.trans (Prod.ext hid.symm hproduct.symm))
    rw [hsame]
    exact hw

theorem Seen.beforeFrontier_iff
    (h : Seen vars now messages rows staged bars) {w : String × Int} :
    (∃ bar ∈ bars, bar.productId = w.1 ∧ w.2 < bar.barStart)
      ↔ BeforeFrontier staged w := by
  constructor
  · intro hbar
    obtain ⟨bar, hbar, hproduct, hlt⟩ := hbar
    obtain ⟨st, hst, hwindow⟩ := h.mem_groups_bars.mp
      (mem_groups.mpr ⟨bar, hbar, rfl⟩)
    obtain ⟨hp, hm⟩ := Prod.mk.inj hwindow
    refine ⟨st, hst, ?_, ?_⟩
    · rw [hp, hproduct]
    · rw [hm]
      exact hlt
  · intro hst
    obtain ⟨st, hst, hproduct, hlt⟩ := hst
    obtain ⟨bar, hbar, hkey⟩ := mem_groups.mp
      (h.mem_groups_bars.mpr ⟨st, hst, rfl⟩)
    obtain ⟨hp, hm⟩ := Prod.mk.inj hkey
    refine ⟨bar, hbar, ?_, ?_⟩
    · rw [hp, hproduct]
    · rw [hm]
      exact hlt

theorem tracked_of_mem_bars (h : Seen vars now messages rows staged bars)
    {bar : Bar} (hbar : bar ∈ bars) :
    bar.productId ∈ vars.trackedProducts := by
  obtain ⟨st, hst, hwindow⟩ := h.mem_groups_bars.mp
    (mem_groups.mpr ⟨bar, hbar, rfl⟩)
  have hproduct : st.productId = bar.productId := congrArg Prod.fst hwindow
  rw [← hproduct]
  exact (h.tracked hst).1

/-- A product that is not tracked has no frontier, and every window of it
is called broken. -/
theorem untracked_missing_from_batch
    (h : Seen vars now messages rows staged bars) {panes : List StreamBar}
    {r : ReconRow} (hr : r ∈ fctStreamBatchRecon E panes bars)
    (hproduct : r.productId ∉ vars.trackedProducts) :
    r.atBatchFrontier = none ∧ r.divergenceReason = .missingFromBatch := by
  obtain ⟨k, s, b, hsome, -, hb, hrow⟩ := mem_fctStreamBatchRecon.mp hr
  have hk : r.productId = k.1 := by
    rw [← hrow]
    rfl
  rw [hk] at hproduct
  have hnone : ∀ bar ∈ bars, bar.productId ≠ k.1 := fun bar hbar heq =>
    hproduct (heq ▸ tracked_of_mem_bars h hbar)
  have hfrontier : (batchFrontier bars).find? (fun f => f.productId = k.1)
      = none := by
    have hkey : ∀ (p : String) (rows : List Bar), BatchFrontier.productId
        ⟨p, maxOf (rows.map Bar.barStart)⟩ = p := fun _ _ => rfl
    apply find?_groupBy_eq_none hkey
    intro hmem
    obtain ⟨bar, hbar, heq⟩ := mem_groups.mp hmem
    exact hnone bar hbar heq
  cases b with
  | some b => exact absurd (congrArg Prod.fst hb.2) (hnone b hb.1)
  | none =>
      cases s with
      | none => simp at hsome
      | some s =>
          rw [← hrow]
          simp [reconRow, divergenceReason, hfrontier]

/-- The row of a window: the batch count is of its staged trades, the
stream count of the messages read for it. -/
structure Tallied (fl : Floats F) (staged : List StgTrade)
    (events : List JobEvent) (r : ReconRow) : Prop where
  least : ((stagedIds r.key staged).length : Int)
    - (idsOf fl r.key (kept events)).length ≤ r.tradeCountDiff
  drained : Drained (run fl events) → r.tradeCountDiff
    = ((stagedIds r.key staged).length : Int)
      - (idsOf fl r.key (kept events)).length
  frontier : r.atBatchFrontier = some false ↔ BeforeFrontier staged r.key
  broken : r.atBatchFrontier = some false →
    ((r.divergenceReason = .missingFromBatch
      ∨ r.divergenceReason = .overCount) ↔ r.tradeCountDiff < 0)

/-- What streaming counts of a window: no more than the messages kept of
it, each as often as it was read, and all of them when the job is
drained. A window without a final bar counts as none. -/
theorem streamCount_spec (E : Engine) (fl : Floats F)
    (events : List JobEvent) {k : String × Int} {s : Option StreamBar}
    (hs : RowAt StreamBar.key
      (streamingFinal E ((run fl events).written fl)) k s) :
    (s.map StreamBar.tradeCount).getD 0
        ≤ (idsOf fl k (kept events)).length
      ∧ (Drained (run fl events) → (s.map StreamBar.tradeCount).getD 0
        = (idsOf fl k (kept events)).length) := by
  have hjob := accumulates_run fl events
  have hread : (group Element.window (run fl events).elements k).length
      = (idsOf fl k (kept events)).length := by
    rw [← tradeIds_run, List.length_map]
  rw [← hread]
  cases s with
  | some s =>
      obtain ⟨hs, rfl⟩ := hs
      exact ⟨(tradeCount_le hjob hs).2,
        fun hdrained => tradeCount_of_drained hjob hdrained hs⟩
  | none =>
      refine ⟨Nat.zero_le _, fun hdrained => ?_⟩
      rw [group_eq_nil_of_drained hdrained hs]
      rfl

/-- What the batch counts of a window: the trades staged in it. -/
theorem batchCount_eq (h : Seen vars now messages rows staged bars)
    {k : String × Int} {b : Option Bar} (hb : RowAt Bar.key bars k b) :
    (b.map Bar.tradeCount).getD 0 = (stagedIds k staged).length := by
  cases b with
  | some b =>
      obtain ⟨hb, rfl⟩ := hb
      exact h.mem_bars hb
  | none =>
      have hnil : stagedIds k staged = [] := by
        refine List.eq_nil_iff_forall_not_mem.mpr fun i hi => hb ?_
        obtain ⟨st, hst, hwindow, -⟩ := mem_stagedIds.mp hi
        exact h.mem_groups_bars.mpr ⟨st, hst, hwindow⟩
      rw [hnil]
      rfl

/-- What a row of the comparison counts: the counts of its window on
either side, and the frontier and the reasons as they follow from
them. -/
theorem tallied_of_mem (h : Seen vars now messages rows staged bars)
    {r : ReconRow}
    (hr : r ∈ fctStreamBatchRecon E ((run fl events).written fl) bars) :
    Tallied fl staged events r := by
  obtain ⟨k, s, b, -, hs, hb, hrow⟩ := mem_fctStreamBatchRecon.mp hr
  have hkey : r.key = k := by
    rw [← hrow]
    rfl
  obtain ⟨hstream, hdrained⟩ := streamCount_spec E fl events hs
  have hbatch := batchCount_eq h hb
  have hdiff : r.tradeCountDiff = ((stagedIds k staged).length : Int)
      - ((s.map StreamBar.tradeCount).getD 0 : Nat) := by
    rw [← hbatch, ← hrow]
    rfl
  constructor
  · rw [hkey, hdiff]
    omega
  · intro hfired
    rw [hkey, hdiff, hdrained hfired]
  · rw [hkey, ← hrow, atBatchFrontier_iff]
    exact h.beforeFrontier_iff
  · intro hfrontier
    have hpos : ∀ n ∈ s.map StreamBar.tradeCount, 0 < n := by
      intro n hn
      obtain ⟨bar, rfl, rfl⟩ := Option.map_eq_some_iff.mp hn
      exact (tradeCount_le (accumulates_run fl events) hs.1).1
    have hreason : r.divergenceReason = divergenceReason
        (s.map StreamBar.tradeCount).isSome (b.map Bar.tradeCount).isSome
        (s.map StreamBar.tradeCount) (b.map Bar.tradeCount)
        r.isFirstWindow r.isLastWindow (some false) := by
      rw [← hfrontier, ← hrow, Option.isSome_map, Option.isSome_map]
      rfl
    rw [hreason, broken_iff hpos, hbatch, hdiff]
    omega

/-- A window of trades that the batch counts once is reconciled. The ids
kept of it are among the ids of its messages, which are distinct and
staged in the window. -/
theorem reconciled_of_countedOnce
    (h : Seen vars now messages rows staged bars)
    (hread : (arrivals events).Subperm messages) {r : ReconRow}
    (hr : r ∈ fctStreamBatchRecon E ((run fl events).written fl) bars)
    (hfrontier : r.atBatchFrontier = some false)
    (honce : CountedOnce fl vars messages staged r.key) :
    Reconciled fl messages events r := by
  have hrow := tallied_of_mem h hr
  have hsubset := CountedOnce.subset h (hrow.frontier.mp hfrontier) honce
  have hsub : (idsOf fl r.key (kept events)).Subperm
      (idsOf fl r.key messages) :=
    (idsOf_sublist (kept_sublist events) r.key).subperm.trans
      (idsOf_subperm hread r.key)
  have hle : (idsOf fl r.key (kept events)).length
      ≤ (stagedIds r.key staged).length :=
    (hsub.trans (List.subperm_of_subset honce.distinct hsubset)).length_le
  have hge : 0 ≤ r.tradeCountDiff := by
    have hleast := hrow.least
    omega
  have hnot := (not_congr (hrow.broken hfrontier)).mpr hge.not_gt
  rw [not_or] at hnot
  refine ⟨hge, fun hperm hdrained hlate => ?_, hnot.1, hnot.2⟩
  have hall : (stagedIds r.key staged).length
      ≤ (idsOf fl r.key messages).length :=
    (List.subperm_of_subset (nodup_stagedIds h.nodup r.key)
      (stagedIds_subset h fl r.key)).length_le
  rw [← (idsOf_perm hperm r.key).length_eq, ← idsOf_kept hlate] at hall
  rw [hrow.drained hdrained]
  omega

/-- If nothing of a window is ever over-counted, its messages are the
trades the batch counts in it: the run that drops nothing and fires
every window shows them all. -/
theorem countedOnce_of_neverOverCounts
    (h : Seen vars now messages rows staged bars)
    (hnever : NeverOverCounts fl E messages bars) {w : String × Int}
    (hbefore : BeforeFrontier staged w) :
    CountedOnce fl vars messages staged w := by
  have hread := arrivals_drain fl messages
  have hdrained := drained_drain fl messages
  have hkept : idsOf fl w (kept (drain fl messages)) = idsOf fl w messages := by
    rw [idsOf_kept (noneLate_drain messages w), hread]
  obtain ⟨s, hs⟩ := exists_rowAt StreamBar.key
    (streamingFinal E ((run fl (drain fl messages)).written fl)) w
  obtain ⟨b, hb⟩ := exists_rowAt Bar.key bars w
  by_cases hsome : s.isSome ∨ b.isSome
  · have hr := mem_fctStreamBatchRecon.mpr ⟨w, s, b, hsome, hs, hb, rfl⟩
    have hrow := tallied_of_mem h hr
    have hperm : (arrivals (drain fl messages)).Perm messages :=
      List.Perm.of_eq hread
    have hexact := (hnever _ hperm.subperm _ hr
      (hrow.frontier.mpr hbefore)).exact hperm hdrained
        (noneLate_drain messages w)
    apply countedOnce_of_length h
    rw [hrow.drained hdrained] at hexact
    show (idsOf fl w messages).length = _
    rw [← hkept]
    have hw : (stagedIds w staged).length
        = ((idsOf fl w (kept (drain fl messages))).length : Int) :=
      sub_eq_zero.mp hexact
    exact_mod_cast hw.symm
  · -- neither side has the window
    rw [not_or, Option.not_isSome_iff_eq_none, Option.not_isSome_iff_eq_none]
      at hsome
    obtain ⟨rfl, rfl⟩ := hsome
    apply countedOnce_of_length h
    have hstream : idsOf fl w messages = [] := by
      rw [← hkept, ← tradeIds_run, group_eq_nil_of_drained hdrained hs]
      rfl
    have hsubset := stagedIds_subset h fl w
    rw [hstream] at hsubset ⊢
    rw [List.subset_nil.mp hsubset]

/-- Streaming never counts more than batch before the frontier, whatever
is late, if and only if every message of a window there is a trade that
the batch counts in the window, and is published once. -/
theorem stream_at_most_batch_iff (fl : Floats F) (E : Engine)
    (h : Seen vars now messages rows staged bars) :
    NeverOverCounts fl E messages bars
      ↔ ∀ w, BeforeFrontier staged w →
        CountedOnce fl vars messages staged w := by
  constructor
  · intro hnever w hbefore
    exact countedOnce_of_neverOverCounts h hnever hbefore
  · intro honce events hread r hr hfrontier
    have hbefore := (tallied_of_mem h hr).frontier.mp hfrontier
    exact reconciled_of_countedOnce h hread hr hfrontier
      (honce r.key hbefore)

end Compare

-- ============================================================ a reconnect

/-- A first or full build, with all it reads inside the window, has seen
the messages of its rows. -/
theorem seen_of_build {history : List Delivery} {b : Run} {full : Bool}
    {tables : Option Tables} {T : Tables} {messages : List Trade}
    {staged : List StgTrade} (hfull : tables = none ∨ full = true)
    (hwindow : ∀ r ∈ snapshotAt history b.now,
      rawPartitionFilter vars b.now r.partitionTime = true)
    (hpublished : ∀ r ∈ snapshotAt history b.now, ∃ m ∈ messages, r.Holds m)
    (hlanded : ∀ m ∈ messages, ∃ r ∈ snapshotAt history b.now, r.Holds m)
    (hstaged : b.staged vars history = some staged)
    (hbuild : build vars history full tables b = some T) :
    Seen vars b.now messages (snapshotAt history b.now) staged T.bars1m where
  inWindow := hwindow
  published := hpublished
  landed := hlanded
  view := ⟨b.engine, hstaged⟩
  table := by
    unfold build at hbuild
    rw [hstaged] at hbuild
    obtain rfl := Option.some.inj hbuild
    refine ⟨b.engine, List.Perm.of_eq ?_⟩
    rcases hfull with rfl | rfl
    · rfl
    · cases tables with
      | none => rfl
      | some T => rfl

/-- So has the last of a schedule of incremental builds, if every date is
inside its lookback and the copies of a trade have one date. -/
theorem seen_of_builds {history : List Delivery} (hdate : OneDate history)
    {bs : List Run} {b : Run} (hbs : ∀ b' ∈ bs, b'.now ≤ b.now)
    {T : Tables} {messages : List Trade} {staged : List StgTrade}
    (hwindow : ∀ r ∈ snapshotAt history b.now,
      rawPartitionFilter vars b.now r.partitionTime = true)
    (hpublished : ∀ r ∈ snapshotAt history b.now, ∃ m ∈ messages, r.Holds m)
    (hlanded : ∀ m ∈ messages, ∃ r ∈ snapshotAt history b.now, r.Holds m)
    (hstaged : b.staged vars history = some staged)
    (hin : ∀ s ∈ staged, inLookback vars b.now s.eventDate = true)
    (hbuild : builds vars history none (bs ++ [b]) = some T) :
    Seen vars b.now messages (snapshotAt history b.now) staged T.bars1m where
  inWindow := hwindow
  published := hpublished
  landed := hlanded
  view := ⟨b.engine, hstaged⟩
  table := by
    have htrades := trades_of_builds hdate hbs hwindow hstaged hin hbuild
    have hkeys : (T.trades.map FctTrade.key).Nodup :=
      (htrades.map FctTrade.key).nodup_iff.mpr
        (nodup_fctTrades (firsts_staged hstaged).nodup)
    exact ⟨b.engine, ((sound_of_builds hbuild).bars1m_perm b.engine).trans
      (fctBars1m_perm htrades hkeys)⟩

/-- Python's doubles, in their normal range; `round` takes ties to
even. -/
def doubles : Floats ℚ where
  ofText := fun text => float64 ((parse (strip text.toList)).getD 0)
  mul := fun a b => float64 (a * b)
  div := fun a b => float64 (a / b)
  sum := fun xs => xs.foldl (fun a b => float64 (a + b)) 0
  max := fun xs => (maxOf xs).getD 0
  min := fun xs => (minOf xs).getD 0
  isZero := fun a => a = 0
  round9 := fun a => roundEven (a * 10 ^ 9) / 10 ^ 9

/-- A match of BTC-USD, or the last match that a new connection repeats,
at a second of the epoch. -/
def tradeCall (type : String) (tradeId : Int) (time : String) :
    MessageHandler.Call :=
  .handle (.obj [("type", .str type), ("product_id", .str "BTC-USD"),
    ("trade_id", .int tradeId), ("sequence", .int 1),
    ("price", .str "100.5"), ("size", .str "0.1"), ("side", .str "buy"),
    ("time", .str time)]) (90 * second)

/-- What the consumer publishes of two trades, a minute apart. -/
def quietTrades : List Trade :=
  (MessageHandler.after ["BTC-USD"] RecordingPublisher
    [tradeCall "match" 10 "1970-01-01T00:00:01Z",
      tradeCall "match" 11 "1970-01-01T00:01:01Z"]).publisher.trades

/-- The same with a reconnect between them. -/
def reconnectTrades : List Trade :=
  (MessageHandler.after ["BTC-USD"] RecordingPublisher
    [tradeCall "match" 10 "1970-01-01T00:00:01Z", .onDisconnect,
      tradeCall "last_match" 10 "1970-01-01T00:00:01Z",
      tradeCall "match" 11 "1970-01-01T00:01:01Z"]).publisher.trades

/-- The raw table of messages, and a build over it. -/
def historyOf (messages : List Trade) : List Delivery :=
  messages.map fun m => ⟨RawTrade.ofMessage m none, 0, 0, 0⟩

def firstBuild : Run := ⟨90 * second, Engine.inOrder⟩

def stagedOf (messages : List Trade) : List StgTrade :=
  (firstBuild.staged {} (historyOf messages)).getD []

def barsOf (messages : List Trade) : List Bar :=
  ((build {} (historyOf messages) false none firstBuild).map
    Tables.bars1m).getD []

theorem seen_barsOf {messages : List Trade}
    (h : (firstBuild.staged {} (historyOf messages)).isSome) :
    Seen {} (90 * second) messages
      (snapshotAt (historyOf messages) (90 * second))
      (stagedOf messages) (barsOf messages) := by
  obtain ⟨staged, hstaged⟩ := Option.isSome_iff_exists.mp h
  have hbuild : build {} (historyOf messages) false none firstBuild
      = some (buildMarts Engine.inOrder {} (90 * second) false staged
        none) := by
    unfold build
    rw [hstaged]
    rfl
  have hmem : ∀ r ∈ snapshotAt (historyOf messages) (90 * second),
      ∃ m ∈ messages, r = { RawTrade.ofMessage m none with
        partitionTime := some 0 } := by
    intro r hr
    obtain ⟨d, hd, rfl⟩ := List.mem_map.mp hr
    obtain ⟨m, hm, rfl⟩ := List.mem_map.mp (List.mem_filter.mp hd).1
    exact ⟨m, hm, rfl⟩
  rw [stagedOf, barsOf, hstaged, hbuild]
  refine seen_of_build (Or.inl rfl) ?_ ?_ ?_ hstaged hbuild
  · intro r hr
    obtain ⟨m, -, rfl⟩ := hmem r hr
    rfl
  · intro r hr
    obtain ⟨m, hm, rfl⟩ := hmem r hr
    exact ⟨m, hm, rfl⟩
  · intro m hm
    refine ⟨_, List.mem_map_of_mem (List.mem_filter.mpr
      ⟨List.mem_map_of_mem hm, rfl⟩), rfl⟩

/-- The last match of a reconnect is counted twice by the job and once by
the batch: the window is called broken. -/
theorem last_match_is_counted_twice :
    Seen {} (90 * second) reconnectTrades
        (snapshotAt (historyOf reconnectTrades) (90 * second))
        (stagedOf reconnectTrades) (barsOf reconnectTrades)
      ∧ ¬ NeverOverCounts doubles Engine.inOrder reconnectTrades
        (barsOf reconnectTrades)
      ∧ (fctStreamBatchRecon Engine.inOrder
          ((run doubles (drain doubles reconnectTrades)).written doubles)
          (barsOf reconnectTrades)).map (fun r => (r.key,
            r.streamTradeCount, r.batchTradeCount, r.atBatchFrontier,
            r.divergenceReason))
        = [(("BTC-USD", 0), some 2, some 1, some false, .overCount),
          (("BTC-USD", 60 * second), some 1, some 1, some true, .agree)] := by
  have hrows : ∃ r ∈ fctStreamBatchRecon Engine.inOrder
      ((run doubles (drain doubles reconnectTrades)).written doubles)
      (barsOf reconnectTrades),
      r.atBatchFrontier = some false ∧ r.tradeCountDiff < 0 := by
    decide +kernel
  refine ⟨seen_barsOf (by decide +kernel), fun hnever => ?_,
    by decide +kernel⟩
  obtain ⟨r, hr, hfrontier, hlt⟩ := hrows
  have hread := arrivals_drain doubles reconnectTrades
  have hatMost := (hnever _ (List.Perm.of_eq hread).subperm r hr
    hfrontier).atMost
  omega

/-- Without a reconnect nothing is over-counted, by a batch that was built
twice. -/
theorem stream_at_most_batch_iff_quiet :
    ∃ T, builds {} (historyOf quietTrades) none [firstBuild, firstBuild]
        = some T
      ∧ NeverOverCounts doubles Engine.inOrder quietTrades T.bars1m := by
  obtain ⟨T, hT⟩ : ∃ T, builds {} (historyOf quietTrades) none
      ([firstBuild] ++ [firstBuild]) = some T :=
    Option.isSome_iff_exists.mp (by decide +kernel)
  have hstaged : firstBuild.staged {} (historyOf quietTrades)
      = some (stagedOf quietTrades) := by decide +kernel
  have hrows : snapshotAt (historyOf quietTrades) firstBuild.now
      = quietTrades.map fun m => { RawTrade.ofMessage m none with
        partitionTime := some 0 } := by decide +kernel
  have hseen : Seen {} firstBuild.now quietTrades
      (snapshotAt (historyOf quietTrades) firstBuild.now)
      (stagedOf quietTrades) T.bars1m := by
    refine seen_of_builds (by decide +kernel) (by decide +kernel)
      (by decide +kernel) (fun r hr => ?_) (fun m hm => ?_) hstaged
      (by decide +kernel) hT
    · rw [hrows] at hr
      obtain ⟨m, hm, rfl⟩ := List.mem_map.mp hr
      exact ⟨m, hm, rfl⟩
    · rw [hrows]
      exact ⟨_, List.mem_map_of_mem hm, rfl⟩
  refine ⟨T, hT, ?_⟩
  refine (stream_at_most_batch_iff doubles Engine.inOrder hseen).mpr ?_
  intro w _
  have hgenuine : ∀ m ∈ quietTrades,
      m.tradeId ∉ ({} : Vars).syntheticTradeIds := by decide +kernel
  have hminute : ∀ m ∈ quietTrades, ∀ st ∈ stagedOf quietTrades,
      st.key = (m.tradeId, m.productId) →
      windowOf doubles m = some st.window := by decide +kernel
  have hdistinct : (quietTrades.map Trade.tradeId).Nodup := by
    decide +kernel
  refine ⟨hdistinct.sublist (List.filter_sublist.map _),
    fun m hm _ => hgenuine m hm, fun m hm hw st hst hkey => ?_⟩
  have hwindow := hminute m hm st hst hkey
  rw [hw] at hwindow
  exact (Option.some.inj hwindow).symm

end MarketPlatform.Warehouse
