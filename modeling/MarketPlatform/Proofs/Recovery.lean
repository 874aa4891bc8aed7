/-
Recovery through a backfill.

A gap in the live feed is filled by the script: it reads the missing
trades from the REST API and publishes them on the same topic as the
consumer. This module follows a trade on either path, from the exchange
to `fct_trades` and the minute bars.

# Copies

The two paths write a trade's record differently: the live one cuts its
time to milliseconds, the backfilled one keeps it and has neither a
sequence number nor order ids. Both are a `CopyOf` the trade, and a copy
of a trade is staged to one row (`RowOf`) up to the columns of its path
(`FctTrade.core`). So the bars of two tables with the same cores are the
same but for the ingest lag (`fctBars1m_of_cores`).

# From a topic to the tables

`Delivers`: every record of the topic reaches the raw table, each any
number of times and in any order, and nothing else does. `Inside`: it
has all arrived when a build runs and is inside the build's windows.
With that, the trades a build leaves are those it stages, whatever the
table held (`trades_of_inside`), which are one row for each trade the
topic has a record of (`Holds`).

# Later records

Which copy of a trade a partition holds is a matter of the earliest
ingest time. A backfill writes its records after the live ones
(`Later`), so a later copy never takes the place of one that is held
(`held_stays`), and a backfill of any range, run again, changes no row.

# The result

`recovery` puts the two ends together: the records the consumer
publishes for its calls, whichever of them raised (`Feed`), and those
the script publishes for its range (`Proofs/Backfill`).
-/
import MarketPlatform.Proofs.Backfill
import MarketPlatform.Proofs.Feed
import MarketPlatform.Proofs.Schedule
import MarketPlatform.Warehouse.Topic

namespace MarketPlatform.Warehouse

open Lib Lib.Rfc3339 Lib.Relation Lib.Partitioned
open Consumer Consumer.MessageHandler Scripts

-- ================================================================== copies

/-- A record of a trade, whichever path it came by. -/
structure CopyOf (x : ExchangeTrade) (m : Trade) : Prop where
  productId : m.productId = x.productId
  tradeId : m.tradeId = x.tradeId
  price : m.price = x.price
  size : m.size = x.size
  side : m.side = x.side
  eventTime : ∀ t, m.eventTime.instant = some t →
    t / millisecond = x.time / millisecond

theorem copyOf_backfilled {x : ExchangeTrade} {m : Trade}
    (h : Backfilled x m) : CopyOf x m :=
  ⟨h.productId, h.tradeId, h.price, h.size, h.side,
    fun t ht => by rw [h.eventTime t ht]⟩

/-- A message of the feed gives a trade. -/
structure Carries (x : ExchangeTrade) (msg : Json) : Prop where
  productId : item msg "product_id" = .ok (.str x.productId)
  fields : Reports x msg

theorem copyOf_live {x : ExchangeTrade} {msg : Json} {t lag : Int}
    {m : Trade} (h : Carries x msg) (hm : tradeOf msg t = .ok (m, lag)) :
    CopyOf x m := by
  obtain ⟨text, htext, hutc⟩ := h.fields.time
  have hid : (item msg "trade_id" >>= pyInt) = .ok x.tradeId :=
    h.fields.tradeId
  have htime : (item msg "time" >>= parseTime) = .ok ⟨x.time, true⟩ := by
    rw [htext, ok_bind, parseTime_of_utcText hutc]
  have hproduct : (item msg "product_id" >>= asKey) = .ok x.productId := by
    rw [h.productId]
    rfl
  simp only [tradeOf, hproduct, hid, htime, h.fields.price, h.fields.size,
    h.fields.side, ok_bind] at hm
  obtain ⟨_, -, hm⟩ := bind_ok hm
  obtain ⟨_, -, hm⟩ := bind_ok hm
  obtain ⟨_, -, hm⟩ := bind_ok hm
  obtain ⟨_, -, hm⟩ := bind_ok hm
  cases hm
  refine ⟨rfl, rfl, rfl, rfl, rfl, fun t' ht' => ?_⟩
  obtain rfl := Option.some.inj ht'
  exact Int.mul_ediv_cancel _ (by decide)

/-- The row of a trade, in the columns that do not depend on its path. -/
structure RowOf (x : ExchangeTrade) (f : FctTrade) : Prop where
  tradeId : f.tradeId = x.tradeId
  productId : f.productId = x.productId
  price : castNumeric x.price = some f.price
  size : castNumeric x.size = some f.size
  notional : numeric (f.price * f.size) = some f.notional
  side : f.side = x.side
  takerSide : f.takerSide = takerOf x.side
  eventMinute : f.eventMinute = truncate minute x.time
  eventDate : f.eventDate = dateOf x.time

/-- The fields of a staged record. -/
theorem derived_ofMessage {m : Trade} {pt : Option Int} {s : StgTrade}
    (h : derived (RawTrade.ofMessage m pt) = some s) :
    castNumeric m.price = some s.price ∧ castNumeric m.size = some s.size
      ∧ m.eventTime.instant = some s.eventTime
      ∧ m.ingestTime.instant = some s.ingestTime
      ∧ numeric (s.price * s.size) = some s.notional
      ∧ s.tradeId = m.tradeId ∧ s.productId = m.productId
      ∧ s.side = m.side ∧ s.eventMinute = truncate minute s.eventTime
      ∧ s.eventDate = dateOf s.eventTime := by
  simp only [derived, RawTrade.ofMessage, Option.bind_eq_bind,
    Option.bind_eq_some_iff, Option.pure_def, Option.some.injEq] at h
  obtain ⟨p, hp, q, hq, t, ht, i, hi, n, hn, rfl⟩ := h
  exact ⟨hp, hq, ht, hi, hn, rfl, rfl, rfl, rfl, rfl⟩

/-- A copy of a trade is staged to the trade's row. -/
theorem rowOf_copy {x : ExchangeTrade} {m : Trade} {pt : Option Int}
    {s : StgTrade} (hm : CopyOf x m)
    (h : derived (RawTrade.ofMessage m pt) = some s) :
    RowOf x (FctTrade.ofStaged s) := by
  obtain ⟨hprice, hsize, htime, -, hnotional, hid, hproduct, hside,
    hminute, hdate⟩ := derived_ofMessage h
  obtain ⟨hmin, hday⟩ := truncate_of_millisecond (hm.eventTime _ htime)
  refine ⟨hid.trans hm.tradeId, hproduct.trans hm.productId,
    hm.price ▸ hprice, hm.size ▸ hsize, hnotional, hside.trans hm.side, ?_,
    hminute.trans hmin, hdate.trans hday⟩
  show takerOf s.side = _
  rw [hside, hm.side]

/-- The publish time is not in the row. -/
theorem ofStaged_publishTime {m : Trade} {pt pt' : Option Int}
    {s s' : StgTrade} (h : derived (RawTrade.ofMessage m pt) = some s)
    (h' : derived (RawTrade.ofMessage m pt') = some s') :
    FctTrade.ofStaged s = FctTrade.ofStaged s' := by
  simp only [derived, RawTrade.ofMessage, Option.bind_eq_bind,
    Option.bind_eq_some_iff, Option.pure_def, Option.some.injEq] at h h'
  obtain ⟨p, hp, q, hq, t, ht, i, hi, n, hn, rfl⟩ := h
  obtain ⟨p', hp', q', hq', t', ht', i', hi', n', hn', rfl⟩ := h'
  obtain rfl := Option.some.inj (hp.symm.trans hp')
  obtain rfl := Option.some.inj (hq.symm.trans hq')
  obtain rfl := Option.some.inj (ht.symm.trans ht')
  obtain rfl := Option.some.inj (hi.symm.trans hi')
  obtain rfl := Option.some.inj (hn.symm.trans hn')
  rfl

-- ==================================================== bars of equal cores

/-- A row without the columns of its path. -/
def FctTrade.core (f : FctTrade) : FctTrade :=
  { f with
    sequence := 0
    isBackfilled := false
    makerOrderId := none
    takerOrderId := none
    eventTime := 0
    ingestTime := 0
    ingestLagMs := 0 }

/-- A trade has one core. -/
theorem core_of_rowOf {x : ExchangeTrade} {f f' : FctTrade}
    (h : RowOf x f) (h' : RowOf x f') : f.core = f'.core := by
  have hprice := Option.some.inj (h.price.symm.trans h'.price)
  have hsize := Option.some.inj (h.size.symm.trans h'.size)
  have hnotional : f.notional = f'.notional := by
    have hn := h'.notional
    rw [← hprice, ← hsize, h.notional] at hn
    exact Option.some.inj hn
  simp only [FctTrade.core, h.tradeId, h'.tradeId, h.productId,
    h'.productId, hprice, hsize, hnotional, h.side, h'.side, h.takerSide,
    h'.takerSide, h.eventMinute, h'.eventMinute, h.eventDate, h'.eventDate]

/-- A bar without its ingest lag. -/
def Bar.withoutLag (b : Bar) : Bar := { b with avgIngestLagMs := 0 }

section Core

variable {E E' : Engine} {rows rows' : List FctTrade}

theorem barOf_core (hinj : ∀ a ∈ rows, ∀ b ∈ rows,
      a.tradeId = b.tradeId → a = b) (k : String × Int) :
    (barOf E k rows).withoutLag
      = (barOf E' k (rows.map FctTrade.core)).withoutLag := by
  have hcore : ∀ a ∈ rows, ∀ b ∈ rows,
      a.core.tradeId = b.core.tradeId → a.core = b.core :=
    fun a ha b hb hid => congrArg FctTrade.core (hinj a ha b hb hid)
  have hcol : ∀ {β : Type} (f : FctTrade → β), (∀ t, f t.core = f t) →
      (rows.map FctTrade.core).map f = rows.map f := by
    intro β f hf
    rw [List.map_map]
    exact List.map_congr_left fun t _ => hf t
  have hfirst : E'.first FctTrade.tradeId (rows.map FctTrade.core)
      = (E.first FctTrade.tradeId rows).map FctTrade.core :=
    first_map hcore
  have hlast : E'.last FctTrade.tradeId (rows.map FctTrade.core)
      = (E.last FctTrade.tradeId rows).map FctTrade.core :=
    last_map hcore
  have hvol : ∀ side, takerVolume side (rows.map FctTrade.core)
      = takerVolume side rows := fun side =>
    congrArg List.sum (hcol _ fun _ => rfl)
  simp only [barOf, Bar.withoutLag, hfirst, hlast, hvol, Option.map_map,
    List.length_map, hcol FctTrade.price fun _ => rfl,
    hcol FctTrade.size fun _ => rfl, hcol FctTrade.notional fun _ => rfl,
    hcol FctTrade.tradeId fun _ => rfl]
  rfl

theorem fctBars1m_core (hkeys : (rows.map FctTrade.key).Nodup) :
    (fctBars1m E rows).map Bar.withoutLag
      = (fctBars1m E' (rows.map FctTrade.core)).map Bar.withoutLag := by
  rw [fctBars1m, fctBars1m, groupBy_map, groupBy, groupBy, List.map_map,
    List.map_map]
  refine List.map_congr_left fun k _ => barOf_core ?_ k
  intro a ha b hb hid
  refine eq_of_mem_group hkeys ha hb fun hk => ?_
  have hproduct : a.productId = b.productId := congrArg Prod.fst hk
  exact Prod.ext hid hproduct

/-- Trades with the same cores have the same bars, ingest lag apart. -/
theorem fctBars1m_of_cores
    (h : (rows.map FctTrade.core).Perm (rows'.map FctTrade.core))
    (hkeys : (rows.map FctTrade.key).Nodup)
    (hkeys' : (rows'.map FctTrade.key).Nodup) :
    ((fctBars1m E rows).map Bar.withoutLag).Perm
      ((fctBars1m E' rows').map Bar.withoutLag) := by
  have hcore : ((rows.map FctTrade.core).map FctTrade.key).Nodup := by
    rw [List.map_map]
    exact hkeys
  have hrows : (fctBars1m E rows).map Bar.withoutLag
      = (fctBars1m E (rows.map FctTrade.core)).map Bar.withoutLag :=
    fctBars1m_core hkeys
  have hrows' : (fctBars1m E' rows').map Bar.withoutLag
      = (fctBars1m E' (rows'.map FctTrade.core)).map Bar.withoutLag :=
    fctBars1m_core hkeys'
  rw [hrows, hrows']
  exact (fctBars1m_perm h hcore).map Bar.withoutLag

end Core

-- ============================================== from a topic to the tables

/-- Every record of the topic is delivered to the raw table, each any
number of times, and nothing else is. -/
structure Delivers (topic : List Trade) (history : List Delivery) :
    Prop where
  sound : ∀ r ∈ history, ∃ m ∈ topic, ∃ pt, r.row = RawTrade.ofMessage m pt
  complete : ∀ m ∈ topic, ∃ r ∈ history, ∃ pt,
    r.row = RawTrade.ofMessage m pt

/-- Everything has arrived and is inside the windows of the build, whose
staging succeeds. -/
structure Inside (vars : Vars) (history : List Delivery) (b : Run) :
    Prop where
  arrived : ∀ r ∈ history, r.arrivedAt ≤ b.now
  raw : ∀ r ∈ history,
    rawPartitionFilter vars b.now (r.seen b.now).partitionTime = true
  lookback : ∀ r ∈ history, ∀ s ∈ derived r.row,
    inLookback vars b.now s.eventDate = true
  staged : (b.staged vars history).isSome

/-- Builds over what a topic delivered, the last of which has everything
inside its windows. -/
def Built (vars : Vars) (tables : Option Tables) (topic : List Trade)
    (history : List Delivery) (T : Tables) : Prop :=
  Delivers topic history ∧ ∃ bs b, Inside vars history b
    ∧ builds vars history tables (bs ++ [b]) = some T

/-- Later records of a trade carry later ingest times. -/
def Later (topic : List Trade) : Prop :=
  topic.Pairwise fun m m' => m.tradeId = m'.tradeId →
    m.productId = m'.productId → ∀ i i', m.ingestTime.instant = some i →
      m'.ingestTime.instant = some i' → i < i'

/-- The trades the exchange produced: of tracked products, no two with
one id, and no id on the synthetic list. -/
structure Exchange (vars : Vars) (xs : List ExchangeTrade) : Prop where
  keys : (xs.map ExchangeTrade.key).Nodup
  tracked : ∀ x ∈ xs, x.productId ∈ vars.trackedProducts
  genuine : ∀ x ∈ xs, x.tradeId ∉ vars.syntheticTradeIds

/-- Every row of `fct_trades` was staged from a row of the raw table. -/
def FromHistory (history : List Delivery) (tables : Option Tables) : Prop :=
  ∀ T ∈ tables, ∀ f ∈ T.trades, ∃ r ∈ history, ∃ s ∈ derived r.row,
    f = FctTrade.ofStaged s

section History

variable {vars : Vars} {history : List Delivery} {tables : Option Tables}

theorem fromHistory_none : FromHistory history none := by
  rintro T ⟨⟩

theorem fromHistory_build (h : FromHistory history tables) (b : Run) :
    FromHistory history (build vars history false tables b) := by
  unfold build
  cases hstaged : b.staged vars history with
  | none => exact h
  | some staged =>
      intro T hT f hf
      obtain rfl := Option.some.inj hT
      rw [buildMarts_trades] at hf
      rcases mem_materialize hf with ⟨rows, hrows, hf⟩ | ⟨inc, hf⟩
      · obtain ⟨T, hT, rfl⟩ := Option.map_eq_some_iff.mp hrows
        exact h T hT f hf
      · obtain ⟨s, hs, rfl⟩ := List.mem_map.mp hf
        have hs' : s ∈ staged := by
          cases inc with
          | true => exact (List.mem_filter.mp hs).1
          | false => exact hs
        obtain ⟨r, hr, hrs⟩ :=
          derived_of_mem_shown ((firsts_staged hstaged).mem s hs')
        exact ⟨r, hr, s, hrs, rfl⟩

theorem fromHistory_builds (bs : List Run) {tables : Option Tables}
    (h : FromHistory history tables) :
    FromHistory history (builds vars history tables bs) := by
  induction bs generalizing tables with
  | nil => exact h
  | cons b bs ih => exact ih (fromHistory_build h b)

theorem FromHistory.append {more : List Delivery}
    (h : FromHistory history tables) :
    FromHistory (history ++ more) tables := by
  intro T hT f hf
  obtain ⟨r, hr, s, hs, hfs⟩ := h T hT f hf
  exact ⟨r, List.mem_append_left more hr, s, hs, hfs⟩

/-- With everything inside its windows, a build leaves the trades it
stages, whatever the table held: a row that was there before came from a
raw row that is staged again, so its partition is replaced. -/
theorem trades_of_inside {b : Run} {staged : List StgTrade}
    (hin : Inside vars history b)
    (htracked : ∀ r ∈ history, r.tracked vars = true)
    (hdate : ∀ r ∈ history, ∀ r' ∈ history, ∀ s ∈ derived r.row,
      ∀ s' ∈ derived r'.row, s.key = s'.key → s.eventDate = s'.eventDate)
    (hstaged : b.staged vars history = some staged)
    (hfrom : FromHistory history tables) :
    (buildMarts b.engine vars b.now false staged tables).trades.Perm
      (fctTrades staged) := by
  have hshown : ∀ r ∈ history, ∀ s ∈ derived r.row,
      s ∈ shown vars history b.now := fun r hr s hs =>
    mem_shown.mpr ⟨r, hr, hin.arrived r hr, hin.raw r hr, htracked r hr, hs⟩
  refine perm_of_groups FctTrade.eventDate fun d => List.Perm.of_eq ?_
  rw [local_fctTrades.group _ fun _ _ => trivial]
  cases tables with
  | none => exact group_build_trades_full (Or.inl rfl) d
  | some T =>
      rw [group_build_trades]
      by_cases hnil : fctTrades (group StgTrade.eventDate staged d) = []
      · -- a row the table held would be staged in its partition
        rw [if_neg fun hcase => hcase.2 hnil, hnil]
        refine group_eq_nil_iff.mpr fun f hf hd => ?_
        obtain ⟨r, hr, s, hs, rfl⟩ := hfrom T rfl f hf
        obtain ⟨a, ha, hkey⟩ :=
          (firsts_staged hstaged).each s (hshown r hr s hs)
        obtain ⟨r', hr', hr'a⟩ :=
          derived_of_mem_shown ((firsts_staged hstaged).mem a ha)
        have had : a.eventDate = d :=
          (hdate r' hr' r hr a hr'a s hs hkey).trans hd
        have hgroup := List.map_eq_nil_iff.mp hnil
        exact group_eq_nil_iff.mp hgroup a ha had
      · obtain ⟨a, ha⟩ := List.exists_mem_of_ne_nil _
          (mt List.map_eq_nil_iff.mpr hnil)
        obtain ⟨ha, had⟩ := mem_group.mp ha
        obtain ⟨r, hr, hra⟩ :=
          derived_of_mem_shown ((firsts_staged hstaged).mem a ha)
        have hlook := hin.lookback r hr a hra
        rw [had] at hlook
        rw [if_pos ⟨hlook, hnil⟩]

end History

section Built

variable {vars : Vars} {xs : List ExchangeTrade} {topic : List Trade}
  {history : List Delivery}

/-- Every record of the topic is a copy of a trade. -/
def Copied (xs : List ExchangeTrade) (topic : List Trade) : Prop :=
  ∀ m ∈ topic, ∃ x ∈ xs, CopyOf x m

/-- What a staged row of the raw table is. -/
theorem of_delivered (hcopied : Copied xs topic)
    (hdel : Delivers topic history) {r : Delivery} (hr : r ∈ history)
    {s : StgTrade} (hs : s ∈ derived r.row) :
    ∃ m ∈ topic, ∃ x ∈ xs, CopyOf x m ∧ RowOf x (FctTrade.ofStaged s)
      ∧ ∃ pt, derived (RawTrade.ofMessage m pt) = some s := by
  obtain ⟨m, hm, pt, hrow⟩ := hdel.sound r hr
  obtain ⟨x, hx, hcopy⟩ := hcopied m hm
  rw [hrow] at hs
  exact ⟨m, hm, x, hx, hcopy, rowOf_copy hcopy hs, pt, hs⟩

theorem RowOf.key {x : ExchangeTrade} {f : FctTrade} (h : RowOf x f) :
    f.key = x.key := Prod.ext h.tradeId h.productId

/-- The exchange's trade of a key. -/
theorem Exchange.eq_of_key (hx : Exchange vars xs) {x x' : ExchangeTrade}
    (h : x ∈ xs) (h' : x' ∈ xs) (hkey : x.key = x'.key) : x = x' :=
  List.inj_on_of_nodup_map hx.keys h h' hkey

theorem tracked_of_delivered (hx : Exchange vars xs)
    (hcopied : Copied xs topic) (hdel : Delivers topic history) :
    ∀ r ∈ history, r.tracked vars = true := by
  intro r hr
  obtain ⟨m, hm, pt, hrow⟩ := hdel.sound r hr
  obtain ⟨x, hxs, hcopy⟩ := hcopied m hm
  have hproduct : m.productId ∈ vars.trackedProducts := by
    rw [hcopy.productId]
    exact hx.tracked x hxs
  have hid : m.tradeId ∉ vars.syntheticTradeIds := by
    rw [hcopy.tradeId]
    exact hx.genuine x hxs
  rw [Delivery.tracked, hrow, Bool.and_eq_true]
  exact ⟨decide_eq_true hproduct, decide_eq_true hid⟩

theorem date_of_delivered (hx : Exchange vars xs)
    (hcopied : Copied xs topic) (hdel : Delivers topic history) :
    ∀ r ∈ history, ∀ r' ∈ history, ∀ s ∈ derived r.row,
      ∀ s' ∈ derived r'.row, s.key = s'.key →
        s.eventDate = s'.eventDate := by
  intro r hr r' hr' s hs s' hs' hkey
  obtain ⟨m, -, x, hxs, -, hrow, -⟩ := of_delivered hcopied hdel hr hs
  obtain ⟨m', -, x', hxs', -, hrow', -⟩ :=
    of_delivered hcopied hdel hr' hs'
  have hxx : x = x' := hx.eq_of_key hxs hxs'
    (hrow.key.symm.trans (hkey.trans hrow'.key))
  exact hrow.eventDate.trans (hxx ▸ hrow'.eventDate.symm)

/-- Tables built with everything inside hold what the last build
staged. -/
theorem Built.staged {tables : Option Tables} {T : Tables}
    (hx : Exchange vars xs) (hcopied : Copied xs topic)
    (hbuilt : Built vars tables topic history T)
    (hfrom : FromHistory history tables) :
    ∃ b staged, Inside vars history b
      ∧ b.staged vars history = some staged
      ∧ T.trades.Perm (fctTrades staged) := by
  obtain ⟨hdel, bs, b, hin, hT⟩ := hbuilt
  obtain ⟨staged, hstaged⟩ := Option.isSome_iff_exists.mp hin.staged
  refine ⟨b, staged, hin, hstaged, ?_⟩
  rw [builds_append] at hT
  have hlast := build_eq_some hstaged false
    (builds vars history tables bs)
  obtain rfl := Option.some.inj (hT.symm.trans hlast)
  exact trades_of_inside hin (tracked_of_delivered hx hcopied hdel)
    (date_of_delivered hx hcopied hdel) hstaged (fromHistory_builds bs hfrom)

/-- A record of the topic is staged. -/
theorem mem_shown_of_mem_topic (hx : Exchange vars xs)
    (hcopied : Copied xs topic) (hdel : Delivers topic history) {b : Run}
    (hin : Inside vars history b) {m : Trade} (hm : m ∈ topic) :
    ∃ s ∈ shown vars history b.now, ∃ pt,
      derived (RawTrade.ofMessage m pt) = some s := by
  obtain ⟨r, hr, pt, hrow⟩ := hdel.complete m hm
  obtain ⟨staged, hstaged⟩ := Option.isSome_iff_exists.mp hin.staged
  have htracked := tracked_of_delivered hx hcopied hdel r hr
  have hraw : r.seen b.now ∈ rawTrades vars b.now
      (snapshotAt history b.now) := by
    refine List.mem_filter.mpr ⟨List.mem_map_of_mem (List.mem_filter.mpr
      ⟨hr, decide_eq_true (hin.arrived r hr)⟩), ?_⟩
    rw [hin.raw r hr, Bool.true_and]
    exact htracked
  obtain ⟨s, hs⟩ := Option.isSome_iff_exists.mp
    ((staged_eq_some_iff.mp hstaged).1 _ hraw)
  have hs' : derived r.row = some s := hs
  refine ⟨s, mem_shown.mpr ⟨r, hr, hin.arrived r hr, hin.raw r hr, htracked,
    hs'⟩, pt, ?_⟩
  rw [← hrow]
  exact hs'

/-- What a build with everything inside makes of a topic: one row for
each trade it has a record of, and no other. -/
structure Holds (xs : List ExchangeTrade) (topic : List Trade)
    (T : Tables) : Prop where
  nodup : (T.trades.map FctTrade.key).Nodup
  each : ∀ m ∈ topic, ∃ f ∈ T.trades, f.key = (m.tradeId, m.productId)
  row : ∀ f ∈ T.trades, ∃ m ∈ topic, ∃ x ∈ xs, CopyOf x m ∧ RowOf x f

theorem Built.holds {tables : Option Tables} {T : Tables}
    (hx : Exchange vars xs) (hcopied : Copied xs topic)
    (hbuilt : Built vars tables topic history T)
    (hfrom : FromHistory history tables) : Holds xs topic T := by
  obtain ⟨b, staged, hin, hstaged, hperm⟩ := hbuilt.staged hx hcopied hfrom
  have hfirsts := firsts_staged hstaged
  have hdel := hbuilt.1
  refine ⟨?_, fun m hm => ?_, fun f hf => ?_⟩
  · exact (hperm.map FctTrade.key).nodup_iff.mpr
      (nodup_fctTrades hfirsts.nodup)
  · obtain ⟨s, hs, pt, hms⟩ := mem_shown_of_mem_topic hx hcopied hdel hin hm
    obtain ⟨a, ha, hkey⟩ := hfirsts.each s hs
    obtain ⟨-, -, -, -, -, hid, hproduct, -⟩ := derived_ofMessage hms
    exact ⟨FctTrade.ofStaged a,
      hperm.mem_iff.mpr (List.mem_map_of_mem ha),
      hkey.trans (Prod.ext hid hproduct)⟩
  · obtain ⟨s, hs, rfl⟩ := List.mem_map.mp (hperm.mem_iff.mp hf)
    obtain ⟨r, hr, hrs⟩ := derived_of_mem_shown (hfirsts.mem s hs)
    obtain ⟨m, hm, x, hxs, hcopy, hrow, -⟩ :=
      of_delivered hcopied hdel hr hrs
    exact ⟨m, hm, x, hxs, hcopy, hrow⟩

/-- The row of a trade that the topic has a record of. -/
theorem Holds.exactly_once {T : Tables} (hx : Exchange vars xs)
    (h : Holds xs topic T) {x : ExchangeTrade} (hxs : x ∈ xs) {m : Trade}
    (hm : m ∈ topic) (hkey : (m.tradeId, m.productId) = x.key) :
    ∃ f, group FctTrade.key T.trades x.key = [f] ∧ RowOf x f := by
  obtain ⟨f, hf, hfm⟩ := h.each m hm
  obtain ⟨m', -, x', hxs', -, hrow⟩ := h.row f hf
  have hxx : x = x' :=
    hx.eq_of_key hxs hxs' (hkey.symm.trans (hfm.symm.trans hrow.key))
  refine ⟨f, ?_, hxx ▸ hrow⟩
  rw [← hkey, ← hfm]
  exact group_eq_singleton h.nodup hf

end Built

-- ========================================================== later records

section Later

variable {vars : Vars} {xs : List ExchangeTrade} {topic : List Trade}
  {history : List Delivery}

theorem ingest_le_of_firsts {rows out : List StgTrade}
    (h : Firsts StgTrade.key StgTrade.arrival rows out) {a s : StgTrade}
    (ha : a ∈ out) (hs : s ∈ rows) (hkey : s.key = a.key) :
    a.ingestTime ≤ s.ingestTime := by
  have hle := h.least a ha s hs hkey
  rcases Prod.Lex.toLex_le_toLex.mp hle with hlt | ⟨heq, -⟩
  · exact hlt.le
  · exact heq.le

/-- Records of a trade with one ingest time are one record. -/
theorem Later.eq_of_ingest (h : Later topic) {m m' : Trade}
    (hm : m ∈ topic) (hm' : m' ∈ topic)
    (hkey : (m.tradeId, m.productId) = (m'.tradeId, m'.productId)) {i : Int}
    (hi : m.ingestTime.instant = some i)
    (hi' : m'.ingestTime.instant = some i) : m = m' := by
  have hpair : topic.Pairwise fun a b => a.tradeId = b.tradeId →
      a.productId = b.productId → a.ingestTime.instant = some i →
        b.ingestTime.instant = some i → a = b :=
    h.imp fun hlt hid hproduct ha hb =>
      absurd (hlt hid hproduct i i ha hb) (lt_irrefl i)
  have hflip : topic.Pairwise (flip fun a b => a.tradeId = b.tradeId →
      a.productId = b.productId → a.ingestTime.instant = some i →
        b.ingestTime.instant = some i → a = b) :=
    hpair.imp fun hab hid hproduct ha hb =>
      (hab hid.symm hproduct.symm hb ha).symm
  obtain ⟨hid, hproduct⟩ := Prod.mk.inj hkey
  exact List.Pairwise.forall_of_forall_of_flip (fun _ _ _ _ _ _ => rfl)
    hpair hflip hm hm' hid hproduct hi hi'

theorem Built.fromHistory {tables : Option Tables} {T : Tables}
    (hbuilt : Built vars tables topic history T)
    (hfrom : FromHistory history tables) : FromHistory history (some T) := by
  obtain ⟨-, bs, b, -, hT⟩ := hbuilt
  rw [← hT]
  exact fromHistory_builds (bs ++ [b]) hfrom

/-- A row that is held stays when later records arrive. The row its
trade has now was staged from a record with an ingest time no later than
the held one's. A record of before was already seen by the first build
and is the same one; a record that came later has a later ingest
time. -/
theorem held_stays {again : List Trade} {more : List Delivery}
    (hx : Exchange vars xs) (hcopied : Copied xs (topic ++ again))
    (hlater : Later (topic ++ again)) {tables : Option Tables}
    {T T' : Tables} (hbuilt : Built vars tables topic history T)
    (hfrom : FromHistory history tables)
    (hagain : Built vars (some T) (topic ++ again) (history ++ more) T') :
    ∀ f ∈ T.trades, f ∈ T'.trades := by
  intro f hf
  have hcopied₁ : Copied xs topic := fun m hm =>
    hcopied m (List.mem_append_left again hm)
  have hlater₁ : Later topic := (List.pairwise_append.mp hlater).1
  obtain ⟨b, staged, hin, hstaged, hperm⟩ :=
    hbuilt.staged hx hcopied₁ hfrom
  obtain ⟨b', staged', hin', hstaged', hperm'⟩ :=
    hagain.staged hx hcopied (hbuilt.fromHistory hfrom).append
  obtain ⟨a, ha, rfl⟩ := List.mem_map.mp (hperm.mem_iff.mp hf)
  -- the raw row it was staged from is still shown
  obtain ⟨r, hr, hra⟩ :=
    derived_of_mem_shown ((firsts_staged hstaged).mem a ha)
  have hr' : r ∈ history ++ more := List.mem_append_left more hr
  have hshown : a ∈ shown vars (history ++ more) b'.now :=
    mem_shown.mpr ⟨r, hr', hin'.arrived r hr', hin'.raw r hr',
      tracked_of_delivered hx hcopied hagain.1 r hr', hra⟩
  obtain ⟨m, hm, x, -, -, hrow, pt, hma⟩ :=
    of_delivered hcopied₁ hbuilt.1 hr hra
  obtain ⟨-, -, -, hmi, -, hmid, hmproduct, -⟩ := derived_ofMessage hma
  -- the row of its trade that is staged now
  obtain ⟨a', ha', hkey⟩ := (firsts_staged hstaged').each a hshown
  have hle := ingest_le_of_firsts (firsts_staged hstaged') ha' hshown
    hkey.symm
  obtain ⟨r', hr', hra'⟩ :=
    derived_of_mem_shown ((firsts_staged hstaged').mem a' ha')
  obtain ⟨m', hm', x', -, -, hrow', pt', hma'⟩ :=
    of_delivered hcopied hagain.1 hr' hra'
  obtain ⟨-, -, -, hmi', -, hmid', hmproduct', -⟩ := derived_ofMessage hma'
  have hid : m.tradeId = m'.tradeId :=
    hmid.symm.trans ((congrArg Prod.fst hkey).symm.trans hmid')
  have hproduct : m.productId = m'.productId :=
    hmproduct.symm.trans ((congrArg Prod.snd hkey).symm.trans hmproduct')
  rcases List.mem_append.mp hm' with hm' | hm'
  · -- a record of before: it was shown before, so it is the same one
    obtain ⟨s, hs, pt'', hms⟩ :=
      mem_shown_of_mem_topic hx hcopied₁ hbuilt.1 hin hm'
    obtain ⟨-, -, -, hmi'', -, hsid, hsproduct, -⟩ := derived_ofMessage hms
    have hle' := ingest_le_of_firsts (firsts_staged hstaged) ha hs
      (Prod.ext (hsid.trans (hid.symm.trans hmid.symm))
        (hsproduct.trans (hproduct.symm.trans hmproduct.symm)))
    have hsi : s.ingestTime = a'.ingestTime :=
      Option.some.inj (hmi''.symm.trans hmi')
    have hii : a'.ingestTime = a.ingestTime :=
      le_antisymm hle (hsi ▸ hle')
    rw [hii] at hmi'
    have hmm : m = m' :=
      hlater₁.eq_of_ingest hm hm' (Prod.ext hid hproduct) hmi hmi'
    rw [hmm] at hma
    rw [ofStaged_publishTime hma hma']
    exact hperm'.mem_iff.mpr (List.mem_map_of_mem ha')
  · -- a later record, with a later ingest time
    have hlt := (List.pairwise_append.mp hlater).2.2 m hm m' hm' hid
      hproduct _ _ hmi hmi'
    exact absurd hle (not_le.mpr hlt)

end Later

-- ============================================================ the live path

/-- A run of the consumer: its calls, and what its publisher refuses. -/
structure Feed where
  products : List String
  refuses : Nat → Bool := fun _ => false
  calls : List Call

namespace Feed

variable {xs : List ExchangeTrade}

def handler (feed : Feed) : MessageHandler :=
  new feed.products { refuses := feed.refuses }

/-- What the run publishes on the trades topic. -/
def trades (feed : Feed) : List Trade :=
  (feed.handler.serve feed.calls).publisher.trades

/-- Every match of the run gives a trade of the exchange. -/
def Of (xs : List ExchangeTrade) (feed : Feed) : Prop :=
  ∀ msg t, Call.handle msg t ∈ feed.calls → typeOf msg = .match_ →
    ∃ x ∈ xs, Carries x msg

/-- A match of the trade is handled, and its call returns. -/
def Brings (feed : Feed) (x : ExchangeTrade) : Prop :=
  ∃ msg t, Call.handle msg t ∈ feed.handler.returned feed.calls
    ∧ typeOf msg = .match_ ∧ Carries x msg

theorem trades_eq (feed : Feed) :
    feed.trades
      = (feed.handler.returned feed.calls).filterMap tradeRecord :=
  (trades_serve feed.handler feed.calls).trans (List.nil_append _)

theorem copied {feed : Feed} (h : feed.Of xs) : Copied xs feed.trades := by
  intro m hm
  rw [trades_eq] at hm
  obtain ⟨c, hc, hcm⟩ := List.mem_filterMap.mp hm
  obtain ⟨hc, -⟩ := of_mem_returned hc
  obtain ⟨msg, t, lag, rfl, htype, hof⟩ := of_tradeRecord hcm
  obtain ⟨x, hx, hcarries⟩ := h msg t hc htype
  exact ⟨x, hx, copyOf_live hcarries hof⟩

theorem mem_trades {feed : Feed} {x : ExchangeTrade} (h : feed.Brings x) :
    ∃ m ∈ feed.trades, (m.tradeId, m.productId) = x.key := by
  obtain ⟨msg, t, hc, htype, hcarries⟩ := h
  obtain ⟨-, k, hok⟩ := of_mem_returned hc
  obtain ⟨m, lag, hof, hrecord⟩ := tradeRecord_of_isOk hok htype
  have hcopy := copyOf_live hcarries hof
  refine ⟨m, ?_, Prod.ext hcopy.tradeId hcopy.productId⟩
  rw [trades_eq]
  exact List.mem_filterMap.mpr ⟨_, hc, hrecord⟩

end Feed

-- ============================================================== the result

section Recovery

variable {vars : Vars} {xs : List ExchangeTrade}

/-- Tables with the row of each trade have the same bars, ingest lag
apart: their rows have the same cores, one for each trade of the
exchange. -/
theorem bars_of_all (hx : Exchange vars xs) {topic topic' : List Trade}
    {T T' : Tables} (h : Holds xs topic T) (h' : Holds xs topic' T')
    (hall : ∀ x ∈ xs, ∃ m ∈ topic, (m.tradeId, m.productId) = x.key)
    (hall' : ∀ x ∈ xs, ∃ m ∈ topic', (m.tradeId, m.productId) = x.key)
    (hsound : T.Sound) (hsound' : T'.Sound) :
    (T.bars1m.map Bar.withoutLag).Perm (T'.bars1m.map Bar.withoutLag) := by
  have hsub : ∀ {topic topic' : List Trade} {T T' : Tables},
      Holds xs topic T → Holds xs topic' T' →
      (∀ x ∈ xs, ∃ m ∈ topic', (m.tradeId, m.productId) = x.key) →
      ∀ c ∈ T.trades.map FctTrade.core, c ∈ T'.trades.map FctTrade.core := by
    intro topic topic' T T' h h' hall' c hc
    obtain ⟨f, hf, rfl⟩ := List.mem_map.mp hc
    obtain ⟨-, -, x, hxs, -, hrow⟩ := h.row f hf
    obtain ⟨m, hm, hkey⟩ := hall' x hxs
    obtain ⟨f', hf', hrow'⟩ := h'.exactly_once hx hxs hm hkey
    have hmem : f' ∈ group FctTrade.key T'.trades x.key :=
      hf' ▸ List.mem_singleton_self f'
    rw [core_of_rowOf hrow hrow']
    exact List.mem_map_of_mem (mem_group.mp hmem).1
  have hnodup : ∀ {rows : List FctTrade}, (rows.map FctTrade.key).Nodup →
      (rows.map FctTrade.core).Nodup := by
    intro rows hkeys
    have hcore : ((rows.map FctTrade.core).map FctTrade.key).Nodup := by
      rw [List.map_map]
      exact hkeys
    exact hcore.of_map
  have hcores : (T.trades.map FctTrade.core).Perm
      (T'.trades.map FctTrade.core) :=
    (List.perm_ext_iff_of_nodup (hnodup h.nodup) (hnodup h'.nodup)).mpr
      fun c => ⟨hsub h h' hall' c, hsub h' h hall c⟩
  have hbars : ((fctBars1m Engine.inOrder T.trades).map
      Bar.withoutLag).Perm
        ((fctBars1m Engine.inOrder T'.trades).map Bar.withoutLag) :=
    fctBars1m_of_cores hcores h.nodup h'.nodup
  exact ((hsound.bars1m_perm _).map _).trans
    (hbars.trans ((hsound'.bars1m_perm _).map _).symm)

theorem Built.sound {topic : List Trade} {history : List Delivery}
    {T : Tables} (h : Built vars none topic history T) : T.Sound := by
  obtain ⟨-, bs, b, -, hT⟩ := h
  exact sound_of_builds hT

/-- Recovery is lossless and idempotent: with everything inside the
windows of the last build, each trade that was delivered live or lies in
the gap has one row, the same whichever path it came by; if nothing else
was lost, the minute bars are those of a lossless feed but for the
ingest lag; and a later backfill of any range leaves every row as it is,
and adds none for a trade that is held.

The first part is `Holds` at the trade's record, the second compares two
tables that hold every trade, and the third is `held_stays`. -/
theorem recovery (hx : Exchange vars xs)
    {fetchPage : String → Int → List Json} (api : RestApi xs fetchPage)
    {feed : Feed} (hfeed : feed.Of xs) {args : Args}
    (hdry : args.dryRun = false) (clock : Nat → Int) {fuel : Nat}
    (hfuel : (args.before + PAGE_SIZE - args.after).toNat < fuel) :
    ∃ back, backfill fetchPage clock args fuel = some (.ok back)
      ∧ ∀ topic history T, topic.Perm (feed.trades ++ back) →
        Later topic → Built vars none topic history T →
        (∀ x ∈ xs, feed.Brings x ∨ args.gap x →
          ∃ f, group FctTrade.key T.trades x.key = [f] ∧ RowOf x f)
        ∧ ((∀ x ∈ xs, feed.Brings x ∨ args.gap x) →
          ∀ lossless : Feed, lossless.Of xs → (∀ x ∈ xs, lossless.Brings x) →
          ∀ topic' history' T', topic'.Perm lossless.trades →
            Built vars none topic' history' T' →
            (T.bars1m.map Bar.withoutLag).Perm
              (T'.bars1m.map Bar.withoutLag))
        ∧ ∀ fetchPage', RestApi xs fetchPage' → ∀ clock' args' fuel',
          (args'.before + PAGE_SIZE - args'.after).toNat < fuel' →
          ∃ again, backfill fetchPage' clock' args' fuel'
              = some (.ok again)
            ∧ ∀ more T', Later (topic ++ again) →
              Built vars (some T) (topic ++ again) (history ++ more) T' →
              (∀ f ∈ T.trades, group FctTrade.key T'.trades f.key = [f])
              ∧ ((∀ x ∈ xs, args'.gap x → ∃ f ∈ T.trades, f.key = x.key) →
                T'.trades.Perm T.trades) := by
  obtain ⟨back, hback, hsound, hcomplete⟩ := backfill_publishes api clock
    hfuel
  refine ⟨back, hback, fun topic history T hperm hlater hbuilt => ?_⟩
  have hcopied : Copied xs topic := by
    intro m hm
    rcases List.mem_append.mp (hperm.mem_iff.mp hm) with hm | hm
    · exact Feed.copied hfeed m hm
    · obtain ⟨x, hxs, -, hcopy⟩ := hsound m hm
      exact ⟨x, hxs, copyOf_backfilled hcopy⟩
  have hrecord : ∀ x ∈ xs, feed.Brings x ∨ args.gap x →
      ∃ m ∈ topic, (m.tradeId, m.productId) = x.key := by
    intro x hxs hpath
    rcases hpath with hlive | hgap
    · obtain ⟨m, hm, hkey⟩ := Feed.mem_trades hlive
      exact ⟨m, hperm.mem_iff.mpr (List.mem_append_left back hm), hkey⟩
    · obtain ⟨m, hm, hkey⟩ := hcomplete hdry x hxs hgap
      exact ⟨m, hperm.mem_iff.mpr (List.mem_append_right _ hm), hkey⟩
  have hholds := hbuilt.holds hx hcopied fromHistory_none
  refine ⟨fun x hxs hpath => ?_, ?_, ?_⟩
  · obtain ⟨m, hm, hkey⟩ := hrecord x hxs hpath
    exact hholds.exactly_once hx hxs hm hkey
  · intro hall lossless hof hbrings topic' history' T' hperm' hbuilt'
    have hcopied' : Copied xs topic' := fun m hm =>
      Feed.copied hof m (hperm'.mem_iff.mp hm)
    refine bars_of_all hx hholds
      (hbuilt'.holds hx hcopied' fromHistory_none)
      (fun x hxs => hrecord x hxs (hall x hxs)) (fun x hxs => ?_)
      hbuilt.sound hbuilt'.sound
    obtain ⟨m, hm, hkey⟩ := Feed.mem_trades (hbrings x hxs)
    exact ⟨m, hperm'.mem_iff.mpr hm, hkey⟩
  · intro fetchPage' api' clock' args' fuel' hfuel'
    obtain ⟨again, hagain, hsound', -⟩ := backfill_publishes api' clock'
      hfuel'
    refine ⟨again, hagain, fun more T' hlater' hbuilt' => ?_⟩
    have hcopied' : Copied xs (topic ++ again) := by
      intro m hm
      rcases List.mem_append.mp hm with hm | hm
      · exact hcopied m hm
      · obtain ⟨x, hxs, -, hcopy⟩ := hsound' m hm
        exact ⟨x, hxs, copyOf_backfilled hcopy⟩
    have hstays := held_stays hx hcopied' hlater' hbuilt fromHistory_none
      hbuilt'
    have hholds' := hbuilt'.holds hx hcopied'
      (hbuilt.fromHistory fromHistory_none).append
    refine ⟨fun f hf => group_eq_singleton hholds'.nodup (hstays f hf),
      fun hheld => ?_⟩
    refine (List.perm_ext_iff_of_nodup hholds'.nodup.of_map
      hholds.nodup.of_map).mpr fun f => ⟨fun hf => ?_, hstays f⟩
    -- every row of the new table has the key of a row that was held
    have hkey : ∃ f' ∈ T.trades, f'.key = f.key := by
      obtain ⟨m, hm, x, hxs, hcopy, hrow⟩ := hholds'.row f hf
      rcases List.mem_append.mp hm with hm | hm
      · obtain ⟨f', hf', hkey⟩ := hholds.each m hm
        refine ⟨f', hf', hkey.trans (hrow.key.trans ?_).symm⟩
        exact (Prod.ext hcopy.tradeId hcopy.productId).symm
      · obtain ⟨x', hxs', hgap, hback'⟩ := hsound' m hm
        have hxx : x' = x := hx.eq_of_key hxs' hxs
          (Prod.ext (hback'.tradeId.symm.trans hcopy.tradeId)
            (hback'.productId.symm.trans hcopy.productId))
        obtain ⟨f', hf', hkey⟩ := hheld x' hxs' hgap
        exact ⟨f', hf', hkey.trans ((hxx ▸ hrow.key).symm)⟩
    obtain ⟨f', hf', hff⟩ := hkey
    have hsame : f' = f :=
      List.inj_on_of_nodup_map hholds'.nodup (hstays f' hf') hf hff
    exact hsame ▸ hf'

end Recovery

-- ================================================================ a gap

/-- A trade of BTC-USD in the first minute. -/
def soldTrade (id : Int) : ExchangeTrade where
  productId := "BTC-USD"
  tradeId := id
  price := "100"
  size := "1"
  side := "sell"
  time := 1000500

/-- The match of the trade; the API's entry has the same fields. -/
def soldMatch (id : Int) : Json :=
  .obj [("type", .str "match"), ("product_id", .str "BTC-USD"),
    ("trade_id", .int id), ("sequence", .int 5), ("price", .str "100"),
    ("size", .str "1"), ("side", .str "sell"),
    ("time", .str "1970-01-01T00:00:01.000500Z")]

/-- The API, when the exchange produced trades 1 and 2. -/
def soldPage (product : String) (cursor : Int) : List Json :=
  if product = "BTC-USD" then
    (([2, 1] : List Int).filter fun id => id < cursor).map soldMatch
  else []

/-- A feed that brings the matches given. -/
def soldFeed (ids : List Int) : Feed where
  products := ["BTC-USD"]
  calls := ids.map fun id => .handle (soldMatch id) (2 * second)

/-- A gap that ends before trade 3. -/
def soldGap (after : Int) : Args where
  product := "BTC-USD"
  after := after
  before := 3

/-- The raw rows of records, one a record. -/
def deliveries (topic : List Trade) : List Delivery :=
  topic.map fun m => ⟨RawTrade.ofMessage m none, hour, hour, 0⟩

theorem utcText_soldMatch :
    UtcText "1970-01-01T00:00:01.000500Z" 1000500 :=
  ⟨⟨1, [0, 0, 0, 5, 0, 0], ['Z']⟩, rfl, Or.inl rfl, by decide⟩

theorem carries_soldMatch (id : Int) :
    Carries (soldTrade id) (soldMatch id) :=
  ⟨rfl, rfl, rfl, rfl, rfl, _, rfl, utcText_soldMatch⟩

theorem restApi_soldPage :
    RestApi [soldTrade 1, soldTrade 2] soldPage where
  reports := fun p cursor trade h => by
    unfold soldPage at h
    split at h
    · next hp =>
        obtain ⟨id, hid, rfl⟩ := List.mem_map.mp h
        obtain ⟨hid, hlt⟩ := List.mem_filter.mp hid
        refine ⟨soldTrade id, ?_, hp.symm, of_decide_eq_true hlt,
          (carries_soldMatch id).fields⟩
        rcases List.mem_cons.mp hid with rfl | hid
        · simp
        · rw [List.mem_singleton.mp hid]
          simp
    · cases h
  newest := fun p cursor x hx hp hlt => by
    have hid : x.tradeId ∈ ([2, 1] : List Int) := by
      rcases List.mem_cons.mp hx with rfl | hx
      · decide
      · rw [List.mem_singleton.mp hx]
        decide
    have hproduct : p = "BTC-USD" := by
      rw [← hp]
      rcases List.mem_cons.mp hx with rfl | hx
      · rfl
      · rw [List.mem_singleton.mp hx]
        rfl
    have hmem : soldMatch x.tradeId ∈ soldPage p cursor := by
      rw [soldPage, if_pos hproduct]
      exact List.mem_map_of_mem
        (List.mem_filter.mpr ⟨hid, decide_eq_true hlt⟩)
    exact ⟨List.ne_nil_of_mem hmem, Or.inl ⟨_, hmem, rfl⟩⟩

theorem soldFeed_of {ids : List Int} (h : ∀ id ∈ ids, id = 1 ∨ id = 2) :
    (soldFeed ids).Of [soldTrade 1, soldTrade 2] := by
  intro msg t hc _
  obtain ⟨id, hid, heq⟩ := List.mem_map.mp hc
  cases heq
  rcases h id hid with rfl | rfl
  · exact ⟨soldTrade 1, by simp, carries_soldMatch 1⟩
  · exact ⟨soldTrade 2, by simp, carries_soldMatch 2⟩

theorem delivers_deliveries (topic : List Trade) :
    Delivers topic (deliveries topic) where
  sound := fun r hr => by
    obtain ⟨m, hm, rfl⟩ := List.mem_map.mp hr
    exact ⟨m, hm, none, rfl⟩
  complete := fun m hm => ⟨_, List.mem_map_of_mem hm, none, rfl⟩

theorem brings_soldFeed {ids : List Int} {id : Int}
    (h : (soldFeed ids).handler.returned (soldFeed ids).calls
      = (soldFeed ids).calls) (hid : id ∈ ids) :
    (soldFeed ids).Brings (soldTrade id) := by
  refine ⟨soldMatch id, 2 * second, ?_, rfl, carries_soldMatch id⟩
  rw [h]
  exact List.mem_map_of_mem hid

/-- A build with everything inside its windows makes tables. -/
theorem exists_build {vars : Vars} {history : List Delivery} {b : Run}
    (hin : Inside vars history b) (tables : Option Tables) :
    ∃ T, builds vars history tables [b] = some T := by
  obtain ⟨staged, hstaged⟩ := Option.isSome_iff_exists.mp hin.staged
  exact ⟨_, build_eq_some hstaged false tables⟩

/-- The record of the trade, as the live path or a backfill publishes it
at a time. -/
def soldRecord (sequence id : Int) (eventTime : Text) (now : Int) :
    Trade where
  sequence := sequence
  productId := "BTC-USD"
  tradeId := id
  price := "100"
  size := "1"
  side := "sell"
  makerOrderId := ""
  takerOrderId := ""
  eventTime := eventTime
  ingestTime := iso now

def soldLive (id : Int) : Trade :=
  soldRecord 5 id (.millis 1000) (2 * second)

def soldBack (id now : Int) : Trade :=
  soldRecord 0 id (.other "1970-01-01T00:00:01.000500Z") now

/-- Trade 1 arrives live and trade 2 is backfilled: both have their row,
with the bars of a feed that lost nothing, and a backfill of both changes
no row. -/
theorem recovery_of_one_trade :
    ∃ T T' T'',
      builds {} (deliveries [soldLive 1, soldBack 2 minute]) none
        [⟨hour, Engine.inOrder⟩] = some T
      ∧ builds {} (deliveries [soldLive 1, soldLive 2]) none
        [⟨hour, Engine.inOrder⟩] = some T'
      ∧ builds {} (deliveries [soldLive 1, soldBack 2 minute]
          ++ deliveries [soldBack 1 hour, soldBack 2 hour]) (some T)
        [⟨2 * hour, Engine.inOrder⟩] = some T''
      ∧ (∃ f, group FctTrade.key T.trades (2, "BTC-USD") = [f]
        ∧ RowOf (soldTrade 2) f)
      ∧ (T.bars1m.map Bar.withoutLag).Perm (T'.bars1m.map Bar.withoutLag)
      ∧ T''.trades.Perm T.trades := by
  have hx : Exchange {} [soldTrade 1, soldTrade 2] :=
    ⟨by decide, by decide, by decide⟩
  have hof : (soldFeed [1]).Of [soldTrade 1, soldTrade 2] :=
    soldFeed_of (by simp)
  have hof' : (soldFeed [1, 2]).Of [soldTrade 1, soldTrade 2] :=
    soldFeed_of (by simp)
  have hfuel : ((soldGap 1).before + PAGE_SIZE
      - (soldGap 1).after).toNat < 1003 := by decide
  have hfuel' : ((soldGap 0).before + PAGE_SIZE
      - (soldGap 0).after).toNat < 1004 := by decide
  obtain ⟨back, hback, hrest⟩ := recovery hx restApi_soldPage hof
    rfl (fun _ => minute) hfuel
  obtain rfl : back = [soldBack 2 minute] := by
    have hrun : backfill soldPage (fun _ => minute) (soldGap 1) 1003
        = some (.ok [soldBack 2 minute]) := by decide +kernel
    exact Except.ok.inj (Option.some.inj (hback.symm.trans hrun))
  have hlive : (soldFeed [1]).trades = [soldLive 1] := by decide +kernel
  have hlive' : (soldFeed [1, 2]).trades = [soldLive 1, soldLive 2] := by
    decide +kernel
  have hin : Inside {} (deliveries [soldLive 1, soldBack 2 minute])
      ⟨hour, Engine.inOrder⟩ :=
    ⟨by decide +kernel, by decide +kernel, by decide +kernel,
      by decide +kernel⟩
  have hin' : Inside {} (deliveries [soldLive 1, soldLive 2])
      ⟨hour, Engine.inOrder⟩ :=
    ⟨by decide +kernel, by decide +kernel, by decide +kernel,
      by decide +kernel⟩
  have hin'' : Inside {} (deliveries [soldLive 1, soldBack 2 minute]
      ++ deliveries [soldBack 1 hour, soldBack 2 hour])
      ⟨2 * hour, Engine.inOrder⟩ :=
    ⟨by decide +kernel, by decide +kernel, by decide +kernel,
      by decide +kernel⟩
  obtain ⟨T, hT⟩ := exists_build hin none
  obtain ⟨T', hT'⟩ := exists_build hin' none
  obtain ⟨T'', hT''⟩ := exists_build hin'' (some T)
  have hlater : Later ([soldLive 1, soldBack 2 minute]
      ++ [soldBack 1 hour, soldBack 2 hour]) := by
    simp [Later, soldLive, soldBack, soldRecord, iso, Text.instant, minute,
      hour, second, millisecond]
  obtain ⟨hrows, hbars, hstays⟩ := hrest
    [soldLive 1, soldBack 2 minute] _ T (by rw [hlive]; exact .refl _)
    (List.pairwise_append.mp hlater).1
    ⟨delivers_deliveries _, [], _, hin, hT⟩
  have hpaths : ∀ x ∈ [soldTrade 1, soldTrade 2],
      (soldFeed [1]).Brings x ∨ (soldGap 1).gap x := by
    intro x hxs
    rcases List.mem_cons.mp hxs with rfl | hxs
    · exact Or.inl (brings_soldFeed rfl (by simp))
    · rw [List.mem_singleton.mp hxs]
      exact Or.inr ⟨rfl, rfl⟩
  have hall : ∀ x ∈ [soldTrade 1, soldTrade 2],
      (soldFeed [1, 2]).Brings x := by
    intro x hxs
    rcases List.mem_cons.mp hxs with rfl | hxs
    · exact brings_soldFeed rfl (by simp)
    · rw [List.mem_singleton.mp hxs]
      exact brings_soldFeed rfl (by simp)
  obtain ⟨again, hagain, hunchanged⟩ := hstays soldPage restApi_soldPage
    (fun _ => hour) (soldGap 0) 1004 hfuel'
  obtain rfl : again = [soldBack 1 hour, soldBack 2 hour] := by
    have hrun : backfill soldPage (fun _ => hour) (soldGap 0) 1004
        = some (.ok [soldBack 1 hour, soldBack 2 hour]) := by
      decide +kernel
    exact Except.ok.inj (Option.some.inj (hagain.symm.trans hrun))
  refine ⟨T, T', T'', hT, hT', hT'', ?_, ?_, ?_⟩
  · exact hrows (soldTrade 2) (by simp) (hpaths _ (by simp))
  · exact hbars hpaths _ hof' hall _ _ T' (by rw [hlive'])
      ⟨delivers_deliveries _, [], _, hin', hT'⟩
  · refine (hunchanged _ T'' hlater ⟨?_, [], _, hin'', hT''⟩).2 ?_
    · rw [deliveries, deliveries, ← List.map_append]
      exact delivers_deliveries _
    · intro x hxs _
      obtain ⟨f, hf, -⟩ := hrows x hxs (hpaths x hxs)
      exact ⟨f, mem_group.mp (hf ▸ List.mem_singleton_self f)⟩

end MarketPlatform.Warehouse
