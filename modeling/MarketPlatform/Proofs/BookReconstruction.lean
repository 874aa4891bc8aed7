/-
The reconstructed book is the live one.

# The run

From a snapshot on, with no disconnect, the live book is that of the log
of the snapshot and of the updates after it (`bookLogged_calls`). What
is asked of the run is `Reconstructible`: the snapshot is the last one
of the product, alone in its receive millisecond, both its sides rest
and no level comes twice; the calls are made in the order of their
times, the updates' exchange times increase, and the numbers need no
rounding.

# The plan

Under these the log is in the order the query sorts by (`inOrder_log`),
so the last entry about a level is the event with the greatest stamp,
and every level is settled (`Sequenced.settled`). It remains to find, in
the bag of staged rows, what the query finds: the latest snapshot is the
last one (`latestSnapshot_eq`), its mid that of the snapshot
(`referenceMid_eq`), and the rows since are the events from it on
(`mem_unpruned_iff`). `Sequenced` states all this of the messages alone;
the calls come in at the end, where those up to a minute are cut off by
their times (`messagesIn_callsBy`).

So the query has the live book's rows, whatever the engine
(`sql_book_agrees`). The band is taken around the mid as the query has
it, rounded to nine digits, and that cannot be left out
(`rounded_mid_widens_the_band`).
-/
import MarketPlatform.Proofs.BookTies

namespace MarketPlatform.Warehouse

open Lib EStateM Lib.Rfc3339 Lib.Relation Lib.Numeral Lib.LastWrite
open Consumer Consumer.MessageHandler Consumer.OrderBook

-- =============================================================== messages

/-- When a message was received, as it was published. -/
def receivedOf (m : L2Message) : Int := m.event.ingestTime.instant.getD 0

/-- When the exchange sent a message, as it was published. -/
def exchangedOf (m : L2Message) : Int := m.event.eventTime.instant.getD 0

/-- When a call is made. -/
def receivedAt : Call → Option Int
  | .handle _ t => some t
  | .onDisconnect => none

/-- The events of a message carry its times and its type. -/
theorem of_mem_messageEvents {m : L2Message} {e : BookEvent}
    (he : e ∈ messageEvents m) :
    e.stateTime = receivedOf m ∧ e.eventTime = exchangedOf m
      ∧ e.eventMinute = truncate minute (receivedOf m)
      ∧ e.eventType = m.event.eventType := by
  cases m with
  | snapshot s =>
      rcases List.mem_append.mp he with he | he
      · obtain ⟨x, -, rfl⟩ := List.mem_map.mp he
        exact ⟨rfl, rfl, rfl, rfl⟩
      · obtain ⟨x, -, rfl⟩ := List.mem_map.mp he
        exact ⟨rfl, rfl, rfl, rfl⟩
  | update u =>
      obtain ⟨x, -, rfl⟩ := List.mem_map.mp he
      exact ⟨rfl, rfl, rfl, rfl⟩

/-- A message is received when its call is made, to the millisecond. -/
theorem receivedOf_of_read {m : L2Message} {c : Call}
    (h : readMessage c = some m) :
    ∃ t, receivedAt c = some t
      ∧ receivedOf m = t / millisecond * millisecond := by
  obtain ⟨msg, t, rfl, ⟨s, rfl, -, hof⟩ | ⟨u, rfl, -, hof⟩⟩ :=
    of_readMessage h
  · refine ⟨t, rfl, ?_⟩
    obtain ⟨p, -, hof⟩ := bind_ok hof
    obtain ⟨bids, -, hof⟩ := bind_ok hof
    obtain ⟨asks, -, hof⟩ := bind_ok hof
    obtain ⟨sequence, -, hof⟩ := bind_ok hof
    cases hof
    rfl
  · refine ⟨t, rfl, ?_⟩
    obtain ⟨p, -, hof⟩ := bind_ok hof
    obtain ⟨changes, -, hof⟩ := bind_ok hof
    obtain ⟨time, -, hof⟩ := bind_ok hof
    obtain ⟨sequence, -, hof⟩ := bind_ok hof
    cases hof
    rfl

/-- A snapshot is published as one, an l2update as one. -/
theorem isSnapshot_iff {m : L2Message} {c : Call}
    (h : readMessage c = some m) {e : BookEvent}
    (he : e ∈ messageEvents m) :
    e.isSnapshot = true ↔ ∃ s, m = .snapshot s := by
  have htype := (of_mem_messageEvents he).2.2.2
  rw [BookEvent.isSnapshot, decide_eq_true_eq, htype]
  obtain ⟨msg, t, rfl, ⟨s, rfl, -, hof⟩ | ⟨u, rfl, -, hof⟩⟩ :=
    of_readMessage h
  · simp [L2Message.event, (snapshotOf_ok hof).1]
  · simp [L2Message.event, (updateOf_ok hof).1]

-- ============================================================== live books

/-- The call is made after a minute. -/
def madeAfter (M : Int) (c : Call) : Bool :=
  (receivedAt c).all fun t => M < truncate minute t

/-- The calls up to the last message received in or before a minute. -/
def callsBy (M : Int) (cs : List Call) : List Call :=
  cs.rdropWhile (madeAfter M)

/-- The book of a product, while it is logged. -/
def BookLogged (p : String) (log : List Entry) (h : MessageHandler) :
    Prop :=
  ∃ b, h.books p = some b ∧ Mirrors log b ∧ b.ready = true

/-- One call: a message of the product adds its entries, any other
leaves the book. -/
theorem bookLogged_call {p : String} {c : Call} {log : List Entry}
    {h h' : MessageHandler} (hlog : BookLogged p log h)
    (hconnected : c ≠ .onDisconnect)
    (hupdate : ∀ m, messageIn p c = some m →
      Readable m ∧ ∀ s, m ≠ .snapshot s)
    (hrun : (call c).run h = .ok () h') :
    BookLogged p (log ++ ((messageIn p c).map messageEntries).getD []) h' := by
  obtain ⟨b, hb, hm, hready⟩ := hlog
  cases l2Step_call p hrun with
  | message m b₀ b' is book applied book' sent =>
      obtain rfl := Option.some.inj (hb.symm.trans book)
      obtain ⟨hreadable, hno⟩ := hupdate m is
      have hlogged : Logged (some log) b := ⟨hm, hready⟩
      have h' := logged_apply hlogged hreadable applied
      rw [is]
      cases m with
      | snapshot s => exact absurd rfl (hno s)
      | update u => exact ⟨b', book', h'.1, h'.2⟩
  | disconnect is => exact absurd is hconnected
  | other no _ book' _ =>
      rw [no]
      refine ⟨b, book'.trans hb, ?_, hready⟩
      show Mirrors (log ++ []) b
      rw [List.append_nil]
      exact hm

/-- Updates after a snapshot, with no disconnect. By induction on the
calls. -/
theorem bookLogged_calls {p : String} {cs : List Call} {log : List Entry}
    {h h' : MessageHandler} (hlog : BookLogged p log h)
    (hconnected : ∀ c ∈ cs, c ≠ .onDisconnect)
    (hupdates : ∀ c ∈ cs, ∀ m, messageIn p c = some m →
      Readable m ∧ ∀ s, m ≠ .snapshot s)
    (hrun : (calls cs).run h = .ok () h') :
    BookLogged p (log ++ (messagesIn p cs).flatMap messageEntries) h' := by
  induction cs generalizing log h with
  | nil =>
      cases hrun
      rw [messagesIn, List.filterMap_nil, List.flatMap_nil, List.append_nil]
      exact hlog
  | cons c cs ih =>
      obtain ⟨h₁, hcall, hrest⟩ := calls_cons_ok hrun
      obtain ⟨hc, hcs⟩ := List.forall_mem_cons.mp hconnected
      obtain ⟨hu, hus⟩ := List.forall_mem_cons.mp hupdates
      have hstep := ih (bookLogged_call hlog hc hu hcall) hcs hus hrest
      rw [List.append_assoc] at hstep
      have hentries : (messagesIn p (c :: cs)).flatMap messageEntries
          = ((messageIn p c).map messageEntries).getD []
            ++ (messagesIn p cs).flatMap messageEntries := by
        rw [messagesIn, List.filterMap_cons]
        cases messageIn p c <;> simp [messagesIn]
      rw [hentries]
      exact hstep

/-- A snapshot starts the log. -/
theorem bookLogged_snapshot {p : String} {c : Call} {s : Snapshot}
    {h h' : MessageHandler} (his : messageIn p c = some (.snapshot s))
    (hreadable : Readable (.snapshot s))
    (hrun : (call c).run h = .ok () h') :
    BookLogged p (messageEntries (.snapshot s)) h' := by
  cases l2Step_call p hrun with
  | message m b b' is book applied book' sent =>
      obtain rfl := Option.some.inj (is.symm.trans his)
      obtain ⟨hm, hready⟩ :=
        mirrors_applySnapshot hreadable.1 hreadable.2 applied
      exact ⟨b', book', hm, hready⟩
  | disconnect is =>
      rw [is] at his
      cases his
  | other no =>
      rw [no] at his
      cases his

-- =============================================================== the stream

/-- Prices and sizes have at most nine decimals, and no size is
negative. -/
structure Plain (x : Entry) : Prop where
  price : HasDecimals 9 x.price
  size : HasDecimals 9 x.size
  nonneg : 0 ≤ x.size

/-- A product's messages around its last snapshot, which is alone in its
millisecond. -/
structure Sequenced (p : String) (before : List L2Message) (s : Snapshot)
    (after : List L2Message) : Prop where
  sound : ∀ m ∈ before ++ .snapshot s :: after, Sound m
  product : ∀ m ∈ before ++ .snapshot s :: after, m.event.productId = p
  updates : ∀ m ∈ after, ∀ s', m ≠ .snapshot s'
  earlier : ∀ m ∈ before, receivedOf m < receivedOf (.snapshot s)
  later : ∀ m ∈ after, receivedOf (.snapshot s) ≤ receivedOf m
  received : after.Pairwise fun m m' => receivedOf m ≤ receivedOf m'
  exchanged : after.Pairwise fun m m' => exchangedOf m < exchangedOf m'
  twoSided : ∀ side, ∃ x ∈ messageEntries (.snapshot s),
    x.side = side ∧ 0 < x.size
  distinct : ((messageEntries (.snapshot s)).map Entry.level).Nodup
  plain : ∀ m ∈ .snapshot s :: after, ∀ x ∈ messageEntries m, Plain x

/-- The events from a snapshot on. -/
def eventsFrom (s : Snapshot) (after : List L2Message) : List BookEvent :=
  (L2Message.snapshot s :: after).flatMap messageEvents

/-- The order over the minutes, strictly. -/
theorem stamp_lt_iff {e e' : BookEvent} : e.stamp < e'.stamp
    ↔ e.eventMinute < e'.eventMinute
      ∨ e.eventMinute = e'.eventMinute ∧ e.order < e'.order :=
  Prod.Lex.toLex_lt_toLex

/-- A snapshot comes before a delta. -/
theorem order_lt_of_snapshot {e e' : BookEvent} (h : e.isSnapshot = true)
    (h' : e'.isSnapshot = false) : e.order < e'.order := by
  rw [BookEvent.order, BookEvent.order, if_pos h, if_neg (by simp [h'])]
  exact Prod.Lex.toLex_lt_toLex.mpr (Or.inl Nat.zero_lt_one)

/-- Of deltas the exchange's time decides, then the position. -/
theorem order_lt_of_time {e e' : BookEvent} (h : e.isSnapshot = false)
    (h' : e'.isSnapshot = false)
    (hlt : e.eventTime < e'.eventTime ∨ e.eventTime = e'.eventTime
      ∧ e.changeIndex < e'.changeIndex) : e.order < e'.order := by
  rw [BookEvent.order, BookEvent.order, if_neg (by simp [h]),
    if_neg (by simp [h'])]
  exact Prod.Lex.toLex_lt_toLex.mpr
    (Or.inr ⟨rfl, Prod.Lex.toLex_lt_toLex.mpr hlt⟩)

namespace Sequenced

variable {p : String} {before after : List L2Message} {s : Snapshot}

/-- The messages from the snapshot on are sound. -/
theorem of_mem (h : Sequenced p before s after) {m : L2Message}
    (hm : m ∈ .snapshot s :: after) : Sound m :=
  h.sound m (List.mem_append_right before hm)

/-- An update's events are no snapshot's. -/
theorem not_snapshot (h : Sequenced p before s after) {m : L2Message}
    (hm : m ∈ after) {e : BookEvent} (he : e ∈ messageEvents m) :
    e.isSnapshot = false := by
  obtain ⟨c, hc⟩ := (h.of_mem (List.mem_cons_of_mem _ hm)).read
  rw [← Bool.not_eq_true, isSnapshot_iff hc he]
  intro hx
  obtain ⟨s', hs'⟩ := hx
  exact h.updates m hm s' hs'

/-- What has at most nine decimals is cast to itself. -/
theorem asNumeric_eq (h : Sequenced p before s after) {m : L2Message}
    (hm : m ∈ .snapshot s :: after) {e : BookEvent}
    (he : e ∈ messageEvents m) : e.asNumeric = e := by
  obtain ⟨-, hsaid⟩ := said_message (h.of_mem hm).fed (h.of_mem hm).valued
  obtain ⟨x, hx, hex⟩ := exists_related hsaid he
  obtain ⟨hprice, hsize, -⟩ := h.plain m hm x hx
  have hp : e.price = some x.price := congrArg Prod.snd hex.level
  rw [BookEvent.asNumeric, hp, hex.size, Option.map_some, Option.map_some,
    roundAway_of_hasDecimals hprice, roundAway_of_hasDecimals hsize, ← hp,
    ← hex.size]

/-- The events from the snapshot on say what their entries say. -/
theorem said (h : Sequenced p before s after) {ms : List L2Message}
    (hms : ∀ m ∈ ms, m ∈ .snapshot s :: after) :
    List.Forall₂ Says (ms.flatMap messageEvents)
      (ms.flatMap messageEntries) := by
  induction ms with
  | nil => exact .nil
  | cons m ms ih =>
      obtain ⟨hm, hms⟩ := List.forall_mem_cons.mp hms
      rw [List.flatMap_cons, List.flatMap_cons]
      exact List.rel_append
        (said_message (h.of_mem hm).fed (h.of_mem hm).valued).2 (ih hms)

/-- A snapshot's events are about different levels. -/
theorem levels_nodup (h : Sequenced p before s after) :
    ((messageEvents (.snapshot s)).map BookEvent.level).Nodup := by
  have hsaid := (said_message (h.of_mem List.mem_cons_self).fed
    (h.of_mem List.mem_cons_self).valued).2
  rw [map_level hsaid]
  refine h.distinct.of_map.map_on fun x hx y hy hxy => ?_
  exact List.inj_on_of_nodup_map h.distinct hx hy (levelOf_inj hxy)

/-- The events of one message are in the order of their index. -/
theorem pairwise_update {u : Update} :
    (updateEvents u).Pairwise fun e e' => e.changeIndex < e'.changeIndex := by
  rw [updateEvents, List.pairwise_map]
  have h : (u.changes.zipIdx.map Prod.snd).Pairwise (· < ·) := by
    rw [List.zipIdx_map_snd]
    exact List.pairwise_lt_range'
  exact List.pairwise_map.mp h

/-- From the snapshot on, later events of a level come later in the
order the query sorts by. Within a message by the position, between
messages by the exchange's time, and over a minute by the time of
receipt; the snapshot comes first by its kind. -/
theorem inOrder_log (h : Sequenced p before s after) :
    InOrder BookEvent.level BookEvent.stamp (eventsFrom s after) := by
  have hminute : ∀ m e, e ∈ messageEvents m →
      e.eventMinute = truncate minute (receivedOf m) := fun m e he =>
    (of_mem_messageEvents he).2.2.1
  have htime : ∀ m e, e ∈ messageEvents m → e.eventTime = exchangedOf m :=
    fun m e he => (of_mem_messageEvents he).2.1
  have hle : ∀ m m' : L2Message, receivedOf m ≤ receivedOf m' →
      ∀ e ∈ messageEvents m, ∀ e' ∈ messageEvents m',
        e.order < e'.order → e.stamp < e'.stamp := by
    intro m m' hrec e he e' he' horder
    rw [stamp_lt_iff, hminute m e he, hminute m' e' he']
    have hmono : truncate minute (receivedOf m)
        ≤ truncate minute (receivedOf m') := truncate_mono (by decide) hrec
    rcases hmono.lt_or_eq with hlt | heq
    · exact Or.inl hlt
    · exact Or.inr ⟨heq, horder⟩
  rw [eventsFrom, List.flatMap_cons]
  refine List.pairwise_append.mpr ⟨?_, ?_, ?_⟩
  · -- within the snapshot no two events share a level
    have hne := List.pairwise_map.mp h.levels_nodup
    exact hne.imp fun hne hkey => absurd hkey hne
  · refine List.pairwise_flatMap.mpr ⟨fun m hm => ?_, ?_⟩
    · cases m with
      | snapshot s' => exact absurd rfl (h.updates _ hm s')
      | update u =>
          refine pairwise_update.imp_of_mem fun he he' hlt _ => ?_
          refine hle _ (.update u) le_rfl _ he _ he' (order_lt_of_time
            (h.not_snapshot hm he) (h.not_snapshot hm he') (Or.inr ?_))
          exact ⟨(htime _ _ he).trans (htime (.update u) _ he').symm, hlt⟩
    · refine (h.received.and h.exchanged).imp_of_mem
        fun {m m'} hm hm' hlt e he e' he' _ => ?_
      refine hle m m' hlt.1 e he e' he' (order_lt_of_time
        (h.not_snapshot hm he) (h.not_snapshot hm' he') (Or.inl ?_))
      rw [htime m e he, htime m' e' he']
      exact hlt.2
  · intro e he e' he' _
    obtain ⟨m, hm, he'⟩ := List.mem_flatMap.mp he'
    obtain ⟨c, hc⟩ := (h.of_mem List.mem_cons_self).read
    refine hle _ m (h.later m hm) e he e' he' (order_lt_of_snapshot ?_
      (h.not_snapshot hm he'))
    exact (isSnapshot_iff hc he).mpr ⟨s, rfl⟩

/-- The rows of the stream from the snapshot on are its events. -/
theorem mem_recorded (h : Sequenced p before s after) {e : BookEvent} :
    e ∈ recorded (before ++ .snapshot s :: after)
      ↔ (∃ m ∈ before, ∃ x ∈ messageEvents m, x.asNumeric = e)
        ∨ e ∈ eventsFrom s after := by
  rw [recorded, List.flatMap_append, List.map_append, List.mem_append]
  refine or_congr ?_ ?_
  · simp only [List.mem_map, List.mem_flatMap]
    constructor
    · intro hex
      obtain ⟨x, ⟨m, hm, hx⟩, hxe⟩ := hex
      exact ⟨m, hm, x, hx, hxe⟩
    · intro hex
      obtain ⟨m, hm, x, hx, hxe⟩ := hex
      exact ⟨x, ⟨m, hm, hx⟩, hxe⟩
  · rw [List.mem_map, eventsFrom]
    constructor
    · intro hex
      obtain ⟨x, hx, rfl⟩ := hex
      obtain ⟨m, hm, hmx⟩ := List.mem_flatMap.mp hx
      rw [h.asNumeric_eq hm hmx]
      exact hx
    · intro he
      obtain ⟨m, hm, hme⟩ := List.mem_flatMap.mp he
      exact ⟨e, he, h.asNumeric_eq hm hme⟩

/-- When the events from the snapshot on were received. -/
theorem stateTime_of_mem (h : Sequenced p before s after) {e : BookEvent}
    (he : e ∈ eventsFrom s after) :
    receivedOf (.snapshot s) ≤ e.stateTime ∧ e.productId = p := by
  obtain ⟨m, hm, he⟩ := List.mem_flatMap.mp he
  refine ⟨?_, ?_⟩
  · rw [(of_mem_messageEvents he).1]
    rcases List.mem_cons.mp hm with rfl | hm
    · exact le_rfl
    · exact h.later m hm
  · rw [productId_of_mem he]
    exact h.product m (List.mem_append_right before hm)

/-- The latest snapshot is the last one. -/
theorem latestSnapshot_eq (h : Sequenced p before s after) :
    latestSnapshot (recorded (before ++ .snapshot s :: after)) p
      = some (receivedOf (.snapshot s)) := by
  rw [latestSnapshot, maxOf_eq_some_iff]
  simp only [List.mem_map, List.mem_filter, Bool.and_eq_true,
    decide_eq_true_eq]
  constructor
  · obtain ⟨x, hx, -⟩ := h.twoSided .buy
    have hs : L2Message.snapshot s ∈ .snapshot s :: after :=
      List.mem_cons_self
    have hsaid := (said_message (h.of_mem hs).fed (h.of_mem hs).valued).2
    obtain ⟨e, he, -⟩ := exists_related hsaid.flip hx
    obtain ⟨c, hc⟩ := (h.of_mem hs).read
    have hmem : e ∈ eventsFrom s after := List.mem_flatMap.mpr ⟨_, hs, he⟩
    exact ⟨e, ⟨h.mem_recorded.mpr (Or.inr hmem),
      (h.stateTime_of_mem hmem).2, (isSnapshot_iff hc he).mpr ⟨s, rfl⟩⟩,
      (of_mem_messageEvents he).1⟩
  · rintro t ⟨e, ⟨he, -, hsnap⟩, rfl⟩
    rcases h.mem_recorded.mp he with ⟨m, hm, x, hx, rfl⟩ | he
    · have htime : x.asNumeric.stateTime = receivedOf m :=
        (of_mem_messageEvents hx).1
      rw [htime]
      exact (h.earlier m hm).le
    · obtain ⟨m, hm, he⟩ := List.mem_flatMap.mp he
      rcases List.mem_cons.mp hm with rfl | hm
      · exact (of_mem_messageEvents he).1.le
      · rw [h.not_snapshot hm he] at hsnap
        cases hsnap

/-- An event of the snapshot's time, and a snapshot's, is the last
snapshot's. -/
theorem mem_snapshotRows_iff (h : Sequenced p before s after)
    {e : BookEvent} :
    e ∈ snapshotRows (recorded (before ++ .snapshot s :: after)) p
      ↔ e ∈ messageEvents (.snapshot s) ∧ e.isResting = true := by
  rw [mem_snapshotRows, h.latestSnapshot_eq, Option.some.injEq]
  have hs : L2Message.snapshot s ∈ .snapshot s :: after :=
    List.mem_cons_self
  constructor
  · intro hex
    obtain ⟨he, -, htime, hsnap, hrest⟩ := hex
    refine ⟨?_, hrest⟩
    rcases h.mem_recorded.mp he with ⟨m, hm, x, hx, rfl⟩ | he
    · have hlt := h.earlier m hm
      rw [← (of_mem_messageEvents hx).1] at hlt
      exact absurd htime.symm hlt.ne
    · obtain ⟨m, hm, he⟩ := List.mem_flatMap.mp he
      rcases List.mem_cons.mp hm with rfl | hm
      · exact he
      · rw [h.not_snapshot hm he] at hsnap
        cases hsnap
  · intro hex
    obtain ⟨he, hrest⟩ := hex
    obtain ⟨c, hc⟩ := (h.of_mem hs).read
    have hmem : e ∈ eventsFrom s after := List.mem_flatMap.mpr ⟨_, hs, he⟩
    exact ⟨h.mem_recorded.mpr (Or.inr hmem), (h.stateTime_of_mem hmem).2,
      (of_mem_messageEvents he).1.symm, (isSnapshot_iff hc he).mpr ⟨s, rfl⟩,
      hrest⟩

end Sequenced

/-- The message is received in or before a minute. -/
def inBy (M : Int) (m : L2Message) : Bool :=
  truncate minute (receivedOf m) ≤ M

/-- The entries from a snapshot on, up to a minute. -/
def entriesBy (M : Int) (s : Snapshot) (after : List L2Message) :
    List Entry :=
  ((L2Message.snapshot s :: after).filter (inBy M)).flatMap messageEntries

-- ================================================================= the mid

/-- The prices of one side at which something rests. -/
def restingPrices (side : Side) (xs : List Entry) : List ℚ :=
  (xs.filter fun x => x.side = side && 0 < x.size).map Entry.price

/-- Half way between the best bid and the best ask. -/
def midOf (xs : List Entry) : Option ℚ := do
  let ask ← minOf (restingPrices .sell xs)
  let bid ← maxOf (restingPrices .buy xs)
  pure (divNumeric (ask + bid) 2)

/-- A resting price is that of an entry with a positive size. -/
theorem mem_restingPrices {side : Side} {xs : List Entry} {q : ℚ} :
    q ∈ restingPrices side xs
      ↔ ∃ x ∈ xs, x.side = side ∧ 0 < x.size ∧ x.price = q := by
  simp only [restingPrices, List.mem_map, List.mem_filter,
    Bool.and_eq_true, decide_eq_true_eq, and_assoc]

/-- A snapshot with both sides resting has a mid. -/
theorem midOf_isSome {xs : List Entry}
    (h : ∀ side, ∃ x ∈ xs, x.side = side ∧ 0 < x.size) :
    ∃ mid, midOf xs = some mid := by
  have hprice : ∀ side, ∃ q, q ∈ restingPrices side xs := by
    intro side
    obtain ⟨x, hx, hside, hpos⟩ := h side
    exact ⟨x.price, mem_restingPrices.mpr ⟨x, hx, hside, hpos, rfl⟩⟩
  obtain ⟨q, hq⟩ := hprice .sell
  obtain ⟨q', hq'⟩ := hprice .buy
  obtain ⟨ask, hask⟩ := exists_minOf hq
  obtain ⟨bid, hbid⟩ := exists_maxOf hq'
  exact ⟨divNumeric (ask + bid) 2, by simp [midOf, hask, hbid]⟩

namespace Sequenced

variable {p : String} {before after : List L2Message} {s : Snapshot}

/-- The reference mid is the last snapshot's. The query takes the
resting prices of the latest snapshot's events on either side, and these
are the prices of its entries. -/
theorem referenceMid_eq (h : Sequenced p before s after) :
    referenceMid (recorded (before ++ .snapshot s :: after)) p
      = midOf (messageEntries (.snapshot s)) := by
  have hs : L2Message.snapshot s ∈ .snapshot s :: after :=
    List.mem_cons_self
  have hsaid := (said_message (h.of_mem hs).fed (h.of_mem hs).valued).2
  have hside : ∀ {e x}, Says e x → ∀ side : Side,
      e.side = some side.name ↔ x.side = side := by
    intro e x hex side
    have hlevel : e.side = some x.side.name := congrArg Prod.fst hex.level
    rw [hlevel, Option.some.injEq]
    exact ⟨Side.name_inj, congrArg Side.name⟩
  have hrest : ∀ {e x}, Says e x → (e.isResting = true ↔ 0 < x.size) := by
    intro e x hex
    rw [BookEvent.isResting, hex.size, Option.any_some, decide_eq_true_eq]
  have hprices : ∀ (side : Side) (q : ℚ),
      q ∈ pricesOf side.name
          (snapshotRows (recorded (before ++ .snapshot s :: after)) p)
        ↔ q ∈ restingPrices side (messageEntries (.snapshot s)) := by
    intro side q
    rw [mem_pricesOf, mem_restingPrices]
    simp only [h.mem_snapshotRows_iff]
    constructor
    · intro hall
      obtain ⟨e, ⟨he, hpos⟩, hse, hq⟩ := hall
      obtain ⟨x, hx, hex⟩ := exists_related hsaid he
      have hprice : e.price = some x.price := congrArg Prod.snd hex.level
      exact ⟨x, hx, (hside hex side).mp hse, (hrest hex).mp hpos,
        Option.some.inj (hprice.symm.trans hq)⟩
    · intro hall
      obtain ⟨x, hx, hsx, hpos, rfl⟩ := hall
      obtain ⟨e, he, hex⟩ := exists_related hsaid.flip hx
      have hprice : e.price = some x.price := congrArg Prod.snd hex.level
      exact ⟨e, ⟨he, (hrest hex).mpr hpos⟩, (hside hex side).mpr hsx, hprice⟩
  rw [referenceMid, midOf, ← minOf_congr (hprices .sell),
    ← maxOf_congr (hprices .buy)]
  rfl

/-- The rows since the snapshot are the events from it on. -/
theorem mem_unpruned_iff (h : Sequenced p before s after) {e : BookEvent} :
    e ∈ unpruned (recorded (before ++ .snapshot s :: after))
      ↔ e ∈ eventsFrom s after := by
  obtain ⟨mid, hmid⟩ := midOf_isSome h.twoSided
  rw [← h.referenceMid_eq] at hmid
  rw [mem_unpruned]
  constructor
  · intro hex
    obtain ⟨he, t, ht, -, -, hle⟩ := hex
    rcases h.mem_recorded.mp he with ⟨m, hm, x, hx, rfl⟩ | he
    · have hp : x.asNumeric.productId = p := (productId_of_mem hx).trans
        (h.product m (List.mem_append_left _ hm))
      rw [hp, h.latestSnapshot_eq] at ht
      obtain rfl := Option.some.inj ht
      have htime : x.asNumeric.stateTime = receivedOf m :=
        (of_mem_messageEvents hx).1
      rw [htime] at hle
      exact absurd (h.earlier m hm) (not_lt.mpr hle)
    · exact he
  · intro he
    obtain ⟨hle, hp⟩ := h.stateTime_of_mem he
    rw [hp]
    exact ⟨h.mem_recorded.mpr (Or.inr he), _, h.latestSnapshot_eq, mid, hmid,
      hle⟩

/-- The events of the messages up to a minute are the events of those
minutes: a message is in the minute of its receipt, with all its
events. -/
theorem events_inBy (s : Snapshot) (after : List L2Message) (M : Int) :
    ((L2Message.snapshot s :: after).filter (inBy M)).flatMap messageEvents
      = (eventsFrom s after).filter fun e => e.eventMinute ≤ M := by
  rw [eventsFrom]
  generalize L2Message.snapshot s :: after = ms
  induction ms with
  | nil => rfl
  | cons m ms ih =>
      have hm : (messageEvents m).filter (fun e => e.eventMinute ≤ M)
          = if inBy M m then messageEvents m else [] := by
        by_cases hin : inBy M m = true
        · rw [if_pos hin]
          refine List.filter_eq_self.mpr fun e he => ?_
          rw [(of_mem_messageEvents he).2.2.1]
          exact hin
        · rw [if_neg hin]
          refine List.filter_eq_nil_iff.mpr fun e he => ?_
          rw [(of_mem_messageEvents he).2.2.1]
          exact hin
      rw [List.flatMap_cons, List.filter_append, hm, ← ih, List.filter_cons]
      split <;> simp

/-- What the query takes for a level is what was said about it up to the
minute. -/
theorem mem_mentions_iff (h : Sequenced p before s after) {M : Int}
    {k : Option String × Option ℚ} {e : BookEvent} :
    e ∈ mentions (unpruned (recorded (before ++ .snapshot s :: after)))
        (p, M) k
      ↔ e ∈ (eventsFrom s after).filter (fun e => e.eventMinute ≤ M)
        ∧ e.level = k := by
  rw [mem_mentions, h.mem_unpruned_iff, List.mem_filter, decide_eq_true_eq]
  constructor
  · intro hall
    obtain ⟨he, -, hk, hle⟩ := hall
    exact ⟨⟨he, hle⟩, hk⟩
  · intro hall
    obtain ⟨⟨he, hle⟩, hk⟩ := hall
    exact ⟨he, (h.stateTime_of_mem he).2, hk, hle⟩

/-- The last event about a level says what the last entry says. -/
theorem said_last (h : Sequenced p before s after) (M : Int) (side : Side)
    (q : ℚ) :
    Option.Rel Says
      (lastOf BookEvent.level
        ((eventsFrom s after).filter fun e => e.eventMinute ≤ M)
        (some side.name, some q))
      (lastOf Entry.level (entriesBy M s after) (side, q)) := by
  have hin : ∀ m ∈ (L2Message.snapshot s :: after).filter (inBy M),
      m ∈ .snapshot s :: after :=
    fun m hm => (List.mem_filter.mp hm).1
  have hsaid := h.said hin
  rw [events_inBy] at hsaid
  refine lastOf_related (fun e x hex => ?_) hsaid
  rw [hex.level]
  constructor
  · exact fun hk => levelOf_inj (y := ⟨side, q, 0⟩) hk
  · intro hk
    obtain ⟨hs, hq⟩ := Prod.mk.inj hk
    rw [hs, hq]

/-- Every level is settled, in every minute: the events about it are in
the order of their stamps, so only the last can be taken, and it says
what the log says. -/
theorem settled (h : Sequenced p before s after) (M : Int) (mid : ℚ) :
    LevelsSettled (unpruned (recorded (before ++ .snapshot s :: after)))
      (entriesBy M s after) (p, M) mid := by
  have horder := h.inOrder_log.filter fun e => e.eventMinute ≤ M
  intro side q _
  have hrel := h.said_last M side q
  constructor
  · intro hnil
    cases hlast : lastOf Entry.level (entriesBy M s after) (side, q) with
    | none => rw [sizeAfter, hlast]; rfl
    | some x =>
        rw [hlast] at hrel
        cases hl : lastOf BookEvent.level
            ((eventsFrom s after).filter fun e => e.eventMinute ≤ M)
            (some side.name, some q) with
        | none => rw [hl] at hrel; cases hrel
        | some e =>
            have hmem := h.mem_mentions_iff.mpr (of_lastOf hl)
            rw [hnil] at hmem
            cases hmem
  · intro e he
    obtain ⟨hmem, hmax⟩ := mem_greatest.mp he
    obtain ⟨hlog, hk⟩ := h.mem_mentions_iff.mp hmem
    have hlast := horder.lastOf_eq_some_iff.mpr ⟨hlog, hk, fun e' he' hk' =>
      hmax e' (h.mem_mentions_iff.mpr ⟨he', hk'⟩)⟩
    rw [hlast] at hrel
    cases hx : lastOf Entry.level (entriesBy M s after) (side, q) with
    | none => rw [hx] at hrel; cases hrel
    | some x =>
        rw [hx] at hrel
        obtain ⟨hex⟩ := hrel
        have hnonneg : 0 ≤ x.size := by
          obtain ⟨m, hm, hxm⟩ := List.mem_flatMap.mp (of_lastOf hx).1
          exact (h.plain m (List.mem_filter.mp hm).1 x hxm).nonneg
        rw [BookEvent.resting, hex.size, sizeAfter, hx, Option.bind_some]
        by_cases hzero : x.size = 0
        · simp [hzero]
        · have hpos : 0 < x.size := lt_of_le_of_ne hnonneg (Ne.symm hzero)
          simp [hzero, hpos]

end Sequenced

-- ============================================================== the result

/-- One call is made no later than another. -/
def MadeBefore (c c' : Call) : Prop :=
  ∀ t ∈ receivedAt c, ∀ t' ∈ receivedAt c', t ≤ t'

/-- What is asked of a run whose last snapshot of a product is handled by
the call `c`. -/
structure Reconstructible (p : String) (pre : List Call) (c : Call)
    (post : List Call) (s : Snapshot) : Prop where
  snapshot : messageIn p c = some (.snapshot s)
  last : ∀ c' ∈ post, ∀ s', messageIn p c' ≠ some (.snapshot s')
  connected : ∀ c' ∈ post, c' ≠ .onDisconnect
  ordered : (pre ++ c :: post).Pairwise MadeBefore
  alone : ∀ m ∈ messagesIn p (pre ++ post),
    receivedOf m ≠ receivedOf (.snapshot s)
  exchanged : (messagesIn p post).Pairwise fun m m' =>
    exchangedOf m < exchangedOf m'
  twoSided : ∀ side, ∃ x ∈ messageEntries (.snapshot s),
    x.side = side ∧ 0 < x.size
  distinct : ((messageEntries (.snapshot s)).map Entry.level).Nodup
  plain : ∀ m ∈ .snapshot s :: messagesIn p post, ∀ x ∈ messageEntries m,
    Plain x

section Result

variable {p : String} {pre post : List Call} {c : Call} {s : Snapshot}

/-- The messages of two lists of calls. -/
theorem messagesIn_append (cs cs' : List Call) :
    messagesIn p (cs ++ cs') = messagesIn p cs ++ messagesIn p cs' :=
  List.filterMap_append

/-- Messages of calls in order are received in order. -/
theorem received_le {c c' : Call} {m m' : L2Message} (h : MadeBefore c c')
    (hm : messageIn p c = some m) (hm' : messageIn p c' = some m') :
    receivedOf m ≤ receivedOf m' := by
  obtain ⟨t, ht, hmt⟩ :=
    receivedOf_of_read (messageIn_eq_some_iff.mp hm).1
  obtain ⟨t', ht', hmt'⟩ :=
    receivedOf_of_read (messageIn_eq_some_iff.mp hm').1
  rw [hmt, hmt']
  have hmillisecond : 0 < millisecond := by decide
  exact truncate_mono hmillisecond (h t ht t' ht')

/-- The messages of such a run are sequenced around its snapshot: what
was handled before it was received before it, and what was handled later
is an update received later. -/
theorem Reconstructible.sequenced (h : Reconstructible p pre c post s)
    (hsound : ∀ m ∈ messagesIn p (pre ++ c :: post), Sound m) :
    messagesIn p (pre ++ c :: post)
        = messagesIn p pre ++ .snapshot s :: messagesIn p post
      ∧ Sequenced p (messagesIn p pre) s (messagesIn p post) := by
  have hms : messagesIn p (pre ++ c :: post)
      = messagesIn p pre ++ .snapshot s :: messagesIn p post := by
    rw [messagesIn_append]
    congr 1
    rw [messagesIn, List.filterMap_cons, h.snapshot]
    rfl
  obtain ⟨-, hafter, hbetween⟩ := List.pairwise_append.mp h.ordered
  obtain ⟨hfrom, hpost⟩ := List.pairwise_cons.mp hafter
  have halone : ∀ m, m ∈ messagesIn p pre ∨ m ∈ messagesIn p post →
      receivedOf m ≠ receivedOf (.snapshot s) := by
    intro m hm
    refine h.alone m ?_
    rw [messagesIn_append]
    exact List.mem_append.mpr hm
  refine ⟨hms, {
    sound := fun m hm => hsound m (hms ▸ hm)
    product := fun m hm => (of_messagesIn (hms ▸ hm)).2
    updates := ?_
    earlier := ?_
    later := ?_
    received := ?_
    exchanged := h.exchanged
    twoSided := h.twoSided
    distinct := h.distinct
    plain := h.plain }⟩
  · intro m hm s' hs'
    obtain ⟨c', hc', hm⟩ := List.mem_filterMap.mp hm
    exact h.last c' hc' s' (hs' ▸ hm)
  · intro m hm
    refine lt_of_le_of_ne ?_ (halone m (Or.inl hm))
    obtain ⟨c', hc', hm⟩ := List.mem_filterMap.mp hm
    exact received_le (hbetween c' hc' c List.mem_cons_self) hm h.snapshot
  · intro m hm
    obtain ⟨c', hc', hm⟩ := List.mem_filterMap.mp hm
    exact received_le (hfrom c' hc') h.snapshot hm
  · refine List.pairwise_filterMap.mpr (hpost.imp ?_)
    exact fun hcc m hm m' hm' => received_le hcc hm hm'

/-- Calls in the order of their times: those up to a minute are those
made in or before it. By induction from the right: the last call is made
after the minute, or none is. -/
theorem callsBy_eq {M : Int} {cs : List Call} (h : cs.Pairwise MadeBefore)
    (hconnected : ∀ c ∈ cs, c ≠ .onDisconnect) :
    callsBy M cs = cs.filter fun c => !madeAfter M c := by
  induction cs using List.reverseRecOn with
  | nil => rfl
  | append_singleton cs c ih =>
      obtain ⟨hcs, -, hlast⟩ := List.pairwise_append.mp h
      have hconn := List.forall_mem_append.mp hconnected
      rw [callsBy, List.rdropWhile_concat, List.filter_append]
      by_cases hc : madeAfter M c = true
      · rw [if_pos hc, List.filter_cons_of_neg (by simp [hc]),
          List.filter_nil, List.append_nil]
        exact ih hcs hconn.1
      · have hall : cs.filter (fun c => !madeAfter M c) = cs := by
          refine List.filter_eq_self.mpr fun c' hc' => ?_
          cases c' with
          | onDisconnect => exact absurd rfl (hconn.1 _ hc')
          | handle msg t =>
              cases c with
              | onDisconnect => exact absurd rfl (hconn.2 _ (by simp))
              | handle msg' t' =>
                  have hle : t ≤ t' :=
                    hlast _ hc' _ (List.mem_singleton_self _) t rfl t' rfl
                  have hmono : truncate minute t ≤ truncate minute t' :=
                    truncate_mono (by decide) hle
                  simp only [madeAfter, receivedAt, Option.all_some,
                    decide_eq_true_eq, not_lt, Bool.not_eq_true',
                    decide_eq_false_iff_not] at hc ⊢
                  omega
        rw [if_neg hc, List.filter_cons_of_pos (by simpa using hc),
          List.filter_nil, hall]

/-- A call is made after a minute when its message is received after
it. -/
theorem madeAfter_of_message {M : Int} {c : Call} {m : L2Message}
    (h : messageIn p c = some m) : madeAfter M c = !inBy M m := by
  obtain ⟨t, ht, hm⟩ := receivedOf_of_read (messageIn_eq_some_iff.mp h).1
  have htrunc : truncate minute (receivedOf m) = truncate minute t := by
    refine (truncate_of_millisecond ?_).1
    rw [hm]
    exact Int.mul_ediv_cancel _ (by decide)
  rw [madeAfter, ht, Option.all_some, inBy, htrunc, ← decide_not]
  exact decide_eq_decide.mpr (not_le).symm

/-- The messages of the calls up to a minute. -/
theorem messagesIn_callsBy {M : Int} {cs : List Call}
    (h : cs.Pairwise MadeBefore) (hconnected : ∀ c ∈ cs, c ≠ .onDisconnect) :
    messagesIn p (callsBy M cs) = (messagesIn p cs).filter (inBy M) := by
  rw [callsBy_eq h hconnected]
  clear h hconnected
  induction cs with
  | nil => rfl
  | cons c cs ih =>
      rw [messagesIn] at ih ⊢
      rw [messagesIn, List.filterMap_cons]
      cases hm : messageIn p c with
      | none =>
          rw [List.filter_cons]
          split
          · rw [List.filterMap_cons, hm]
            exact ih
          · exact ih
      | some m =>
          rw [List.filter_cons, List.filter_cons, madeAfter_of_message hm,
            Bool.not_not]
          split
          · rw [List.filterMap_cons, hm]
            exact congrArg (m :: ·) ih
          · exact ih

/-- The calls up to a minute of or after the snapshot's. -/
theorem callsBy_append {M : Int} (hc : madeAfter M c = false) :
    callsBy M (pre ++ c :: post) = pre ++ c :: callsBy M post := by
  induction post using List.reverseRecOn with
  | nil =>
      rw [callsBy, List.rdropWhile_concat_neg _ _ _ (by simp [hc])]
      rfl
  | append_singleton post c' ih =>
      have happend : pre ++ c :: (post ++ [c']) = (pre ++ c :: post) ++ [c'] := by
        simp
      rw [callsBy] at ih ⊢
      rw [callsBy] at ih ⊢
      rw [happend, List.rdropWhile_concat, List.rdropWhile_concat]
      split
      · exact ih
      · simp

/-- After a product's last snapshot, with no disconnect: whatever order
the raw rows lie in and however often each was delivered, the rows of a
minute are the in-band levels of the book after the last message
received in or before it, the band being taken around the mid of the
snapshot.

The staged rows are the messages' events as a set, which are in order
from the snapshot on, so that every level is settled; the live book is
the one of the same log, cut at the minute. -/
theorem sql_book_agrees {vars : Vars} {now : Int} {rows : List RawL2}
    {es : List StgL2Event} (run : L2Run)
    (hcalls : run.calls = pre ++ c :: post)
    (hok : completes run.products { refuses := run.refuses } run.calls = true)
    (h : Reconstructible p pre c post s)
    (hrows : Landed vars now p (run.published p) rows)
    (hes : stgL2Events vars now rows = some es) :
    ∃ mid, midOf (messageEntries (.snapshot s)) = some mid
      ∧ ∀ (E : Engine) (M : Int),
        (p, M) ∈ minuteGrid (relevant (bookEvents es)) →
        ∃ b, (after run.products { refuses := run.refuses }
            (callsBy M run.calls)).books p = some b
          ∧ (group BookRow.gridKey (intBookState1m E es) (p, M)).Perm
            (liveRows (p, M) mid b) := by
  obtain ⟨hsound, hsame, hsided⟩ := run.staged hrows hes
  have hrun := calls_of_completes hok
  have hreturned : run.handler.returned run.calls = run.calls :=
    (serve_of_calls hrun).2
  have hmessages : run.messages p = messagesIn p (pre ++ c :: post) := by
    rw [L2Run.messages, hreturned, hcalls]
  rw [hmessages] at hsound hsame
  obtain ⟨hms, hseq⟩ := h.sequenced hsound
  rw [hms] at hsame
  obtain ⟨mid, hmid⟩ := midOf_isSome hseq.twoSided
  refine ⟨mid, hmid, fun E M hg => ?_⟩
  have hmid' : referenceMid (bookEvents es) p = some mid := by
    rw [referenceMid_congr hsame, hseq.referenceMid_eq, hmid]
  -- the minutes of the grid are not before the snapshot's
  have hin : inBy M (.snapshot s) = true := by
    obtain ⟨e, he, hgrid⟩ := List.mem_map.mp (List.mem_dedup.mp hg)
    obtain ⟨hp, rfl⟩ := Prod.mk.inj hgrid
    have hfrom : e ∈ eventsFrom s (messagesIn p post) :=
      hseq.mem_unpruned_iff.mp
        ((unpruned_congr hsame e hp).mp (mem_relevant.mp he).1)
    obtain ⟨m, -, hme⟩ := List.mem_flatMap.mp hfrom
    have hle := (hseq.stateTime_of_mem hfrom).1
    rw [(of_mem_messageEvents hme).1] at hle
    rw [inBy, (of_mem_messageEvents hme).2.2.1, decide_eq_true_eq]
    exact truncate_mono (by decide) hle
  have hlog : ∃ b, (after run.products { refuses := run.refuses }
        (callsBy M run.calls)).books p = some b
      ∧ Mirrors (entriesBy M s (messagesIn p post)) b := by
    have hmade : madeAfter M c = false := by
      rw [madeAfter_of_message h.snapshot, hin]
      rfl
    obtain ⟨-, hafter, -⟩ := List.pairwise_append.mp h.ordered
    obtain ⟨-, hpost⟩ := List.pairwise_cons.mp hafter
    have hprefix : callsBy M post <+: post := List.rdropWhile_prefix _ _
    obtain ⟨rest, hrest⟩ := hprefix
    have hsplit : run.calls = (pre ++ c :: callsBy M post) ++ rest := by
      rw [hcalls]
      conv_lhs => rw [← hrest]
      simp
    have hconnected : ∀ c' ∈ callsBy M post, c' ≠ .onDisconnect :=
      fun c' hc' => h.connected c' ((List.rdropWhile_prefix _ _).subset hc')
    have hsnap : Sound (.snapshot s) := hseq.of_mem List.mem_cons_self
    have hupdates : ∀ c' ∈ callsBy M post, ∀ m, messageIn p c' = some m →
        Readable m ∧ ∀ s', m ≠ .snapshot s' := by
      intro c' hc' m hm
      have hmem : m ∈ messagesIn p post := List.mem_filterMap.mpr
        ⟨c', (List.rdropWhile_prefix _ _).subset hc', hm⟩
      exact ⟨(hseq.of_mem (List.mem_cons_of_mem _ hmem)).readable,
        hseq.updates m hmem⟩
    rw [hsplit] at hrun
    obtain ⟨h₃, hby, -⟩ := calls_append_ok hrun
    obtain ⟨h₁, -, hfrom⟩ := calls_append_ok hby
    obtain ⟨h₂, hsnapshot, hafter⟩ := calls_cons_ok hfrom
    obtain ⟨b, hb, hm, -⟩ := bookLogged_calls
      (bookLogged_snapshot h.snapshot hsnap.readable hsnapshot) hconnected
      hupdates hafter
    refine ⟨b, ?_, ?_⟩
    · rw [hcalls, callsBy_append hmade, after, hby]
      exact hb
    · rw [messagesIn_callsBy hpost h.connected] at hm
      rw [entriesBy, List.filter_cons_of_pos hin]
      exact hm
  obtain ⟨b, hb, hm⟩ := hlog
  refine ⟨b, hb, ?_⟩
  refine (levelsSettled_iff hg hmid' hsided hm).mpr ?_ E
  rw [levelsSettled_congr (g := (p, M)) (unpruned_congr hsame)]
  exact hseq.settled M mid

end Result

-- ============================================================= two examples

/-- Prices of a few times `10^-9`: the mid is rounded up to `1.2 · 10^-7`
and its hundredth down to `10^-9`. -/
def thinMarket : L2Run where
  products := ["BTC-USD"]
  calls := [
    btcCall "snapshot" [
      ("bids", .arr [.arr [.str "0.000000119", .str "1"]]),
      ("asks", .arr [.arr [.str "0.000000120", .str "1"],
        .arr [.str "0.000000121", .str "1"]])] 0]
  fed := by decide +kernel

/-- The mid of the snapshot is `1.195 · 10^-7`, and an ask more than 1%
away from it has a row. -/
theorem rounded_mid_widens_the_band :
    ∃ es, stgL2Events {} 0 thinMarket.btcRows = some es
      ∧ (some "sell", some (121 / 10 ^ 9)) ∈
          (group BookRow.gridKey (intBookState1m Engine.inOrder es)
            ("BTC-USD", 0)).map (fun r => (r.side, r.price))
      ∧ ((thinMarket.messages "BTC-USD").map fun m =>
          (restingPrices .buy (messageEntries m),
            restingPrices .sell (messageEntries m)))
        = [([119 / 10 ^ 9], [120 / 10 ^ 9, 121 / 10 ^ 9])]
      ∧ ¬ |(121 / 10 ^ 9 : ℚ) - (119 / 10 ^ 9 + 120 / 10 ^ 9) / 2|
          ≤ (119 / 10 ^ 9 + 120 / 10 ^ 9) / 2 * (1 / 100) := by
  refine ⟨(stgL2Events {} 0 thinMarket.btcRows).getD [], ?_⟩
  decide +kernel

/-- A snapshot. -/
def quietSnapshot : Call :=
  btcCall "snapshot" [
    ("bids", .arr [.arr [.str "100", .str "1"]]),
    ("asks", .arr [.arr [.str "100.5", .str "1"]])] 0

/-- The ask is removed, and a minute later set again. -/
def quietUpdates : List Call := [
  btcCall "l2update" [
    ("changes", .arr [.arr [.str "sell", .str "100.5", .str "0"]]),
    ("time", .str "1970-01-01T00:00:02.000300Z")] 2040,
  btcCall "l2update" [
    ("changes", .arr [.arr [.str "sell", .str "100.5", .str "2"]]),
    ("time", .str "1970-01-01T00:01:02.000700Z")] 62041]

/-- A market in which nothing ties. -/
def quietMarket : L2Run where
  products := ["BTC-USD"]
  calls := quietSnapshot :: quietUpdates
  fed := by decide +kernel

/-- The message is a snapshot. -/
def isSnapshotMessage : L2Message → Bool
  | .snapshot _ => true
  | .update _ => false

/-- It is as the theorem asks. -/
theorem quiet_reconstructible :
    ∃ s, Reconstructible "BTC-USD" [] quietSnapshot quietUpdates s := by
  have hmessage : (messageIn "BTC-USD" quietSnapshot).map (fun m =>
      (isSnapshotMessage m, receivedOf m, messageEntries m))
      = some (true, 0, [⟨.buy, 100, 1⟩, ⟨.sell, 201 / 2, 1⟩]) := by
    decide +kernel
  have hafter : (messagesIn "BTC-USD" quietUpdates).map (fun m =>
      (receivedOf m, exchangedOf m, messageEntries m))
      = [(2040000, 2000000, [⟨.sell, 201 / 2, 0⟩]),
        (62041000, 62000000, [⟨.sell, 201 / 2, 2⟩])] := by
    decide +kernel
  have hupdates : quietUpdates.map (fun c =>
      (messageIn "BTC-USD" c).map isSnapshotMessage)
      = [some false, some false] := by
    decide +kernel
  obtain ⟨u₁, us, hms, h₁, hus⟩ := List.map_eq_cons_iff.mp hafter
  obtain ⟨u₂, us', rfl, h₂, hnil⟩ := List.map_eq_cons_iff.mp hus
  obtain rfl := List.map_eq_nil_iff.mp hnil
  obtain ⟨m, hm, hfields⟩ := Option.map_eq_some_iff.mp hmessage
  simp only [Prod.mk.injEq] at hfields h₁ h₂
  obtain ⟨his, hreceived, hentries⟩ := hfields
  obtain ⟨hreceived₁, hexchanged₁, hentries₁⟩ := h₁
  obtain ⟨hreceived₂, hexchanged₂, hentries₂⟩ := h₂
  cases m with
  | update u => cases his
  | snapshot s =>
      refine ⟨s, {
        snapshot := hm
        last := ?_
        connected := ?_
        ordered := ?_
        alone := ?_
        exchanged := ?_
        twoSided := ?_
        distinct := ?_
        plain := ?_ }⟩
      · intro c hc s' hs'
        have hmem : (messageIn "BTC-USD" c).map isSnapshotMessage
            ∈ [some false, some false] := hupdates ▸ List.mem_map_of_mem hc
        rw [hs'] at hmem
        simp [isSnapshotMessage] at hmem
      · simp [quietUpdates, btcCall]
      · simp [quietUpdates, quietSnapshot, btcCall, MadeBefore, receivedAt]
      · intro m hm
        have hm : m ∈ messagesIn "BTC-USD" quietUpdates := hm
        rw [hms, List.mem_cons, List.mem_singleton] at hm
        rw [hreceived]
        rcases hm with rfl | rfl
        · rw [hreceived₁]
          decide
        · rw [hreceived₂]
          decide
      · simp [hms, hexchanged₁, hexchanged₂]
      · intro side
        rw [hentries]
        cases side
        · exact ⟨⟨.buy, 100, 1⟩, by simp, rfl, by norm_num⟩
        · exact ⟨⟨.sell, 201 / 2, 1⟩, by simp, rfl, by norm_num⟩
      · simp [hentries, Entry.level]
      · intro m hm x hx
        have hx' : x ∈ [(⟨.buy, 100, 1⟩ : Entry), ⟨.sell, 201 / 2, 1⟩,
            ⟨.sell, 201 / 2, 0⟩, ⟨.sell, 201 / 2, 2⟩] := by
          rw [hms] at hm
          simp only [List.mem_cons, List.not_mem_nil, or_false] at hm
          rcases hm with rfl | rfl | rfl
          · rw [hentries] at hx
            simp only [List.mem_cons, List.not_mem_nil, or_false] at hx ⊢
            tauto
          · rw [hentries₁] at hx
            simp only [List.mem_cons, List.not_mem_nil, or_false] at hx ⊢
            tauto
          · rw [hentries₂] at hx
            simp only [List.mem_cons, List.not_mem_nil, or_false] at hx ⊢
            tauto
        have hall : ∀ x ∈ [(⟨.buy, 100, 1⟩ : Entry), ⟨.sell, 201 / 2, 1⟩,
            ⟨.sell, 201 / 2, 0⟩, ⟨.sell, 201 / 2, 2⟩],
            HasDecimals 9 x.price ∧ HasDecimals 9 x.size ∧ 0 ≤ x.size := by
          decide +kernel
        obtain ⟨hprice, hsize, hnonneg⟩ := hall x hx'
        exact ⟨hprice, hsize, hnonneg⟩

/-- In the second minute the ask is back. -/
theorem sql_book_agrees_quiet :
    ∃ es s mid, stgL2Events {} 0 quietMarket.btcRows = some es
      ∧ midOf (messageEntries (.snapshot s)) = some mid
      ∧ ∀ (E : Engine) (M : Int),
        ("BTC-USD", M) ∈ minuteGrid (relevant (bookEvents es)) →
        ∃ b, (after quietMarket.products { refuses := quietMarket.refuses }
            (callsBy M quietMarket.calls)).books "BTC-USD" = some b
          ∧ (group BookRow.gridKey (intBookState1m E es)
              ("BTC-USD", M)).Perm (liveRows ("BTC-USD", M) mid b) := by
  have hes : stgL2Events {} 0 quietMarket.btcRows
      = some ((stgL2Events {} 0 quietMarket.btcRows).getD []) := by
    decide +kernel
  obtain ⟨s, hs⟩ := quiet_reconstructible
  obtain ⟨mid, hmid, hagree⟩ := sql_book_agrees quietMarket rfl
    (by decide +kernel) hs (landed_btcRows quietMarket) hes
  exact ⟨_, s, mid, hes, hmid, hagree⟩

end MarketPlatform.Warehouse
