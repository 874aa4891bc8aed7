/-
What the handlers' parts do, once each.

# Parts

Every part of a handler that touches the state gets one equation for its
run: the tracker and the cross-check of a heartbeat never raise
(`run_trackContinuity`, `run_trackHeartbeat`), a publish raises exactly
when it is refused (`run_publish`), and a book's program changes the
books alone (`run_onBook`). What a message says is computed without a
state (`tradeOf`, `snapshotOf`, `updateOf`, `heartbeatOf`), by the same
expressions in the same order.

# Handlers

Every handler gets one inversion: a call that does not raise has read
its fields and made exactly the updates named there. `Handled` collects
them, one constructor for each kind of message, and `handle_ok` gives it
of any message that does not raise. Later files cite these and never
unfold a handler.

# What a raise leaves

Where a call may raise, nothing can be inverted, and what is shown is a
judgment about the whole program: `PassesOver` says that it goes through
statements that leave a projection alone, and `Leaves` that the
projection is such; then it holds of handling any message
(`PassesOver.handle`).
-/
import MarketPlatform.Consumer.Handler

namespace MarketPlatform.Consumer.MessageHandler

open Lib EStateM

-- ============================================================== counting

/-- What `_track_continuity` adds to the counters. -/
def countObservation (c : Counters) (o : Observation) : Counters :=
  match o.continuity with
  | .gap =>
      { c with
        sequenceGapsTotal := c.sequenceGapsTotal + 1
        messagesLostTotal := c.messagesLostTotal + o.missing }
  | .duplicate => { c with duplicatesTotal := c.duplicatesTotal + 1 }
  | _ => c

/-- The handler after `_track_continuity`. -/
def tracked (h : MessageHandler) (p : String) (v : Int) : MessageHandler :=
  { h with
    continuity := (h.continuity.observe p v).1
    counters := countObservation h.counters (h.continuity.observe p v).2 }

/-- The handler after the cross-check of a heartbeat. -/
def heartbeatTracked (h : MessageHandler) (p : String) (v : Int) :
    MessageHandler :=
  match h.continuity.lastSeen p with
  | none => h
  | some seen =>
      if v > seen then
        { h with
          continuity := (h.continuity.observe p v).1
          counters := { h.counters with
            heartbeatDetectedGapsTotal :=
              h.counters.heartbeatDetectedGapsTotal + 1
            messagesLostTotal :=
              h.counters.messagesLostTotal + (v - seen) } }
      else h

/-- None of the consumer's own log keys is reserved, except the one of a
feed error. -/
theorem logExtra_eq_pure {keys : List String}
    (h : (keys.any fun k => k ∈ reservedKeys) = false) :
    logExtra keys = pure () := by
  unfold logExtra
  rw [h]
  rfl

/-- A feed error is logged under a key that is reserved. -/
theorem logExtra_message : logExtra ["message"] = throw .keyError := rfl

/-- `_track_continuity` never raises. -/
theorem run_trackContinuity (h : MessageHandler) (p : String) (v : Int) :
    (trackContinuity p v).run h = .ok () (h.tracked p v) := by
  have hlog : logExtra ["product_id", "expected_trade_id",
      "received_trade_id", "missing"] = pure () :=
    logExtra_eq_pure (by decide)
  unfold trackContinuity tracked countObservation
  rw [hlog, run_get_bind, run_set_bind]
  cases (h.continuity.observe p v).2.continuity <;> rfl

/-- The cross-check of a heartbeat never raises. -/
theorem run_trackHeartbeat (h : MessageHandler) (p : String) (v : Int) :
    (trackHeartbeat p v).run h = .ok () (h.heartbeatTracked p v) := by
  have hlog : logExtra ["product_id", "last_seen_trade_id",
      "heartbeat_last_trade_id", "missed"] = pure () :=
    logExtra_eq_pure (by decide)
  unfold trackHeartbeat heartbeatTracked
  rw [hlog, run_bind, run_get]
  cases hl : h.continuity.lastSeen p with
  | none => simp [hl]
  | some seen =>
      by_cases hv : v > seen
      · simp [hl, hv, withCounters]
      · simp [hl, hv]

/-- It touches neither the publisher nor the books. -/
theorem heartbeatTracked_frame (h : MessageHandler) (p : String)
    (v : Int) :
    (h.heartbeatTracked p v).publisher = h.publisher
      ∧ (h.heartbeatTracked p v).books = h.books := by
  unfold heartbeatTracked
  split
  · exact ⟨rfl, rfl⟩
  · split <;> exact ⟨rfl, rfl⟩

-- ============================================================ publishing

/-- A publish raises exactly when the publisher refuses the call. -/
theorem run_publish (m : Published) (h : MessageHandler) :
    (publish m).run h
      = if h.publisher.refuses h.publisher.calls then
          .error .publishError { h with publisher := h.publisher.publish m }
        else .ok () { h with publisher := h.publisher.publish m } := by
  unfold publish
  rw [run_get_bind, run_set_bind]
  cases h.publisher.refuses h.publisher.calls <;> rfl

/-- A publish that does not raise appends its message. -/
theorem run_publish_ok {m : Published} {h h' : MessageHandler}
    (hrun : (publish m).run h = .ok () h') :
    h' = { h with publisher := h.publisher.publish m }
      ∧ h'.publisher.messages = h.publisher.messages ++ [m] := by
  rw [run_publish] at hrun
  cases hr : h.publisher.refuses h.publisher.calls with
  | true => simp [hr] at hrun
  | false =>
      simp only [hr, Bool.false_eq_true, if_false, Result.ok.injEq] at hrun
      obtain ⟨-, rfl⟩ := hrun
      exact ⟨rfl, by simp [Publisher.publish, hr]⟩

-- ============================================================ the records

/-- An expression that does not raise has a value for each of its
parts. -/
theorem bind_ok {α β : Type} {x : Py α} {f : α → Py β} {b : β}
    (h : (x >>= f) = .ok b) : ∃ a, x = .ok a ∧ f a = .ok b := by
  cases x with
  | ok a => exact ⟨a, rfl, h⟩
  | error e => cases h

/-- The record a match publishes, and its lag in microseconds. -/
def tradeOf (msg : Json) (receivedAt : Int) : Py (Trade × Int) := do
  let productId ← item msg "product_id" >>= asKey
  let tradeId ← item msg "trade_id" >>= pyInt
  let eventTime ← item msg "time" >>= parseTime
  let lag ← since receivedAt eventTime
  let sequence ← item msg "sequence" >>= pyInt
  let price ← (item msg "price").map pyStr
  let size ← (item msg "size").map pyStr
  let side ← (item msg "side").map pyStr
  let makerOrderId ← orderId msg "maker_order_id"
  let takerOrderId ← orderId msg "taker_order_id"
  pure ({
    sequence, productId, tradeId, price, size, side, makerOrderId,
    takerOrderId, eventTime := iso eventTime.micros,
    ingestTime := iso receivedAt }, lag)

/-- The handler after a match, up to the publisher. -/
def matched (h : MessageHandler) (trade : Trade) (lag : Int) :
    MessageHandler :=
  ((h.withCounters (·.recordMessage "trades")).tracked trade.productId
    trade.tradeId).withCounters (·.recordLag (lag / 1000))

/-- A match that does not raise. -/
theorem handleMatch_ok {msg : Json} {t : Int} {h h' : MessageHandler}
    (hrun : (handleMatch msg t).run h = .ok () h') :
    ∃ trade lag, tradeOf msg t = .ok (trade, lag)
      ∧ (publish ⟨.trades trade, trade.productId⟩).run
          (h.matched trade lag) = .ok () h' := by
  obtain ⟨p, hp, hrun⟩ := run_attempt_bind_ok hrun
  rw [run_modify_bind] at hrun
  obtain ⟨v, hv, hrun⟩ := run_attempt_bind_ok hrun
  rw [run_bind, run_trackContinuity] at hrun
  obtain ⟨time, htime, hrun⟩ := run_attempt_bind_ok hrun
  obtain ⟨lag, hlag, hrun⟩ := run_attempt_bind_ok hrun
  rw [run_modify_bind] at hrun
  obtain ⟨sequence, hseq, hrun⟩ := run_attempt_bind_ok hrun
  obtain ⟨price, hprice, hrun⟩ := run_attempt_bind_ok hrun
  obtain ⟨size, hsize, hrun⟩ := run_attempt_bind_ok hrun
  obtain ⟨side, hside, hrun⟩ := run_attempt_bind_ok hrun
  obtain ⟨maker, hmaker, hrun⟩ := run_attempt_bind_ok hrun
  obtain ⟨taker, htaker, hrun⟩ := run_attempt_bind_ok hrun
  refine ⟨_, lag, ?_, hrun⟩
  simp only [tradeOf, hp, hv, htime, hlag, hseq, hprice, hsize, hside,
    hmaker, htaker, ok_bind]
  rfl

/-- What an l2 message says: its levels and the record it publishes. -/
structure Snapshot where
  bids : List (Json × Json)
  asks : List (Json × Json)
  event : L2Event

/-- The same of an l2update. -/
structure Update where
  changes : List (Json × Json × Json)
  event : L2Event

/-- What a snapshot says, at a time of receipt. -/
def snapshotOf (msg : Json) (receivedAt : Int) : Py Snapshot := do
  let productId ← item msg "product_id" >>= asKey
  let bids ← pairs msg "bids"
  let asks ← pairs msg "asks"
  let sequence ← getD msg "sequence" (.int 0) >>= pyInt
  pure { bids, asks, event := {
    sequence, productId, eventType := "snapshot",
    payload := snapshotPayload bids asks,
    eventTime := iso receivedAt, ingestTime := iso receivedAt } }

/-- What an l2update says, at a time of receipt. -/
def updateOf (msg : Json) (receivedAt : Int) : Py Update := do
  let productId ← item msg "product_id" >>= asKey
  let changes ← triples msg "changes"
  let eventTime ← updateTime msg receivedAt
  let sequence ← getD msg "sequence" (.int 0) >>= pyInt
  pure { changes, event := {
    sequence, productId, eventType := "l2update",
    payload := updatePayload changes,
    eventTime := iso eventTime, ingestTime := iso receivedAt } }

/-- The record a heartbeat publishes. -/
def heartbeatOf (msg : Json) (receivedAt : Int) : Py Heartbeat := do
  let productId ← item msg "product_id" >>= asKey
  let lastTradeId ← getD msg "last_trade_id" (.int 0) >>= pyInt
  let sequence ← item msg "sequence" >>= pyInt
  let eventTime ← item msg "time" >>= parseTime
  pure {
    sequence, productId, lastTradeId,
    eventTime := iso eventTime.micros, ingestTime := iso receivedAt }

/-- A book's program, run on a handler. -/
theorem run_onBook (p : String) (x : EStateM Exc OrderBook Unit)
    (h : MessageHandler) :
    (onBook p x).run h
      = match h.books p with
        | none => .error .keyError h
        | some b =>
            match x.run b with
            | .ok a b' => .ok a { h with books := h.books.put p b' }
            | .error e b' =>
                .error e { h with books := h.books.put p b' } := rfl

/-- A book's program that does not raise has a book to run on. -/
theorem run_onBook_ok {p : String} {x : EStateM Exc OrderBook Unit}
    {h h' : MessageHandler} (hrun : (onBook p x).run h = .ok () h') :
    ∃ b b', h.books p = some b ∧ x.run b = .ok () b'
      ∧ h' = { h with books := h.books.put p b' } := by
  rw [run_onBook] at hrun
  cases hb : h.books p with
  | none => simp [hb] at hrun
  | some b =>
      cases hx : x.run b with
      | error e b' => simp [hb, hx] at hrun
      | ok a b' =>
          simp only [hb, hx, Result.ok.injEq, true_and] at hrun
          exact ⟨b, b', rfl, hx, hrun.symm⟩

/-- A book's program, raise or not, changes the books alone. -/
theorem state_onBook (p : String) (x : EStateM Exc OrderBook Unit)
    (h : MessageHandler) :
    ∃ books, ((onBook p x).run h).state = { h with books := books } := by
  rw [run_onBook]
  cases h.books p with
  | none => exact ⟨h.books, rfl⟩
  | some b =>
      cases hx : x.run b with
      | ok a b' => exact ⟨h.books.put p b', by simp only [hx]; rfl⟩
      | error e b' => exact ⟨h.books.put p b', by simp only [hx]; rfl⟩

/-- A snapshot that does not raise. -/
theorem handleSnapshot_ok {msg : Json} {t : Int} {h h' : MessageHandler}
    (hrun : (handleSnapshot msg t).run h = .ok () h') :
    ∃ s b b', snapshotOf msg t = .ok s
      ∧ h.books s.event.productId = some b
      ∧ (OrderBook.applySnapshot s.bids s.asks).run b = .ok () b'
      ∧ (publish ⟨.l2 s.event, s.event.productId⟩).run
          { h.withCounters (·.recordMessage "l2") with
            books := h.books.put s.event.productId b' } = .ok () h' := by
  obtain ⟨p, hp, hrun⟩ := run_attempt_bind_ok hrun
  rw [run_modify_bind] at hrun
  obtain ⟨bids, hbids, hrun⟩ := run_attempt_bind_ok hrun
  obtain ⟨asks, hasks, hrun⟩ := run_attempt_bind_ok hrun
  obtain ⟨⟨⟩, h₁, hbook, hrun⟩ := run_bind_ok hrun
  obtain ⟨b, b', hb, happly, rfl⟩ := run_onBook_ok hbook
  obtain ⟨sequence, hseq, hrun⟩ := run_attempt_bind_ok hrun
  refine ⟨⟨bids, asks, {
    sequence, productId := p, eventType := "snapshot",
    payload := snapshotPayload bids asks,
    eventTime := iso t, ingestTime := iso t }⟩, b, b', ?_, hb, happly, hrun⟩
  simp only [snapshotOf, hp, hbids, hasks, hseq, ok_bind]
  rfl

/-- The counters after the crossed-book check of an l2update. -/
def crossChecked (h : MessageHandler) (p : String) : MessageHandler :=
  match (h.books p).map OrderBook.quote with
  | some (.error .crossedBookError) =>
      h.withCounters fun c =>
        { c with crossedBooksTotal := c.crossedBooksTotal + 1 }
  | _ => h

/-- The check, raise or not, counts a crossed book. -/
theorem state_checkCrossed (p : String) (h : MessageHandler) :
    ((checkCrossed p).run h).state = h.crossChecked p := by
  have hlog : logExtra ["product_id", "error"] = pure () :=
    logExtra_eq_pure (by decide)
  unfold checkCrossed crossChecked
  rw [hlog, run_get_bind]
  cases (h.books p).map OrderBook.quote with
  | none => rfl
  | some q =>
      cases q with
      | ok q => rfl
      | error e => cases e <;> rfl

/-- A check that does not raise has counted what there is to count. -/
theorem run_checkCrossed_ok {p : String} {h h' : MessageHandler}
    (hrun : (checkCrossed p).run h = .ok () h') :
    h' = h.crossChecked p := by
  rw [← state_checkCrossed, hrun]
  rfl

/-- The crossed-book check counts crossed books and nothing else. -/
theorem crossChecked_eq (h : MessageHandler) (p : String) :
    ∃ f : Counters → Counters, h.crossChecked p = h.withCounters f
      ∧ ∀ c, (f c).messagesLostTotal = c.messagesLostTotal
        ∧ (f c).duplicatesTotal = c.duplicatesTotal := by
  unfold crossChecked
  split
  · exact ⟨_, rfl, fun c => ⟨rfl, rfl⟩⟩
  · exact ⟨id, rfl, fun c => ⟨rfl, rfl⟩⟩

/-- An l2update that does not raise. -/
theorem handleL2update_ok {msg : Json} {t : Int} {h h' : MessageHandler}
    (hrun : (handleL2update msg t).run h = .ok () h') :
    ∃ u b b', updateOf msg t = .ok u
      ∧ h.books u.event.productId = some b
      ∧ (OrderBook.applyUpdates u.changes).run b = .ok () b'
      ∧ (publish ⟨.l2 u.event, u.event.productId⟩).run
          (crossChecked { h.withCounters (·.recordMessage "l2") with
            books := h.books.put u.event.productId b' }
            u.event.productId) = .ok () h' := by
  obtain ⟨p, hp, hrun⟩ := run_attempt_bind_ok hrun
  rw [run_modify_bind] at hrun
  obtain ⟨changes, hchanges, hrun⟩ := run_attempt_bind_ok hrun
  obtain ⟨⟨⟩, h₁, hbook, hrun⟩ := run_bind_ok hrun
  obtain ⟨b, b', hb, happly, rfl⟩ := run_onBook_ok hbook
  obtain ⟨⟨⟩, h₂, hcheck, hrun⟩ := run_bind_ok hrun
  obtain rfl := run_checkCrossed_ok hcheck
  obtain ⟨time, htime, hrun⟩ := run_attempt_bind_ok hrun
  obtain ⟨sequence, hseq, hrun⟩ := run_attempt_bind_ok hrun
  refine ⟨⟨changes, {
    sequence, productId := p, eventType := "l2update",
    payload := updatePayload changes,
    eventTime := iso time, ingestTime := iso t }⟩, b, b', ?_, hb, happly,
    hrun⟩
  simp only [updateOf, hp, hchanges, htime, hseq, ok_bind]
  rfl

/-- A heartbeat that does not raise. -/
theorem handleHeartbeat_ok {msg : Json} {t : Int} {h h' : MessageHandler}
    (hrun : (handleHeartbeat msg t).run h = .ok () h') :
    ∃ beat, heartbeatOf msg t = .ok beat
      ∧ (publish ⟨.heartbeat beat, beat.productId⟩).run
          (heartbeatTracked
            { h.withCounters (·.recordMessage "heartbeat") with
              lastHeartbeatAt := some t }
            beat.productId beat.lastTradeId) = .ok () h' := by
  obtain ⟨p, hp, hrun⟩ := run_attempt_bind_ok hrun
  rw [run_modify_bind, run_modify_bind] at hrun
  obtain ⟨v, hv, hrun⟩ := run_attempt_bind_ok hrun
  rw [run_bind, run_trackHeartbeat] at hrun
  obtain ⟨sequence, hseq, hrun⟩ := run_attempt_bind_ok hrun
  obtain ⟨time, htime, hrun⟩ := run_attempt_bind_ok hrun
  refine ⟨_, ?_, hrun⟩
  simp only [heartbeatOf, hp, hv, hseq, htime, ok_bind]
  rfl

-- ============================================================ one message

/-- The type a message is dispatched on. -/
def typeOf (msg : Json) : MsgType :=
  match get? msg "type" with
  | .ok type => msgType type
  | .error _ => .other

/-- What a message that does not raise turned out to be. -/
inductive Handled (msg : Json) (t : Int) (h h' : MessageHandler) :
    Prop where
  | trade (trade : Trade) (lag : Int)
      (type : typeOf msg = .match_)
      (of : tradeOf msg t = .ok (trade, lag))
      (run : (publish ⟨.trades trade, trade.productId⟩).run
        (h.matched trade lag) = .ok () h')
  | snapshot (s : Snapshot) (b b' : OrderBook)
      (type : typeOf msg = .snapshot)
      (of : snapshotOf msg t = .ok s)
      (book : h.books s.event.productId = some b)
      (applied : (OrderBook.applySnapshot s.bids s.asks).run b = .ok () b')
      (run : (publish ⟨.l2 s.event, s.event.productId⟩).run
        { h.withCounters (·.recordMessage "l2") with
          books := h.books.put s.event.productId b' } = .ok () h')
  | update (u : Update) (b b' : OrderBook)
      (type : typeOf msg = .l2update)
      (of : updateOf msg t = .ok u)
      (book : h.books u.event.productId = some b)
      (applied : (OrderBook.applyUpdates u.changes).run b = .ok () b')
      (run : (publish ⟨.l2 u.event, u.event.productId⟩).run
        (crossChecked { h.withCounters (·.recordMessage "l2") with
          books := h.books.put u.event.productId b' }
          u.event.productId) = .ok () h')
  | heartbeat (beat : Heartbeat)
      (type : typeOf msg = .heartbeat)
      (of : heartbeatOf msg t = .ok beat)
      (run : (publish ⟨.heartbeat beat, beat.productId⟩).run
        (heartbeatTracked
          { h.withCounters (·.recordMessage "heartbeat") with
            lastHeartbeatAt := some t }
          beat.productId beat.lastTradeId) = .ok () h')
  | ignored (type : typeOf msg = .other) (same : h' = h)

/-- A message that does not raise is one of the five kinds: a feed error
always raises. By the type it is dispatched on. -/
theorem handle_ok {msg : Json} {t : Int} {h h' : MessageHandler}
    (hrun : (handle msg t).run h = .ok () h') : Handled msg t h h' := by
  obtain ⟨type, htype, hrun⟩ := run_attempt_bind_ok hrun
  have hof : typeOf msg = msgType type := by rw [typeOf, htype]
  cases hk : msgType type with
  | match_ =>
      rw [hk] at hrun hof
      obtain ⟨trade, lag, hof', hpub⟩ := handleMatch_ok hrun
      exact .trade trade lag hof hof' hpub
  | snapshot =>
      rw [hk] at hrun hof
      obtain ⟨s, b, b', hof', hb, happly, hpub⟩ := handleSnapshot_ok hrun
      exact .snapshot s b b' hof hof' hb happly hpub
  | l2update =>
      rw [hk] at hrun hof
      obtain ⟨u, b, b', hof', hb, happly, hpub⟩ := handleL2update_ok hrun
      exact .update u b b' hof hof' hb happly hpub
  | heartbeat =>
      rw [hk] at hrun hof
      obtain ⟨beat, hof', hpub⟩ := handleHeartbeat_ok hrun
      exact .heartbeat beat hof hof' hpub
  | error =>
      rw [hk] at hrun
      simp [logExtra_message] at hrun
  | other =>
      rw [hk] at hrun hof
      refine .ignored hof ?_
      simpa [eq_comm] using hrun

-- ===================================================== what a message leaves

/-- What every statement of a handler before its publish leaves alone. -/
structure Leaves {β : Type} (π : MessageHandler → β) : Prop where
  received : ∀ channel, Frame π
    (modify fun h => h.withCounters (·.recordMessage channel) : Handling)
  recordLag : ∀ lag, Frame π
    (modify fun h => h.withCounters (·.recordLag lag) : Handling)
  beat : ∀ t, Frame π
    (modify fun h => { h with lastHeartbeatAt := some t } : Handling)
  onBook : ∀ p x, Frame π (onBook p x)
  trackContinuity : ∀ p v, Frame π (trackContinuity p v)
  trackHeartbeat : ∀ p v, Frame π (trackHeartbeat p v)
  checkCrossed : ∀ p, Frame π (checkCrossed p)

/-- A judgment that passes over what leaves the projection alone, and
holds of a publish. -/
structure PassesOver {β : Type} (π : MessageHandler → β)
    (J : Handling → Prop) : Prop where
  bind : ∀ {α : Type} {x : EStateM Exc MessageHandler α} {f : α → Handling},
    Frame π x → (∀ a, J (f a)) → J (x >>= f)
  publish : ∀ m, J (publish m)
  frame : ∀ x, Frame π x → J x

section PassesOver

variable {β : Type} {π : MessageHandler → β} {J : Handling → Prop}

/-- Expressions that read no state are passed over. -/
theorem PassesOver.attempt (hJ : PassesOver π J) {α : Type} {x : Py α}
    {f : α → Handling} (h : ∀ a, J (f a)) :
    J ((attempt x : EStateM Exc MessageHandler α) >>= f) :=
  hJ.bind (Frame.of_attempt x) h

/-- The handler of a match. -/
theorem PassesOver.handleMatch (hJ : PassesOver π J) (hπ : Leaves π)
    (msg : Json) (t : Int) : J (handleMatch msg t) := by
  refine hJ.attempt fun p => ?_
  refine hJ.bind (hπ.received "trades") fun _ => ?_
  refine hJ.attempt fun v => ?_
  refine hJ.bind (hπ.trackContinuity p v) fun _ => ?_
  refine hJ.attempt fun time => ?_
  refine hJ.attempt fun lag => ?_
  refine hJ.bind (hπ.recordLag _) fun _ => ?_
  -- the fields still to read, then the publish
  refine hJ.attempt fun sequence => ?_
  refine hJ.attempt fun price => ?_
  refine hJ.attempt fun size => ?_
  refine hJ.attempt fun side => ?_
  refine hJ.attempt fun maker => ?_
  refine hJ.attempt fun taker => ?_
  exact hJ.publish _

/-- The handler of a snapshot. -/
theorem PassesOver.handleSnapshot (hJ : PassesOver π J) (hπ : Leaves π)
    (msg : Json) (t : Int) : J (handleSnapshot msg t) := by
  refine hJ.attempt fun p => ?_
  refine hJ.bind (hπ.received "l2") fun _ => ?_
  refine hJ.attempt fun bids => ?_
  refine hJ.attempt fun asks => ?_
  refine hJ.bind (hπ.onBook p _) fun _ => ?_
  refine hJ.attempt fun sequence => ?_
  exact hJ.publish _

/-- The handler of an l2update. -/
theorem PassesOver.handleL2update (hJ : PassesOver π J) (hπ : Leaves π)
    (msg : Json) (t : Int) : J (handleL2update msg t) := by
  refine hJ.attempt fun p => ?_
  refine hJ.bind (hπ.received "l2") fun _ => ?_
  refine hJ.attempt fun changes => ?_
  refine hJ.bind (hπ.onBook p _) fun _ => ?_
  refine hJ.bind (hπ.checkCrossed p) fun _ => ?_
  refine hJ.attempt fun time => ?_
  refine hJ.attempt fun sequence => ?_
  exact hJ.publish _

/-- The handler of a heartbeat. -/
theorem PassesOver.handleHeartbeat (hJ : PassesOver π J) (hπ : Leaves π)
    (msg : Json) (t : Int) : J (handleHeartbeat msg t) := by
  refine hJ.attempt fun p => ?_
  refine hJ.bind (hπ.received "heartbeat") fun _ => ?_
  refine hJ.bind (hπ.beat t) fun _ => ?_
  refine hJ.attempt fun v => ?_
  refine hJ.bind (hπ.trackHeartbeat p v) fun _ => ?_
  refine hJ.attempt fun sequence => ?_
  refine hJ.attempt fun time => ?_
  exact hJ.publish _

/-- Whatever the message, the judgment holds of handling it. -/
theorem PassesOver.handle (hJ : PassesOver π J) (hπ : Leaves π)
    (msg : Json) (t : Int) : J (handle msg t) := by
  refine hJ.attempt fun type => ?_
  cases msgType type with
  | match_ => exact hJ.handleMatch hπ msg t
  | snapshot => exact hJ.handleSnapshot hπ msg t
  | l2update => exact hJ.handleL2update hπ msg t
  | heartbeat => exact hJ.handleHeartbeat hπ msg t
  | error => exact hJ.frame _ (Frame.of_throw Exc.keyError)
  | other => exact hJ.frame _ (Frame.of_pure ())

end PassesOver

end MarketPlatform.Consumer.MessageHandler
