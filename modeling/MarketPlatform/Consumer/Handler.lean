/-
The message handler (`MessageHandler` in `consumer/ws_client.py`).

# Programs with exceptions

`handle` takes one decoded message and the time it was received. It is
an `EStateM` program over the handler: a raise part-way through keeps
every assignment made before it, which is what a Python handler leaves
behind. Statement order follows the source, argument evaluation order
included, because it decides what a raise leaves undone: a match whose
time cannot be read has been counted and has moved the baseline of its
product, and no trade of it is published.

Nothing here catches an exception, except the handler of an l2update,
and that one catches one class (`checkCrossed`). Who calls `handle`
decides what becomes of the rest: in `WsClient` it ends the connection.

# Logging

A log call with `extra` raises `KeyError` when a key is `message`,
`asctime` or an attribute every log record has (`logExtra`). It is
modelled because one of the handlers runs into it: a message of type
`error` is logged under the key `message`. The other calls log under
keys of their own and only return.

# Runs

`calls` makes a list of calls up to the first that raises, `after` is
the handler it leaves, and `completes` says that none of them raised. A
run of the consumer is a list of such calls with the socket's events in
between, and what is shown of `calls` is used there for the messages of
one connection.
-/
import MarketPlatform.Consumer.Book
import MarketPlatform.Consumer.Metrics
import MarketPlatform.Consumer.Publisher
import MarketPlatform.Consumer.Sequence

namespace MarketPlatform.Consumer

open Lib EStateM

/-- The handler's attributes. The configuration it holds gives it the
products to make books for, and is not read again. -/
structure MessageHandler where
  publisher : Publisher
  counters : Counters := {}
  continuity : ContinuityTracker := {}
  books : BookSet
  lastHeartbeatAt : Option Int := none

/-- A handler's program. Its state is the handler itself, so that what
an exception leaves behind is part of the result. -/
abbrev Handling := EStateM Exc MessageHandler Unit

namespace MessageHandler

/-- `MessageHandler(config, publisher, metrics)`. The counters are those
of the reporter, which the handler writes and does not read. -/
def new (products : List String) (publisher : Publisher) :
    MessageHandler :=
  { publisher := publisher, books := BookSet.new products }

/-- Change the counters and nothing else. -/
def withCounters (h : MessageHandler) (f : Counters → Counters) :
    MessageHandler :=
  { h with counters := f h.counters }

-- ============================================================== logging

/-- The attributes every log record carries, with the two names the
formatter adds. A key of `extra` must be none of them. -/
def reservedKeys : List String :=
  ["message", "asctime", "args", "created", "exc_info", "exc_text",
    "filename", "funcName", "levelname", "levelno", "lineno", "module",
    "msecs", "msg", "name", "pathname", "process", "processName",
    "relativeCreated", "stack_info", "thread", "threadName", "taskName"]

/-- The check `Logger.makeRecord` makes of `extra`. The values do not
matter, only the keys; what the line says is modelled in `Logs`. -/
def logExtra (keys : List String) : Handling :=
  if keys.any fun k => k ∈ reservedKeys then throw .keyError
  else pure ()

-- ============================================================= the parts

/-- `self.publisher.publish(...)`. The call is made and counted whether
or not it raises, and a refused message is not kept. -/
def publish (m : Published) : Handling := do
  let h ← get
  EStateM.set { h with publisher := h.publisher.publish m }
  if h.publisher.refuses h.publisher.calls then throw .publishError
  else pure ()

/-- Run a book's program on the book of a product. A raise leaves the
levels written so far in place, and a product without a book raises
`KeyError`. -/
def onBook (productId : String) (x : EStateM Exc OrderBook Unit) :
    Handling := fun h =>
  match h.books productId with
  | none => .error .keyError h
  | some b =>
      match x.run b with
      | .ok a b' => .ok a { h with books := h.books.put productId b' }
      | .error e b' =>
          .error e { h with books := h.books.put productId b' }

/-- `_track_continuity`. The baseline moves before the verdict is acted
upon, and the tallies change before the line is logged. -/
def trackContinuity (productId : String) (tradeId : Int) : Handling := do
  let h ← get
  let (tracker, obs) := h.continuity.observe productId tradeId
  EStateM.set { h with continuity := tracker }
  match obs.continuity with
  | .gap =>
      modify fun h => h.withCounters fun c =>
        { c with
          sequenceGapsTotal := c.sequenceGapsTotal + 1
          messagesLostTotal := c.messagesLostTotal + obs.missing }
      logExtra ["product_id", "expected_trade_id", "received_trade_id",
        "missing"]
  | .duplicate =>
      modify fun h => h.withCounters fun c =>
        { c with duplicatesTotal := c.duplicatesTotal + 1 }
  | _ => pure ()

/-- `msg.get(key) or ""`, as a string. A missing key, a null, an empty
text and a zero all give the empty text. -/
def orderId (msg : Json) (key : String) : Py String :=
  (get? msg key).map fun v =>
    match v with
    | some j => if truthy j then pyStr j else ""
    | none => ""

-- ============================================================= handlers

/-- `_handle_match`. The tally and the baseline come first, so that a
message that raises later on has still been counted. -/
def handleMatch (msg : Json) (receivedAt : Int) : Handling := do
  let productId ← attempt (item msg "product_id" >>= asKey)
  modify fun h => h.withCounters (·.recordMessage "trades")
  let tradeId ← attempt (item msg "trade_id" >>= pyInt)
  trackContinuity productId tradeId
  let eventTime ← attempt (item msg "time" >>= parseTime)
  let lag ← attempt (since receivedAt eventTime)
  modify fun h => h.withCounters (·.recordLag (lag / 1000))
  let sequence ← attempt (item msg "sequence" >>= pyInt)
  let price ← attempt ((item msg "price").map pyStr)
  let size ← attempt ((item msg "size").map pyStr)
  let side ← attempt ((item msg "side").map pyStr)
  let makerOrderId ← attempt (orderId msg "maker_order_id")
  let takerOrderId ← attempt (orderId msg "taker_order_id")
  publish ⟨.trades {
    sequence, productId, tradeId, price, size, side, makerOrderId,
    takerOrderId, eventTime := iso eventTime.micros,
    ingestTime := iso receivedAt }, productId⟩

/-- `[(p, s) for p, s in msg.get(key, [])]`. Each element must have two
parts; what they are is left to the book. -/
def pairs (msg : Json) (key : String) : Py (List (Json × Json)) :=
  getD msg key (.arr []) >>= iterate >>= fun xs => xs.mapM unpack2

/-- `[(side, price, size) for side, price, size in ...]`. -/
def triples (msg : Json) (key : String) :
    Py (List (Json × Json × Json)) :=
  getD msg key (.arr []) >>= iterate >>= fun xs => xs.mapM unpack3

/-- A list of pairs, as `json.dumps` sees it: tuples are written as
arrays. -/
def pairsJson (xs : List (Json × Json)) : Json :=
  .arr (xs.map fun x => .arr [x.1, x.2])

/-- A list of triples, as `json.dumps` sees it. -/
def triplesJson (xs : List (Json × Json × Json)) : Json :=
  .arr (xs.map fun x => .arr [x.1, x.2.1, x.2.2])

/-- The payload of a snapshot: the levels as they came, not as the book
keeps them. -/
def snapshotPayload (bids asks : List (Json × Json)) : String :=
  Json.dumps (.obj [("bids", pairsJson bids), ("asks", pairsJson asks)])

/-- The payload of an l2update: the changes as they came. -/
def updatePayload (changes : List (Json × Json × Json)) : String :=
  Json.dumps (.obj [("changes", triplesJson changes)])

/-- `_handle_snapshot`. The record is dated by the receive time, because
a snapshot has none of its own. -/
def handleSnapshot (msg : Json) (receivedAt : Int) : Handling := do
  let productId ← attempt (item msg "product_id" >>= asKey)
  modify fun h => h.withCounters (·.recordMessage "l2")
  let bids ← attempt (pairs msg "bids")
  let asks ← attempt (pairs msg "asks")
  onBook productId (OrderBook.applySnapshot bids asks)
  let sequence ← attempt (getD msg "sequence" (.int 0) >>= pyInt)
  publish ⟨.l2 {
    sequence, productId, eventType := "snapshot",
    payload := snapshotPayload bids asks,
    eventTime := iso receivedAt, ingestTime := iso receivedAt },
    productId⟩

/-- The check of `_handle_l2update`: a crossed book is counted and
logged, any other raise of `quote` passes through. -/
def checkCrossed (productId : String) : Handling := do
  let h ← get
  match (h.books productId).map OrderBook.quote with
  | none => throw .keyError
  | some (.ok _) => pure ()
  | some (.error .crossedBookError) =>
      modify fun h => h.withCounters fun c =>
        { c with crossedBooksTotal := c.crossedBooksTotal + 1 }
      logExtra ["product_id", "error"]
  | some (.error e) => throw e

/-- `parse_time(msg["time"]) if "time" in msg else received_at`. A time
without a zone is taken as it stands. -/
def updateTime (msg : Json) (receivedAt : Int) : Py Int :=
  get? msg "time" >>= fun time =>
    match time with
    | some t => (parseTime t).map DateTime.micros
    | none => .ok receivedAt

/-- `_handle_l2update`. The book changes and is checked before the
record is made, so that a message that raises later on has still been
applied. -/
def handleL2update (msg : Json) (receivedAt : Int) : Handling := do
  let productId ← attempt (item msg "product_id" >>= asKey)
  modify fun h => h.withCounters (·.recordMessage "l2")
  let changes ← attempt (triples msg "changes")
  onBook productId (OrderBook.applyUpdates changes)
  checkCrossed productId
  let eventTime ← attempt (updateTime msg receivedAt)
  let sequence ← attempt (getD msg "sequence" (.int 0) >>= pyInt)
  publish ⟨.l2 {
    sequence, productId, eventType := "l2update",
    payload := updatePayload changes,
    eventTime := iso eventTime, ingestTime := iso receivedAt },
    productId⟩

/-- The cross-check of a heartbeat's `last_trade_id`: only a heartbeat
ahead of the match stream is evidence of loss. -/
def trackHeartbeat (productId : String) (lastTradeId : Int) :
    Handling := do
  let h ← get
  match h.continuity.lastSeen productId with
  | none => pure ()
  | some seen =>
      if lastTradeId > seen then
        let missed := lastTradeId - seen
        modify fun h => h.withCounters fun c =>
          { c with
            heartbeatDetectedGapsTotal := c.heartbeatDetectedGapsTotal + 1
            messagesLostTotal := c.messagesLostTotal + missed }
        logExtra ["product_id", "last_seen_trade_id",
          "heartbeat_last_trade_id", "missed"]
        modify fun h =>
          { h with
            continuity := (h.continuity.observe productId lastTradeId).1 }
      else pure ()

/-- `_handle_heartbeat`. The time of the heartbeat is kept before
anything that may raise but the product, and it is the receive time, not
the exchange's. -/
def handleHeartbeat (msg : Json) (receivedAt : Int) : Handling := do
  let productId ← attempt (item msg "product_id" >>= asKey)
  modify fun h => h.withCounters (·.recordMessage "heartbeat")
  modify fun h => { h with lastHeartbeatAt := some receivedAt }
  let lastTradeId ← attempt (getD msg "last_trade_id" (.int 0) >>= pyInt)
  trackHeartbeat productId lastTradeId
  let sequence ← attempt (item msg "sequence" >>= pyInt)
  let eventTime ← attempt (item msg "time" >>= parseTime)
  publish ⟨.heartbeat {
    sequence, productId, lastTradeId,
    eventTime := iso eventTime.micros, ingestTime := iso receivedAt },
    productId⟩

/-- What `handle` dispatches on. The texts it knows, and one constructor
for all that it ignores. -/
inductive MsgType where
  | match_
  | snapshot
  | l2update
  | heartbeat
  | error
  | other
  deriving DecidableEq

/-- The handler's reading of `message.get("type")`. A type that is no
text is equal to none of the known ones. -/
def msgType : Option Json → MsgType
  | some (.str s) =>
      if s = "match" ∨ s = "last_match" then .match_
      else if s = "snapshot" then .snapshot
      else if s = "l2update" then .l2update
      else if s = "heartbeat" then .heartbeat
      else if s = "error" then .error
      else .other
  | _ => .other

/-- `handle`. -/
def handle (message : Json) (receivedAt : Int) : Handling := do
  let type ← attempt (get? message "type")
  match msgType type with
  | .match_ => handleMatch message receivedAt
  | .snapshot => handleSnapshot message receivedAt
  | .l2update => handleL2update message receivedAt
  | .heartbeat => handleHeartbeat message receivedAt
  | .error => logExtra ["message"]
  -- other types are ignored: the exchange adds them without notice
  | .other => pure ()

/-- `on_disconnect`. Every book is emptied and waits for a snapshot,
every baseline is forgotten, and the tallies stay but for the one that
counts this. -/
def onDisconnect (h : MessageHandler) : MessageHandler :=
  { h with
    books := h.books.resetAll
    continuity := h.continuity.resetAll
    lastHeartbeatAt := none
    counters := { h.counters with
      bookResetsTotal := h.counters.bookResetsTotal + 1 } }

-- ================================================================= runs

/-- One call on the handler, which only the consumer makes. -/
inductive Call where
  | handle (message : Json) (receivedAt : Int)
  | onDisconnect

/-- Make one call. `on_disconnect` cannot raise. -/
def call : Call → Handling
  | .handle message receivedAt => handle message receivedAt
  | .onDisconnect => modify onDisconnect

/-- Make calls in order, up to the first that raises. -/
def calls : List Call → Handling
  | [] => pure ()
  | c :: cs => do
      call c
      calls cs

/-- A new handler after calls, up to the first that raises. -/
def after (products : List String) (publisher : Publisher)
    (cs : List Call) : MessageHandler :=
  ((calls cs).run (new products publisher)).state

/-- None of the calls on a new handler raises. -/
def completes (products : List String) (publisher : Publisher)
    (cs : List Call) : Bool :=
  ((calls cs).run (new products publisher)).isOk

/-- Calls that complete return, and leave the handler that `after`
names. -/
theorem calls_of_completes {products : List String} {publisher : Publisher}
    {cs : List Call} (h : completes products publisher cs = true) :
    (calls cs).run (new products publisher)
      = .ok () (after products publisher cs) :=
  Result.eq_ok_of_isOk h

/-- A list of calls that returns is a call that returns and a list that
does. -/
theorem calls_cons_ok {c : Call} {cs : List Call} {h h' : MessageHandler}
    (hrun : (calls (c :: cs)).run h = .ok () h') :
    ∃ h₁, (call c).run h = .ok () h₁ ∧ (calls cs).run h₁ = .ok () h' := by
  obtain ⟨⟨⟩, h₁, hc, hcs⟩ := run_bind_ok hrun
  exact ⟨h₁, hc, hcs⟩

/-- Two lists of calls are made one after the other. -/
theorem calls_append (cs ds : List Call) :
    calls (cs ++ ds) = (do calls cs; calls ds) := by
  induction cs with
  | nil => rfl
  | cons c cs ih =>
      show (do call c; calls (cs ++ ds)) = _
      rw [ih]
      exact (bind_assoc (call c) (fun _ => calls cs) fun _ => calls ds).symm

/-- Two lists of calls that return have a handler in between. -/
theorem calls_append_ok {cs ds : List Call} {h h' : MessageHandler}
    (hrun : (calls (cs ++ ds)).run h = .ok () h') :
    ∃ h₁, (calls cs).run h = .ok () h₁ ∧ (calls ds).run h₁ = .ok () h' := by
  rw [calls_append] at hrun
  obtain ⟨⟨⟩, h₁, hcs, hds⟩ := run_bind_ok hrun
  exact ⟨h₁, hcs, hds⟩

end MessageHandler

end MarketPlatform.Consumer
