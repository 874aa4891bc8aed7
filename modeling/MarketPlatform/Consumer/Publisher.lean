/-
What the consumer publishes (`consumer/publisher.py`).

# Payloads

A payload is the record its channel's topic schema declares, one
structure for each of the three channels. The source publishes dicts;
that their members are these fields, under these names, is in `Wire`,
where the bytes are made. Times stay `Rfc3339.Text`: a text that is
either the rendering of a number of milliseconds, or any other, which
spares the proofs about what is published the digits of a date.

# The publisher

The publisher keeps the messages it accepted, in order; `refuses n` says
whether the `n`-th call to `publish` raises, so that a recorder
(`RecordingPublisher`) never refuses and a broken client may refuse any
calls. The refusals of a run are thereby fixed before it, and a
statement about every publisher is one about every pattern of refusals.
What becomes of a message that was accepted is the client's business;
`Main` follows it.
-/
import MarketPlatform.Consumer.Python

namespace MarketPlatform.Consumer

open Lib

/-- `market.raw.trades`, the record of one match. The price and the size
are the texts of the feed. -/
structure Trade where
  sequence : Int
  productId : String
  tradeId : Int
  price : String
  size : String
  side : String
  makerOrderId : String
  takerOrderId : String
  eventTime : Rfc3339.Text
  ingestTime : Rfc3339.Text
  deriving DecidableEq

/-- `market.raw.l2`, the record of one snapshot or one l2update. Its
levels are a JSON text inside the record. -/
structure L2Event where
  sequence : Int
  productId : String
  eventType : String
  payload : String
  eventTime : Rfc3339.Text
  ingestTime : Rfc3339.Text
  deriving DecidableEq

/-- `market.raw.heartbeat`. -/
structure Heartbeat where
  sequence : Int
  productId : String
  lastTradeId : Int
  eventTime : Rfc3339.Text
  ingestTime : Rfc3339.Text
  deriving DecidableEq

/-- A payload on its channel. -/
inductive Payload where
  | trades (m : Trade)
  | l2 (m : L2Event)
  | heartbeat (m : Heartbeat)
  deriving DecidableEq

/-- A message as it was given to `publish`. The ordering key is the
product. -/
structure Published where
  payload : Payload
  orderingKey : String
  deriving DecidableEq

/-- What a publisher has accepted, and which calls it refuses. -/
structure Publisher where
  messages : List Published := []
  calls : Nat := 0
  refuses : Nat → Bool := fun _ => false

/-- The publisher of the tests: it accepts everything. -/
def RecordingPublisher : Publisher := {}

namespace Publisher

/-- One call to `publish`: the call is counted, and an accepted message
is kept. Raising is left to the caller, `MessageHandler.publish`. -/
def publish (p : Publisher) (m : Published) : Publisher :=
  { p with
    calls := p.calls + 1
    messages := if p.refuses p.calls then p.messages
      else p.messages ++ [m] }

/-- The trades published, in order, of all products. -/
def trades (p : Publisher) : List Trade :=
  p.messages.filterMap fun m =>
    match m.payload with
    | .trades t => some t
    | _ => none

/-- The l2 events published under an ordering key, in order. -/
def l2 (p : Publisher) (key : String) : List L2Event :=
  p.messages.filterMap fun m =>
    match m.payload with
    | .l2 e => if m.orderingKey = key then some e else none
    | _ => none

end Publisher

end MarketPlatform.Consumer
