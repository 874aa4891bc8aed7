/-
The sinks of the topics: a published record becomes a raw row.

# The rows

The subscription of `infra/modules/pubsub` writes the fields of the topic
schema under their own names (`use_topic_schema`) and adds the publish
time (`write_metadata`). A row has no partition until it is committed.

# The broker

Pub/Sub itself is a service that the repository uses. It validates what is
given to a topic against the topic's schema, and its subscription writes
the rows. Both are a parameter here (`PubSub`), and what is relied on is
documented behaviour of theirs (`PubSub.Documented`): a record of the
topic's fields is taken exactly when its integers are longs, and of an
object that was taken each column has the field of its name. Nothing is
said about other texts, and the service's limit on the size of a message
is left out.

The tables are the rows of the messages that were taken (`tradesStream`,
`l2Stream`, `heartbeatStream`).
-/
import MarketPlatform.Consumer.Wire
import MarketPlatform.Warehouse.Build

namespace MarketPlatform.Warehouse

open Lib Consumer

/-- The row of `raw.trades_stream` for a record of `market.raw.trades`.
Every field has the column of its name. -/
def RawTrade.ofMessage (m : Trade) (publishTime : Option Int) : RawTrade where
  sequence := m.sequence
  productId := m.productId
  tradeId := m.tradeId
  price := m.price
  size := m.size
  side := m.side
  makerOrderId := m.makerOrderId
  takerOrderId := m.takerOrderId
  eventTime := m.eventTime
  ingestTime := m.ingestTime
  publishTime := publishTime

/-- The row of `raw.l2_stream` for a record of `market.raw.l2`. -/
def RawL2.ofMessage (m : L2Event) (publishTime : Option Int) : RawL2 where
  productId := m.productId
  eventType := m.eventType
  payload := m.payload
  eventTime := m.eventTime
  ingestTime := m.ingestTime
  publishTime := publishTime

/-- The row of `raw.heartbeat_stream` for a record of
`market.raw.heartbeat`. -/
def RawHeartbeat.ofMessage (m : Heartbeat) (publishTime : Option Int) :
    RawHeartbeat where
  productId := m.productId
  sequence := m.sequence
  lastTradeId := m.lastTradeId
  eventTime := m.eventTime
  ingestTime := m.ingestTime
  publishTime := publishTime

-- ============================================================== the broker

/-- What the service does with a text that is given to a topic. Both
parts are functions of the topic and the text, so a text that is
delivered twice gives one row twice. -/
structure PubSub where
  /-- It takes the text, having validated it against the schema. -/
  takes : Topic → String → Bool
  /-- The record whose fields are the columns of the row written for a
  text that was taken. -/
  columns : Topic → String → Option Payload

/-- What is relied on of the service. -/
structure PubSub.Documented (b : PubSub) : Prop where
  /-- A dict of the topic's fields is taken when its integers are longs. -/
  takes : ∀ p : Payload, b.takes p.topic p.data = p.fits
  /-- The fields of an object go to the columns of their names. -/
  columns : ∀ topic text ms, b.takes topic text = true →
    Json.loads text = some (.obj ms) →
    b.columns topic text = topic.ofDict ms

-- ============================================================= the streams

/-- A message on a topic, its publish time and the partition its row is
in. The text was put there by whoever published it, which need not be
this program. -/
structure TopicMessage where
  text : String
  publishTime : Option Int := none
  partitionTime : Option Int := none

/-- The record that the row of a message has the columns of. There is no
row of a message that was refused. -/
def PubSub.delivered (b : PubSub) (topic : Topic) (x : TopicMessage) :
    Option Payload :=
  if b.takes topic x.text then b.columns topic x.text else none

/-- `raw.trades_stream`: the rows of the messages on `market.raw.trades`
that were taken, in any number and order. -/
def tradesStream (b : PubSub) (messages : List TopicMessage) :
    List RawTrade :=
  messages.filterMap fun x =>
    match b.delivered .trades x with
    | some (.trades m) =>
        some { RawTrade.ofMessage m x.publishTime with
          partitionTime := x.partitionTime }
    | _ => none

/-- `raw.l2_stream`. -/
def l2Stream (b : PubSub) (messages : List TopicMessage) : List RawL2 :=
  messages.filterMap fun x =>
    match b.delivered .l2 x with
    | some (.l2 m) =>
        some { RawL2.ofMessage m x.publishTime with
          partitionTime := x.partitionTime }
    | _ => none

/-- `raw.heartbeat_stream`. -/
def heartbeatStream (b : PubSub) (messages : List TopicMessage) :
    List RawHeartbeat :=
  messages.filterMap fun x =>
    match b.delivered .heartbeat x with
    | some (.heartbeat m) =>
        some { RawHeartbeat.ofMessage m x.publishTime with
          partitionTime := x.partitionTime }
    | _ => none

end MarketPlatform.Warehouse
