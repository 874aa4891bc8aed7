/-
The bytes of the topics.

# What is written

`PubSubPublisher.publish` writes a payload as the compact JSON text of a
dict (`Payload.dict`, `Payload.data`). The handlers build the dicts, and
`to_topic_payload` of the backfill builds the same one for a trade; the
members stand in the order of the source.

# What the topics are declared to hold

Each topic has a schema (`schemas/*.avsc`), here as the names and types of
its fields in order. That the dicts have exactly these fields is a fact of
two source files that nothing in the program compares; it is part of
`Payload.topic_codec`. A `long` has 64 bits and a Python integer any
number, so that a payload may or may not fit (`Payload.fits`). A default
in a schema is for readers of older data, and no dict relies on it.

# What is read

A reader takes the fields by name (`Topic.ofDict`). It finds a time as a
text; the model keeps a time that the consumer has rendered as a number,
and what is read is the text of it (`Payload.texts`).

What the broker does with a text that is given to a topic, and what its
subscription makes of one it has taken, is not in the repository:
`Warehouse/Topic` takes both as parameters.
-/
import MarketPlatform.Consumer.Main
import MarketPlatform.Lib.Calendar

namespace MarketPlatform.Consumer

open Lib Lib.Rfc3339

-- ================================================================= schemas

/-- The types that the fields of the three schemas have. -/
inductive FieldType where
  | long
  | string
  deriving DecidableEq

/-- The fields of a record, in order. -/
abbrev Schema := List (String × FieldType)

/-- `schemas/trades.avsc`. -/
def tradesSchema : Schema :=
  [("sequence", .long), ("product_id", .string), ("trade_id", .long),
    ("price", .string), ("size", .string), ("side", .string),
    ("maker_order_id", .string), ("taker_order_id", .string),
    ("event_time", .string), ("ingest_time", .string)]

/-- `schemas/l2.avsc`. -/
def l2Schema : Schema :=
  [("sequence", .long), ("product_id", .string), ("event_type", .string),
    ("payload", .string), ("event_time", .string), ("ingest_time", .string)]

/-- `schemas/heartbeat.avsc`. -/
def heartbeatSchema : Schema :=
  [("sequence", .long), ("product_id", .string), ("last_trade_id", .long),
    ("event_time", .string), ("ingest_time", .string)]

/-- The channels, each a topic of its own. -/
inductive Topic where
  | trades
  | l2
  | heartbeat
  deriving DecidableEq

/-- The schema a topic is declared with. -/
def Topic.schema : Topic → Schema
  | .trades => tradesSchema
  | .l2 => l2Schema
  | .heartbeat => heartbeatSchema

/-- The field type that a value is of, if it is of one at all. An
integer is a `long` by its kind; whether it fits is another matter
(`IsLong`). -/
def fieldType : Json → Option FieldType
  | .int _ => some .long
  | .str _ => some .string
  | _ => none

/-- The integers of a `long`, which has 64 bits and a sign. -/
def IsLong (n : Int) : Prop := -(2 ^ 63) ≤ n ∧ n < 2 ^ 63

instance (n : Int) : Decidable (IsLong n) :=
  inferInstanceAs (Decidable (_ ∧ _))

-- ================================================================= writing

/-- The dict `_handle_match` publishes, and `to_topic_payload` makes.
Both sources name the same fields, in one order. -/
def Trade.dict (m : Trade) : List (String × Json) :=
  [("sequence", .int m.sequence), ("product_id", .str m.productId),
    ("trade_id", .int m.tradeId), ("price", .str m.price),
    ("size", .str m.size), ("side", .str m.side),
    ("maker_order_id", .str m.makerOrderId),
    ("taker_order_id", .str m.takerOrderId),
    ("event_time", .str m.eventTime.text),
    ("ingest_time", .str m.ingestTime.text)]

/-- The dict `_handle_snapshot` and `_handle_l2update` publish. The
levels are a text by then, made by `json.dumps` of its own. -/
def L2Event.dict (m : L2Event) : List (String × Json) :=
  [("sequence", .int m.sequence), ("product_id", .str m.productId),
    ("event_type", .str m.eventType), ("payload", .str m.payload),
    ("event_time", .str m.eventTime.text),
    ("ingest_time", .str m.ingestTime.text)]

/-- The dict `_handle_heartbeat` publishes. -/
def Heartbeat.dict (m : Heartbeat) : List (String × Json) :=
  [("sequence", .int m.sequence), ("product_id", .str m.productId),
    ("last_trade_id", .int m.lastTradeId),
    ("event_time", .str m.eventTime.text),
    ("ingest_time", .str m.ingestTime.text)]

namespace Payload

/-- The dict of the payload. -/
def dict : Payload → List (String × Json)
  | .trades m => m.dict
  | .l2 m => m.dict
  | .heartbeat m => m.dict

/-- `json.dumps(payload, separators=(",", ":"))`, the bytes that the
publisher gives to the client. -/
def data (p : Payload) : String := Json.dumps (.obj p.dict)

/-- The topic a payload is published on. -/
def topic : Payload → Topic
  | .trades _ => .trades
  | .l2 _ => .l2
  | .heartbeat _ => .heartbeat

/-- The integers of the payload: everything in it that a schema could
refuse. -/
def longs : Payload → List Int
  | .trades m => [m.sequence, m.tradeId]
  | .l2 m => [m.sequence]
  | .heartbeat m => [m.sequence, m.lastTradeId]

/-- Every integer of the payload fits the 64 bits of its field. -/
def fits (p : Payload) : Bool := p.longs.all fun n => decide (IsLong n)

end Payload

-- ================================================================= reading

/-- The integer under a name, the last one where the name is
repeated. -/
def longField (ms : List (String × Json)) (key : String) : Option Int :=
  match Json.lookup key ms with
  | some (.int n) => some n
  | _ => none

/-- The text under a name, the last one where the name is repeated. -/
def stringField (ms : List (String × Json)) (key : String) :
    Option String :=
  match Json.lookup key ms with
  | some (.str s) => some s
  | _ => none

/-- The trade a dict holds, each field under its own name; members it
does not know are ignored, and an integer may not stand for a text. The
times are kept as they are written. -/
def Trade.ofDict (ms : List (String × Json)) : Option Trade := do
  let sequence ← longField ms "sequence"
  let productId ← stringField ms "product_id"
  let tradeId ← longField ms "trade_id"
  let price ← stringField ms "price"
  let size ← stringField ms "size"
  let side ← stringField ms "side"
  let makerOrderId ← stringField ms "maker_order_id"
  let takerOrderId ← stringField ms "taker_order_id"
  let eventTime ← stringField ms "event_time"
  let ingestTime ← stringField ms "ingest_time"
  pure {
    sequence, productId, tradeId, price, size, side, makerOrderId,
    takerOrderId, eventTime := .other eventTime
    ingestTime := .other ingestTime }

/-- The l2 event a dict holds. -/
def L2Event.ofDict (ms : List (String × Json)) : Option L2Event := do
  let sequence ← longField ms "sequence"
  let productId ← stringField ms "product_id"
  let eventType ← stringField ms "event_type"
  let payload ← stringField ms "payload"
  let eventTime ← stringField ms "event_time"
  let ingestTime ← stringField ms "ingest_time"
  pure {
    sequence, productId, eventType, payload
    eventTime := .other eventTime
    ingestTime := .other ingestTime }

/-- The heartbeat a dict holds. -/
def Heartbeat.ofDict (ms : List (String × Json)) : Option Heartbeat := do
  let sequence ← longField ms "sequence"
  let productId ← stringField ms "product_id"
  let lastTradeId ← longField ms "last_trade_id"
  let eventTime ← stringField ms "event_time"
  let ingestTime ← stringField ms "ingest_time"
  pure {
    sequence, productId, lastTradeId
    eventTime := .other eventTime
    ingestTime := .other ingestTime }

/-- The record of a topic that has the fields of an object, each read under
its own name. -/
def Topic.ofDict (ms : List (String × Json)) : Topic → Option Payload
  | .trades => (Trade.ofDict ms).map .trades
  | .l2 => (L2Event.ofDict ms).map .l2
  | .heartbeat => (Heartbeat.ofDict ms).map .heartbeat

end MarketPlatform.Consumer
