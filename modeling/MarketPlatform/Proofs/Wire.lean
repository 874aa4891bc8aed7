/-
What survives the topics.

The consumer publishes records as JSON text, and everything behind the
topics starts from the bytes. Three results say that nothing is lost on
the way.

# The codec

A payload's text reads back as the payload's dict, the dict has exactly
the fields that the topic's schema declares, and read by name they are the
record, with each time as the text it was written as. So the bytes settle
the record up to the spelling of its times (`topic_codec`). The JSON part
is the library's (`Json.loads_dumps_record`); here it is used that the
values of the dicts are scalars.

# The warehouse

The texts of the times lose nothing either. The model keeps a rendered
millisecond as a number, and both readers of the texts, `timestamp()` of
the warehouse and `fromisoformat` of the streaming job, find that number
again (`instant_textual`). So a staging model reads the rows of the bytes
as it reads the rows of the records (`derived_texts`, `stgL2Row_texts`,
`stgHeartbeat_texts`), and the staging tables computed from the bytes on
the topics are those computed from the records, without the ones that the
broker has refused (`staged_from_wire`). The broker is the parameter of
`Warehouse/Topic`.

# The streaming job

`ParseTrade` makes of the bytes of a record the element it makes of the
record (`processBytes_data`), and the job goes on with elements alone. By
induction over the events it holds the same elements and panes after any
of them (`streamed_from_wire`).
-/
import MarketPlatform.Consumer.Wire
import MarketPlatform.Lib.JsonRecord
import MarketPlatform.Proofs.SameBar
import MarketPlatform.Proofs.StreamBatch
import MarketPlatform.Warehouse.Topic

namespace MarketPlatform.Consumer

open Lib Lib.Rfc3339

-- ================================================================ the codec

/-- A time column as the text it is written as. -/
def textual (t : Text) : Text := .other t.text

/-- The record with its times as texts. -/
def Trade.texts (m : Trade) : Trade :=
  { m with
    eventTime := textual m.eventTime, ingestTime := textual m.ingestTime }

def L2Event.texts (m : L2Event) : L2Event :=
  { m with
    eventTime := textual m.eventTime, ingestTime := textual m.ingestTime }

def Heartbeat.texts (m : Heartbeat) : Heartbeat :=
  { m with
    eventTime := textual m.eventTime, ingestTime := textual m.ingestTime }

namespace Payload

/-- The payload with its times as texts. -/
def texts : Payload → Payload
  | .trades m => .trades m.texts
  | .l2 m => .l2 m.texts
  | .heartbeat m => .heartbeat m.texts

theorem scalar_dict (p : Payload) : ∀ m ∈ p.dict, Json.Scalar m.2 = true := by
  cases p <;>
    simp [dict, Trade.dict, L2Event.dict, Heartbeat.dict, Json.Scalar]

/-- The text of a payload reads as its dict. -/
theorem loads_data (p : Payload) : Json.loads p.data = some (.obj p.dict) :=
  Json.loads_dumps_record p.scalar_dict

/-- The dict of a payload has the fields of its topic's schema, in order
and of their types. -/
theorem schema_dict (p : Payload) :
    p.dict.map (fun m => (m.1, fieldType m.2))
      = p.topic.schema.map fun f => (f.1, some f.2) := by
  cases p <;> rfl

/-- The fields of the dict, read by name, are those of the payload. -/
theorem ofDict_dict (p : Payload) :
    p.topic.ofDict p.dict = some p.texts := by
  cases p <;> rfl

/-- A dict is written of times as of their texts. -/
theorem dict_texts (p : Payload) : p.texts.dict = p.dict := by
  cases p <;> rfl

/-- No two topics have records of the same fields. -/
theorem topic_of_dict {p q : Payload} (h : p.dict = q.dict) :
    p.topic = q.topic := by
  have hschema : p.topic.schema.map (fun f => (f.1, some f.2))
      = q.topic.schema.map fun f => (f.1, some f.2) := by
    rw [← schema_dict, ← schema_dict, h]
  have hlength := congrArg List.length hschema
  rw [List.length_map, List.length_map] at hlength
  revert hlength
  generalize p.topic = t, q.topic = u
  cases t <;> cases u <;> decide

/-- The dict of every payload has the fields that the topic's schema
declares; its text reads as the dict, which read by name is the payload,
times as texts; and two payloads have the same bytes exactly when they are
the same up to the spelling of their times.

The bytes settle the dict, and the dict the topic and the fields. -/
theorem topic_codec (p q : Payload) :
    p.dict.map (fun m => (m.1, fieldType m.2))
        = p.topic.schema.map (fun f => (f.1, some f.2))
      ∧ Json.loads p.data = some (.obj p.dict)
      ∧ p.topic.ofDict p.dict = some p.texts
      ∧ (p.data = q.data ↔ p.texts = q.texts) := by
  refine ⟨schema_dict p, loads_data p, ofDict_dict p, fun h => ?_,
    fun h => ?_⟩
  · have hloads : some (Json.obj p.dict) = some (.obj q.dict) := by
      rw [← loads_data, ← loads_data, h]
    have hdict : p.dict = q.dict := Json.obj.inj (Option.some.inj hloads)
    have hread := ofDict_dict p
    rw [topic_of_dict hdict, hdict, ofDict_dict q] at hread
    exact (Option.some.inj hread).symm
  · rw [data, data, ← dict_texts, h, dict_texts]

end Payload

end MarketPlatform.Consumer

namespace MarketPlatform.Warehouse

open Lib Lib.Rfc3339 Lib.Relation Consumer Streaming

-- ============================================================= the readers

/-- The times of a record have texts. -/
structure TimesWritten (event ingest : Text) : Prop where
  event : event.Written
  ingest : ingest.Written

/-- The text of a time denotes what the column denotes. -/
theorem instant_textual {t : Text} (h : t.Written) :
    (textual t).instant = t.instant := timestamp_text h

def RawTrade.texts (r : RawTrade) : RawTrade :=
  { r with
    eventTime := textual r.eventTime, ingestTime := textual r.ingestTime }

def RawL2.texts (r : RawL2) : RawL2 :=
  { r with
    eventTime := textual r.eventTime, ingestTime := textual r.ingestTime }

def RawHeartbeat.texts (r : RawHeartbeat) : RawHeartbeat :=
  { r with
    eventTime := textual r.eventTime, ingestTime := textual r.ingestTime }

theorem derived_texts {r : RawTrade}
    (h : TimesWritten r.eventTime r.ingestTime) :
    derived r.texts = derived r := by
  simp only [derived, RawTrade.texts, instant_textual h.event,
    instant_textual h.ingest]
  rfl

theorem stgL2Row_texts {r : RawL2}
    (h : TimesWritten r.eventTime r.ingestTime) :
    stgL2Row r.texts = stgL2Row r := by
  have hlevel : l2Level r.texts = l2Level r := by
    funext side price size i
    simp only [l2Level, RawL2.texts, instant_textual h.event,
      instant_textual h.ingest]
  simp only [stgL2Row, flattened, snapshotLevels, hlevel]
  rfl

theorem stgHeartbeat_texts {r : RawHeartbeat}
    (h : TimesWritten r.eventTime r.ingestTime) :
    stgHeartbeat r.texts = stgHeartbeat r := by
  simp only [stgHeartbeat, RawHeartbeat.texts, instant_textual h.event,
    instant_textual h.ingest]

/-- A view over rows is the view over other rows that it reads alike. -/
theorem mapM_filter_map {α β : Type} {p : α → Bool} {f : α → Option β}
    {g : α → α} {l : List α} (hp : ∀ r ∈ l, p (g r) = p r)
    (hf : ∀ r ∈ l, f (g r) = f r) :
    ((l.map g).filter p).mapM f = (l.filter p).mapM f := by
  induction l with
  | nil => rfl
  | cons r l ih =>
      obtain ⟨hk, hp⟩ := List.forall_mem_cons.mp hp
      obtain ⟨hr, hf⟩ := List.forall_mem_cons.mp hf
      rw [List.map_cons, List.filter_cons, List.filter_cons, hk]
      split
      · rw [List.mapM_cons, List.mapM_cons, hr, ih hp hf]
      · exact ih hp hf

-- ============================================================== the streams

section Streams

variable {α : Type} {b : PubSub}

/-- What the row of a payload's message is made of: the payload, times
as texts, if its integers are longs. Otherwise the broker has refused
the message and there is no row. -/
theorem delivered_data (hb : b.Documented) (p : Payload)
    (publishTime partitionTime : Option Int) :
    b.delivered p.topic ⟨p.data, publishTime, partitionTime⟩
      = if p.fits then some p.texts else none := by
  have htakes := hb.takes p
  show (if b.takes p.topic p.data then b.columns p.topic p.data else none)
    = _
  rw [htakes]
  split
  · next hfits =>
      rw [hb.columns _ _ _ (htakes.trans hfits) p.loads_data, p.ofDict_dict]
  · rfl

/-- A message of a record, with what its subscription adds. -/
structure Sent (α : Type) where
  record : α
  publishTime : Option Int
  partitionTime : Option Int

/-- The message as the topic has it. -/
def Sent.message (payload : α → Payload) (x : Sent α) : TopicMessage :=
  ⟨(payload x.record).data, x.publishTime, x.partitionTime⟩

def Sent.tradeRow (x : Sent Trade) : RawTrade :=
  { RawTrade.ofMessage x.record x.publishTime with
    partitionTime := x.partitionTime }

def Sent.l2Row (x : Sent L2Event) : RawL2 :=
  { RawL2.ofMessage x.record x.publishTime with
    partitionTime := x.partitionTime }

def Sent.heartbeatRow (x : Sent Heartbeat) : RawHeartbeat :=
  { RawHeartbeat.ofMessage x.record x.publishTime with
    partitionTime := x.partitionTime }

/-- The records whose integers are longs. -/
def taken (payload : α → Payload) (xs : List (Sent α)) : List (Sent α) :=
  xs.filter fun x => (payload x.record).fits

/-- The rows of messages that may be refused. -/
theorem filterMap_taken {β : Type} {payload : α → Payload}
    {row : TopicMessage → Option β} {f : Sent α → β} {g : β → β}
    {xs : List (Sent α)}
    (h : ∀ x, row (x.message payload)
      = if (payload x.record).fits then some (g (f x)) else none) :
    (xs.map (Sent.message payload)).filterMap row
      = ((taken payload xs).map f).map g := by
  induction xs with
  | nil => rfl
  | cons x xs ih =>
      have hcons : taken payload (x :: xs)
          = if (payload x.record).fits then x :: taken payload xs
            else taken payload xs := List.filter_cons
      rw [List.map_cons, List.filterMap_cons, h, ih, hcons]
      cases (payload x.record).fits <;> rfl

theorem tradesStream_sent (hb : b.Documented) (xs : List (Sent Trade)) :
    tradesStream b (xs.map (Sent.message .trades))
      = ((taken .trades xs).map Sent.tradeRow).map RawTrade.texts := by
  refine filterMap_taken fun x => ?_
  have hdelivered := delivered_data hb (.trades x.record) x.publishTime
    x.partitionTime
  simp only [Payload.topic] at hdelivered
  simp only [Sent.message, hdelivered]
  cases (Payload.trades x.record).fits <;> rfl

theorem l2Stream_sent (hb : b.Documented) (xs : List (Sent L2Event)) :
    l2Stream b (xs.map (Sent.message .l2))
      = ((taken .l2 xs).map Sent.l2Row).map RawL2.texts := by
  refine filterMap_taken fun x => ?_
  have hdelivered := delivered_data hb (.l2 x.record) x.publishTime
    x.partitionTime
  simp only [Payload.topic] at hdelivered
  simp only [Sent.message, hdelivered]
  cases (Payload.l2 x.record).fits <;> rfl

theorem heartbeatStream_sent (hb : b.Documented)
    (xs : List (Sent Heartbeat)) :
    heartbeatStream b (xs.map (Sent.message .heartbeat))
      = ((taken .heartbeat xs).map Sent.heartbeatRow).map
        RawHeartbeat.texts := by
  refine filterMap_taken fun x => ?_
  have hdelivered := delivered_data hb (.heartbeat x.record) x.publishTime
    x.partitionTime
  simp only [Payload.topic] at hdelivered
  simp only [Sent.message, hdelivered]
  cases (Payload.heartbeat x.record).fits <;> rfl

/-- The staging tables of the topics' bytes are the staging tables of the
records themselves, without those whose integers are no longs.

The raw tables of the bytes are those of the records with times as texts,
and each staging model reads such a row as it reads the record's, in its
filter and in its columns. -/
theorem staged_from_wire (E : Engine) (hb : b.Documented) (vars : Vars)
    (now : Int) (trades : List (Sent Trade)) (l2 : List (Sent L2Event))
    (beats : List (Sent Heartbeat))
    (htrades : ∀ x ∈ trades,
      TimesWritten x.record.eventTime x.record.ingestTime)
    (hl2 : ∀ x ∈ l2, TimesWritten x.record.eventTime x.record.ingestTime)
    (hbeats : ∀ x ∈ beats,
      TimesWritten x.record.eventTime x.record.ingestTime) :
    stgTrades E vars now
          (tradesStream b (trades.map (Sent.message .trades)))
        = stgTrades E vars now ((taken .trades trades).map Sent.tradeRow)
      ∧ stgL2Events vars now (l2Stream b (l2.map (Sent.message .l2)))
        = stgL2Events vars now ((taken .l2 l2).map Sent.l2Row)
      ∧ stgHeartbeats vars now
          (heartbeatStream b (beats.map (Sent.message .heartbeat)))
        = stgHeartbeats vars now
          ((taken .heartbeat beats).map Sent.heartbeatRow) := by
  have hmem : ∀ {α : Type} {payload : α → Payload} {xs : List (Sent α)},
      ∀ x ∈ taken payload xs, x ∈ xs := fun x hx => List.mem_of_mem_filter hx
  rw [tradesStream_sent hb, l2Stream_sent hb, heartbeatStream_sent hb]
  refine ⟨?_, ?_, ?_⟩
  · have hviews := mapM_filter_map (f := derived)
      (l := (taken .trades trades).map Sent.tradeRow)
      (p := fun r => rawPartitionFilter vars now r.partitionTime
        && r.productId ∈ vars.trackedProducts
        && r.tradeId ∉ vars.syntheticTradeIds)
      (g := RawTrade.texts) (fun _ _ => rfl) fun r hr => by
        obtain ⟨x, hx, rfl⟩ := List.mem_map.mp hr
        exact derived_texts (htrades x (hmem x hx))
    rw [stgTrades, rawTrades, hviews]
    rfl
  · have hviews := mapM_filter_map (f := stgL2Row)
      (l := (taken .l2 l2).map Sent.l2Row)
      (p := fun r => rawPartitionFilter vars now r.partitionTime)
      (g := RawL2.texts) (fun _ _ => rfl) fun r hr => by
        obtain ⟨x, hx, rfl⟩ := List.mem_map.mp hr
        exact stgL2Row_texts (hl2 x (hmem x hx))
    rw [stgL2Events, hviews]
    rfl
  · refine mapM_filter_map (fun _ _ => rfl) fun r hr => ?_
    obtain ⟨x, hx, rfl⟩ := List.mem_map.mp hr
    exact stgHeartbeat_texts (hbeats x (hmem x hx))

end Streams

-- ================================================================= the job

/-- The event as it is on the topic. -/
def JobEvent.onTopic : JobEvent → TopicEvent
  | .arrive trade late => .arrive (Payload.trades trade).data late
  | .fire window isLast writtenAt => .fire window isLast writtenAt

/-- The job gets to see the event: a message that the broker has refused
never arrives. -/
def PubSub.passes (b : PubSub) : TopicEvent → Bool
  | .arrive message _ => b.takes .trades message
  | .fire _ _ _ => true

/-- The integers of the event's message are longs. -/
def JobEvent.taken : JobEvent → Bool
  | .arrive trade _ => (Payload.trades trade).fits
  | .fire _ _ _ => true

/-- The message of the event has a time that has a text. -/
def JobEvent.Written : JobEvent → Prop
  | .arrive trade _ => trade.eventTime.Written
  | .fire _ _ _ => True

/-- The job parses a record's bytes to what it parses the record to,
errors included: the JSON reads back, and the time's text denotes its
millisecond. -/
theorem processBytes_data {F : Type} (fl : Floats F) {m : Trade}
    (h : m.eventTime.Written) :
    ParseTrade.processBytes fl (Payload.trades m).data
      = (ParseTrade.process fl m).map some := by
  -- the event time is parsed from its text
  have htime : (parseTime (.str m.eventTime.text)).map DateTime.micros
      = timestampOf m.eventTime := by
    have htext : timestampOf (textual m.eventTime)
        = timestampOf m.eventTime := by
      cases hm : m.eventTime with
      | other s => rfl
      | millis n =>
          rw [hm] at h
          exact timestampOf_of_instant (instant_textual h)
    exact htext
  have htimeItem : item (.obj (Payload.trades m).dict) "event_time"
      = .ok (.str m.eventTime.text) := rfl
  have hproduct : item (.obj (Payload.trades m).dict) "product_id"
      = .ok (.str m.productId) := rfl
  have hid : item (.obj (Payload.trades m).dict) "trade_id"
      = .ok (.int m.tradeId) := rfl
  have hprice : item (.obj (Payload.trades m).dict) "price"
      = .ok (.str m.price) := rfl
  have hsize : item (.obj (Payload.trades m).dict) "size"
      = .ok (.str m.size) := rfl
  rw [ParseTrade.processBytes, Payload.loads_data, ParseTrade.process,
    ← htime]
  simp only [htimeItem, hproduct, hid, hprice, hsize, ok_bind, asKey, pyInt,
    floatOf]
  cases parseTime (.str m.eventTime.text) with
  | error e => rfl
  | ok time =>
      cases pyFloat fl m.price with
      | error e => rfl
      | ok price => cases pyFloat fl m.size <;> rfl

/-- A step on the bytes of a record is the step on the record. -/
theorem stepBytes_onTopic {F : Type} (fl : Floats F) (job : Job F)
    {e : JobEvent} (h : JobEvent.Written e) :
    job.stepBytes fl (JobEvent.onTopic e) = job.step fl e := by
  cases e with
  | fire window isLast writtenAt => rfl
  | arrive trade late =>
      have hbytes := processBytes_data fl h
      simp only [JobEvent.onTopic, Job.stepBytes, Job.step, hbytes]
      cases ParseTrade.process fl trade with
      | error e => rfl
      | ok e => cases late <;> rfl

/-- Over any events, the job that reads the bytes on the topic is where
the job is that reads the records whose integers are longs: it has the
same elements, and has fired the same panes.

By induction over the events, from any job they start in. -/
theorem streamed_from_wire {F : Type} (fl : Floats F) {b : PubSub}
    (hb : b.Documented) (events : List JobEvent)
    (h : ∀ e ∈ events, JobEvent.Written e) :
    runBytes fl ((events.map JobEvent.onTopic).filter b.passes)
      = Streaming.run fl (events.filter JobEvent.taken) := by
  have hpasses : ∀ e, b.passes (JobEvent.onTopic e) = JobEvent.taken e := by
    intro e
    cases e with
    | arrive trade late => exact hb.takes (.trades trade)
    | fire window isLast writtenAt => rfl
  unfold runBytes Streaming.run
  generalize ({} : Job F) = job
  induction events generalizing job with
  | nil => rfl
  | cons e events ih =>
      obtain ⟨he, hes⟩ := List.forall_mem_cons.mp h
      rw [List.map_cons, List.filter_cons, List.filter_cons, hpasses]
      split
      · rw [List.foldl_cons, List.foldl_cons, stepBytes_onTopic fl job he]
        exact ih hes _
      · exact ih hes job

-- ================================================================= at work

/-- A trade of the first millisecond of the epoch. -/
def epochTrade : Trade where
  sequence := 7
  productId := "BTC-USD"
  tradeId := 1
  price := "100.5"
  size := "0.25"
  side := "sell"
  makerOrderId := ""
  takerOrderId := ""
  eventTime := .millis 0
  ingestTime := .millis 1

def epochUpdate : L2Event where
  sequence := 8
  productId := "BTC-USD"
  eventType := "l2update"
  payload := "\x7b\"changes\":[[\"buy\",\"100.5\",\"1\"]]\x7d"
  eventTime := .millis 0
  ingestTime := .millis 1

def epochBeat : Heartbeat where
  sequence := 9
  productId := "BTC-USD"
  lastTradeId := 1
  eventTime := .millis 0
  ingestTime := .millis 1

/-- A service that takes an object of the topic's fields when its integers
are longs, and writes them. -/
def byFields : PubSub where
  takes topic text :=
    match Json.loads text with
    | some (.obj ms) => (topic.ofDict ms).any Payload.fits
    | _ => false
  columns topic text :=
    match Json.loads text with
    | some (.obj ms) => topic.ofDict ms
    | _ => none

theorem documented_byFields : byFields.Documented where
  takes p := by
    simp only [byFields, p.loads_data, p.ofDict_dict]
    cases p <;> rfl
  columns topic text ms _ hloads := by
    simp only [byFields, hloads]

theorem staged_from_wire_epoch :
    stgTrades Engine.inOrder {} 0 (tradesStream byFields
          ([⟨epochTrade, none, none⟩].map (Sent.message .trades)))
        = stgTrades Engine.inOrder {} 0
          ((taken .trades [⟨epochTrade, none, none⟩]).map Sent.tradeRow)
      ∧ stgL2Events {} 0 (l2Stream byFields
          ([⟨epochUpdate, none, none⟩].map (Sent.message .l2)))
        = stgL2Events {} 0
          ((taken .l2 [⟨epochUpdate, none, none⟩]).map Sent.l2Row)
      ∧ stgHeartbeats {} 0 (heartbeatStream byFields
          ([⟨epochBeat, none, none⟩].map (Sent.message .heartbeat)))
        = stgHeartbeats {} 0
          ((taken .heartbeat [⟨epochBeat, none, none⟩]).map
            Sent.heartbeatRow) := by
  have hwritten : TimesWritten (.millis 0) (.millis 1) :=
    ⟨by decide, by decide⟩
  refine staged_from_wire Engine.inOrder documented_byFields {} 0 _ _ _
    ?_ ?_ ?_ <;>
      intro x hx <;> rw [List.mem_singleton.mp hx] <;> exact hwritten

theorem streamed_from_wire_epoch :
    runBytes exactly (([.arrive epochTrade false,
        .fire ("BTC-USD", 0) true 2].map JobEvent.onTopic).filter
          byFields.passes)
      = Streaming.run exactly
        ([.arrive epochTrade false, .fire ("BTC-USD", 0) true 2].filter
          JobEvent.taken) := by
  refine streamed_from_wire exactly documented_byFields _ fun e he => ?_
  rcases List.mem_cons.mp he with rfl | he
  · show epochTrade.eventTime.Written
    decide
  · rw [List.mem_singleton.mp he]
    trivial

end MarketPlatform.Warehouse
