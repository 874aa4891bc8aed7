/-
The streaming minute bars (`streaming/bars_pipeline.py`).

# The job

A run of the job is a list of events: a message is read — and dropped by
Beam when it is late beyond the allowed lateness — or a window fires.
Beam is free in both: an event says which messages are late and when a
window fires. Panes accumulate, so a firing restates every element its
window was given so far.

# Bytes and records

`ParseTrade` decodes the bytes of a message (`ParseTrade.processBytes`).
Nearly everything about the job is said of records, with the times and
numbers as the consumer has published them (`ParseTrade.process`, `run`);
`Proofs/Wire` shows that a run on the bytes of records is the run on the
records.

# Floats and times

The arithmetic of Python's floats is a parameter (`Floats`); which texts
`float` reads is not. An event time without a zone is read in the zone of
the workers, UTC.
-/
import Mathlib.Data.List.Sort
import MarketPlatform.Consumer.Publisher
import MarketPlatform.Lib.Relation

namespace MarketPlatform.Streaming

open Lib Lib.Numeral Lib.Rfc3339 Lib.Relation Consumer

-- ================================================================ floats

/-- The operations the bars are computed with. -/
structure Floats (F : Type) where
  /-- The value of a text that `float` reads. -/
  ofText : String → F
  mul : F → F → F
  div : F → F → F
  sum : List F → F
  max : List F → F
  min : List F → F
  isZero : F → Bool
  /-- `round(value, 9)`, as a `NUMERIC` column holds it. -/
  round9 : F → ℚ

/-- Every underscore stands between digits. -/
def grouped (afterDigit : Bool) : List Char → Bool
  | [] => true
  | c :: cs =>
      if c = '_' then
        afterDigit && cs.head?.any Char.isDigit && grouped false cs
      else grouped c.isDigit cs

/-- `float` reads the text. -/
def isFloat (text : String) : Bool :=
  let cs := strip text.toList
  let word := (spanSign cs).2.map Char.toLower
  word = "inf".toList || word = "infinity".toList || word = "nan".toList
    || (grouped false cs && (parse (cs.filter fun c => c ≠ '_')).isSome)

variable {F : Type} (fl : Floats F)

/-- `float(text)`. -/
def pyFloat (text : String) : Py F :=
  if isFloat text then .ok (fl.ofText text) else .error .valueError

-- ============================================================ ParseTrade

/-- An element of the stream, with its timestamp. -/
structure Element (F : Type) where
  productId : String
  tradeId : Int
  price : F
  size : F
  timestamp : Int

/-- The product, and the minute of the exchange's time. -/
def Element.window (e : Element F) : String × Int :=
  (e.productId, truncate minute e.timestamp)

/-- `fromisoformat(text.replace("Z", "+00:00")).timestamp()`. -/
def timestampOf : Text → Py Int
  | .millis n => .ok (n * millisecond)
  | .other s => (fromisoformat (replaceZ s.toList)).map DateTime.micros

/-- `ParseTrade.process`. -/
def ParseTrade.process (trade : Trade) : Py (Element F) := do
  let timestamp ← timestampOf trade.eventTime
  let price ← pyFloat fl trade.price
  let size ← pyFloat fl trade.size
  pure {
    productId := trade.productId
    tradeId := trade.tradeId
    price, size, timestamp }

/-- `float(value)`. An integer that no double comes near raises. -/
def floatOf : Json → Py F
  | .str s => pyFloat fl s
  | .int n =>
      if |n| < 2 ^ 1024 - 2 ^ 970 then .ok (fl.ofText (toString n))
      else .error .overflowError
  | .float literal _ => .ok (fl.ofText literal)
  | .bool b => .ok (fl.ofText (if b then "1" else "0"))
  | .null | .arr _ | .obj _ => .error .typeError

/-- `ParseTrade.process` on the bytes of a message, in the order the source
evaluates: nothing, and a warning, when they are no JSON text. -/
def ParseTrade.processBytes (message : String) : Py (Option (Element F)) :=
  match Json.loads message with
  | none => .ok none
  | some trade => do
      let eventTime ← parseTime (← item trade "event_time")
      let productId ← asKey (← item trade "product_id")
      let tradeId ← pyInt (← item trade "trade_id")
      let price ← floatOf fl (← item trade "price")
      let size ← floatOf fl (← item trade "size")
      pure (some {
        productId, tradeId, price, size, timestamp := eventTime.micros })

-- ============================================================== BuildBar

/-- One firing of a window. -/
structure Pane (F : Type) where
  window : String × Int
  index : Nat
  isLast : Bool
  trades : List (Element F)
  writtenAt : Int

/-- A row of `curated.bars_1m_stream`. -/
structure StreamBar where
  productId : String
  barStart : Int
  barEnd : Int
  openPrice : ℚ
  high : ℚ
  low : ℚ
  closePrice : ℚ
  volume : ℚ
  tradeCount : Nat
  vwap : Option ℚ
  firstTradeId : Int
  lastTradeId : Int
  paneIndex : Nat
  isFinalPane : Bool
  writtenAt : Int
  deriving DecidableEq

def StreamBar.key (s : StreamBar) : String × Int :=
  (s.productId, s.barStart)

/-- `BuildBar.process`. -/
def BuildBar.process (pane : Pane F) : Option StreamBar :=
  let ordered := pane.trades.insertionSort fun a b => a.tradeId ≤ b.tradeId
  let prices := ordered.map Element.price
  let volume := fl.sum (ordered.map Element.size)
  let notional := fl.sum (ordered.map fun t => fl.mul t.price t.size)
  match ordered.head?, ordered.getLast? with
  | some first, some last => some {
      productId := pane.window.1
      barStart := pane.window.2
      barEnd := pane.window.2 + minute
      openPrice := fl.round9 first.price
      high := fl.round9 (fl.max prices)
      low := fl.round9 (fl.min prices)
      closePrice := fl.round9 last.price
      volume := fl.round9 volume
      tradeCount := ordered.length
      vwap := if fl.isZero volume then none
        else some (fl.round9 (fl.div notional volume))
      firstTradeId := first.tradeId
      lastTradeId := last.tradeId
      paneIndex := pane.index
      isFinalPane := pane.isLast
      writtenAt := pane.writtenAt }
  | _, _ => none

-- =============================================================== the job

/-- What happens to the job. -/
inductive JobEvent where
  /-- A message is read; Beam drops its element when it is too late. -/
  | arrive (trade : Trade) (late : Bool)
  /-- The window fires. -/
  | fire (window : String × Int) (isLast : Bool) (writtenAt : Int)
  deriving DecidableEq

/-- The elements that were not dropped, and the panes fired. -/
structure Job (F : Type) where
  elements : List (Element F) := []
  panes : List (Pane F) := []

/-- The panes of a window so far. -/
def Job.fired (job : Job F) (window : String × Int) : Nat :=
  job.panes.countP fun pane => pane.window = window

def Job.step (job : Job F) : JobEvent → Job F
  | .arrive trade late =>
      match ParseTrade.process fl trade, late with
      | .ok e, false => { job with elements := job.elements ++ [e] }
      | _, _ => job
  | .fire window isLast writtenAt =>
      { job with
        panes := job.panes ++ [{
          window, index := job.fired window, isLast
          trades := group Element.window job.elements window
          writtenAt }] }

/-- The job after a list of events. -/
def run (events : List JobEvent) : Job F := events.foldl (Job.step fl) {}

/-- What happens to the job, its messages as the topic has them. -/
inductive TopicEvent where
  | arrive (message : String) (late : Bool)
  | fire (window : String × Int) (isLast : Bool) (writtenAt : Int)
  deriving DecidableEq

/-- A step on bytes: as on a record, once they are parsed. -/
def Job.stepBytes (job : Job F) : TopicEvent → Job F
  | .arrive message late =>
      match ParseTrade.processBytes fl message, late with
      | .ok (some e), false => { job with elements := job.elements ++ [e] }
      | _, _ => job
  | .fire window isLast writtenAt =>
      job.step fl (.fire window isLast writtenAt)

/-- The job after a list of events on the topic. -/
def runBytes (events : List TopicEvent) : Job F :=
  events.foldl (Job.stepBytes fl) {}

/-- The rows the job appends to `curated.bars_1m_stream`. -/
def Job.written (job : Job F) : List StreamBar :=
  job.panes.filterMap (BuildBar.process fl)

end MarketPlatform.Streaming
