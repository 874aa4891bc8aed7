/-
`int_book_state_1m`: the book at each minute boundary, rebuilt from the
latest snapshot of a product and every later delta.

# The CTEs

They keep their names. `events` orders by the time of receipt, because a
snapshot has no time of its own; within one level and minute the
exchange's time decides, after the snapshot (`BookEvent.order`).
`latest_snapshot` is the last one received, `reference_mid` the mid of
its resting levels, and `relevant` what came since, in the band around
that mid. A product whose latest snapshot has an empty side has no mid,
and so no rows at all.

# The steps after `relevant`

`reconstruct` is everything after `relevant`: the last size of each
level within each minute, carried forward to every later minute of the
grid, and the levels of size 0 left out. It fills the minutes of a grid
from relevant rows, and takes both as arguments, so that the rows kept
by the price filter and all rows can be put through the same steps.

# Nulls and ties

A comparison with a null price is not true, so a null never passes the
filter. Two events of one level that share the minute, the exchange's
millisecond and the position in their messages are tied, and which of
them `level_minute` takes is the engine's choice.
-/
import MarketPlatform.Warehouse.Staging

namespace MarketPlatform.Warehouse

open Lib Lib.Rfc3339 Lib.Relation

/-- A row of the CTE `events`. `stateTime` is the time of receipt, by
which the book is ordered; `eventTime` is the exchange's. -/
structure BookEvent where
  productId : String
  side : Option String
  price : Option ℚ
  size : Option ℚ
  eventType : String
  stateTime : Int
  eventTime : Int
  changeIndex : Nat
  eventMinute : Int
  deriving DecidableEq

/-- The CTE `events`: ordered by the time of receipt. -/
def bookEvents (es : List StgL2Event) : List BookEvent :=
  es.map fun e => {
    productId := e.productId
    side := e.side
    price := e.price
    size := e.size
    eventType := e.eventType
    stateTime := e.ingestTime
    eventTime := e.eventTime
    changeIndex := e.changeIndex
    eventMinute := truncate minute e.ingestTime }

namespace BookEvent

/-- `e.event_type = 'snapshot'`. -/
def isSnapshot (e : BookEvent) : Bool := e.eventType = "snapshot"

/-- `e.size > 0`. -/
def isResting (e : BookEvent) : Bool := e.size.any fun s => 0 < s

/-- The price level an event is about. -/
def level (e : BookEvent) : Option String × Option ℚ := (e.side, e.price)

/-- What `level_minute` groups by. -/
def levelMinuteKey (e : BookEvent) :
    String × Option String × Option ℚ × Int :=
  (e.productId, e.side, e.price, e.eventMinute)

/-- The order within a group of `level_minute`: the snapshot first, then
the exchange's time, then the position within the message. -/
def order (e : BookEvent) : Nat ×ₗ Int ×ₗ Nat :=
  toLex (if e.isSnapshot then 0 else 1,
    toLex (e.eventTime, e.changeIndex))

end BookEvent

/-- `latest_snapshot`: when a product's last snapshot was received. -/
def latestSnapshot (es : List BookEvent) (p : String) : Option Int :=
  maxOf ((es.filter fun e => e.productId = p && e.isSnapshot).map
    BookEvent.stateTime)

/-- The resting levels of a product's latest snapshot. -/
def snapshotRows (es : List BookEvent) (p : String) : List BookEvent :=
  es.filter fun e => e.productId = p
    && latestSnapshot es p = some e.stateTime && e.isSnapshot
    && e.isResting

/-- The prices of one side, for `min` and `max`. -/
def pricesOf (side : String) (es : List BookEvent) : List ℚ :=
  (es.filter fun e => e.side = some side).filterMap BookEvent.price

/-- `reference_mid`: the mid of the latest snapshot; null when one side
has no price. -/
def referenceMid (es : List BookEvent) (p : String) : Option ℚ := do
  let ask ← minOf (pricesOf "sell" (snapshotRows es p))
  let bid ← maxOf (pricesOf "buy" (snapshotRows es p))
  pure (divNumeric (ask + bid) 2)

/-- `abs(price - mid) <= mid * 0.01`. -/
def inBand (mid price : ℚ) : Bool :=
  |price - mid| ≤ mulNumeric mid (1 / 100)

/-- The rows at or after the latest snapshot of a product that has a
mid. -/
def sinceSnapshot (es : List BookEvent) (e : BookEvent) : Bool :=
  match latestSnapshot es e.productId, referenceMid es e.productId with
  | some t, some _ => t ≤ e.stateTime
  | _, _ => false

/-- The price filter of `relevant`. -/
def nearMid (es : List BookEvent) (e : BookEvent) : Bool :=
  match referenceMid es e.productId, e.price with
  | some mid, some price => inBand mid price
  | _, _ => false

/-- `relevant`: the rows since the latest snapshot, in the band around
its mid. A null price is in no band. -/
def relevant (es : List BookEvent) : List BookEvent :=
  es.filter fun e => sinceSnapshot es e && nearMid es e

/-- A row of `level_minute`. -/
structure LevelMinute where
  productId : String
  side : Option String
  price : Option ℚ
  eventMinute : Int
  size : Option ℚ
  deriving DecidableEq

/-- The price level a row is about. -/
def LevelMinute.level (l : LevelMinute) : Option String × Option ℚ :=
  (l.side, l.price)

/-- The order of `carried` within a level: the latest minute first. -/
def LevelMinute.recency (l : LevelMinute) : OrderDual Int :=
  OrderDual.toDual l.eventMinute

/-- `level_minute`: the last size of each level within each minute. A
null price is a level of its own, as a null is a group of its own. -/
def levelMinute (E : Engine) (es : List BookEvent) : List LevelMinute :=
  groupBy BookEvent.levelMinuteKey
    (fun k rows => ⟨k.1, k.2.1, k.2.2.1, k.2.2.2,
      (E.last BookEvent.order rows).bind BookEvent.size⟩) es

/-- `minute_grid`. -/
def minuteGrid (es : List BookEvent) : List (String × Int) :=
  (es.map fun e => (e.productId, e.eventMinute)).dedup

/-- A row of `int_book_state_1m`. -/
structure BookRow where
  productId : String
  eventMinute : Int
  side : Option String
  price : Option ℚ
  size : Option ℚ
  eventDate : Int
  deriving DecidableEq

/-- `carried`, at one minute of the grid: of every level, its latest
state at or before that minute. -/
def carried (E : Engine) (levels : List LevelMinute) (g : String × Int) :
    List BookRow :=
  (firstBy E LevelMinute.level LevelMinute.recency
    (levels.filter fun l => l.productId = g.1 && l.eventMinute ≤ g.2)).map
    fun l => ⟨g.1, g.2, l.side, l.price, l.size, dateOf g.2⟩

/-- `size > 0`. -/
def BookRow.isResting (r : BookRow) : Bool := r.size.any fun s => 0 < s

/-- The steps after `relevant`, over a grid of minutes. The grid is an
argument of its own: in the model it is made of the same rows. -/
def reconstruct (E : Engine) (grid : List (String × Int))
    (es : List BookEvent) : List BookRow :=
  (grid.flatMap (carried E (levelMinute E es))).filter BookRow.isResting

/-- `int_book_state_1m`, from the rows of `stg_l2_events`. -/
def intBookState1m (E : Engine) (es : List StgL2Event) : List BookRow :=
  reconstruct E (minuteGrid (relevant (bookEvents es)))
    (relevant (bookEvents es))

end MarketPlatform.Warehouse
