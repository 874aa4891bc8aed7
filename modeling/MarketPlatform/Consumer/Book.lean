/-
The level 2 order book (`consumer/book.py`).

A book is two sorted dictionaries from price to size. `applySnapshot`
replaces both; `applyUpdates` applies deltas, and drops them while no
snapshot has been applied; a size of zero removes its level. A raise in
the middle of either leaves the levels written so far in place: the
operations are `EStateM` programs over the book.

# Decimals

Only values matter to the book — `100.0` and `100.00` are one key — so a
finite `Decimal` is its rational value. The infinities are ordinary
keys. A quiet NaN is equal to nothing, itself included, and raises when
compared for order, which a sorted dictionary does as soon as a second
key is inserted; a signalling NaN raises at its first use and is taken
to raise when it is built.

`Decimal(text)` keeps every digit of the text, and raises
`InvalidOperation` where it cannot: where the text is no numeral, and
where its digits lie outside what any context can have
(`Decimal.holds`). A zero is bounded as well, by its exponent alone.

# Arithmetic

Every operation passes its exact result through a `Context`, which
rounds it; two zeros of different sign are one value.

# Order

The bid side is ordered through a negated key, and Python's unary minus
works in the default context: it rounds to 28 digits, drops what lies
below the least exponent and raises above the greatest (`neg`,
`negOverflows`). A new key goes after every key that is not greater
(`insort`), so two prices with one rounded key stand in the order in
which they came.
-/
import MarketPlatform.Lib.Exec
import MarketPlatform.Consumer.Python

namespace MarketPlatform.Consumer

open Lib Lib.Numeral EStateM

-- ============================================================== decimals

/-- A `decimal.Decimal`, up to spelling. Two zeros of different sign are
one value here, as they are one key of a dictionary. -/
inductive Decimal where
  | finite (q : ℚ)
  | infinite (negative : Bool)
  | nan
  deriving DecidableEq

namespace Decimal

/-- `a == b`. -/
def eq : Decimal → Decimal → Bool
  | .finite a, .finite b => a = b
  | .infinite a, .infinite b => a = b
  | _, _ => false

/-- `a < b`, where neither is a NaN. -/
def lt : Decimal → Decimal → Bool
  | .finite a, .finite b => a < b
  | .finite _, .infinite negative => !negative
  | .infinite negative, .finite _ => negative
  | .infinite a, .infinite b => a && !b
  | _, _ => false

/-- A quiet NaN; the signalling ones do not get this far. -/
def isNan : Decimal → Bool
  | .nan => true
  | _ => false

/-- `-d` in the default context, where it does not raise. -/
def neg : Decimal → Decimal
  | .finite q => .finite (roundSig 28 (-1000026) (-q))
  | .infinite negative => .infinite !negative
  | .nan => .nan

/-- `-d` raises `Overflow`: its leading digit is beyond the context's
greatest exponent. -/
def negOverflows : Decimal → Bool
  | .finite q => 999999 < Int.log 10 |roundSig 28 (-1000026) (-q)|
  | _ => false

end Decimal

/-- What an arithmetic context makes of an exact result. -/
abbrev Context := ℚ → Py ℚ

namespace Context

/-- The default context: 28 digits, none below the least exponent; it
raises above the greatest. -/
def default : Context := fun q =>
  let r := roundSig 28 (-1000026) q
  if 999999 < Int.log 10 |r| then .error .decimalOverflow else .ok r

/-- Nothing is rounded. -/
def exact : Context := .ok

end Context

namespace Decimal

/-- `a + b`. -/
def add (ctx : Context) : Decimal → Decimal → Py Decimal
  | .finite a, .finite b => (ctx (a + b)).map .finite
  | .nan, _ => .ok .nan
  | _, .nan => .ok .nan
  | .infinite a, .infinite b =>
      if a = b then .ok (.infinite a) else .error .invalidOperation
  | .infinite a, .finite _ => .ok (.infinite a)
  | .finite _, .infinite b => .ok (.infinite b)

/-- The sign flipped, without a context. -/
def copyNegate : Decimal → Decimal
  | .finite q => .finite (-q)
  | .infinite negative => .infinite !negative
  | .nan => .nan

/-- `a - b`. -/
def sub (ctx : Context) (a b : Decimal) : Py Decimal :=
  a.add ctx b.copyNegate

/-- `a * b`. -/
def mul (ctx : Context) : Decimal → Decimal → Py Decimal
  | .finite a, .finite b => (ctx (a * b)).map .finite
  | .nan, _ => .ok .nan
  | _, .nan => .ok .nan
  | .infinite a, .infinite b => .ok (.infinite (a != b))
  | .infinite a, .finite q =>
      if q = 0 then .error .invalidOperation
      else .ok (.infinite (a != decide (q < 0)))
  | .finite q, .infinite b =>
      if q = 0 then .error .invalidOperation
      else .ok (.infinite (b != decide (q < 0)))

/-- `a / b`. -/
def div (ctx : Context) : Decimal → Decimal → Py Decimal
  | .finite a, .finite b =>
      if b = 0 then
        if a = 0 then .error .invalidOperation else .error .divisionByZero
      else (ctx (a / b)).map .finite
  | .nan, _ => .ok .nan
  | _, .nan => .ok .nan
  | .infinite _, .infinite _ => .error .invalidOperation
  | .infinite a, .finite q => .ok (.infinite (a != decide (q < 0)))
  | .finite _, .infinite _ => .ok (.finite 0)

/-- `a >= b`. -/
def ge (a b : Decimal) : Py Bool :=
  if a.isNan ∨ b.isNan then .error .invalidOperation
  else .ok (!a.lt b)

end Decimal

/-- The spellings of the special values, lower case. -/
def specialValue (negative : Bool) (cs : List Char) : Option (Py Decimal) :=
  if cs = "inf".toList ∨ cs = "infinity".toList then
    some (.ok (.infinite negative))
  else if cs.take 3 = "nan".toList ∧ (cs.drop 3).all Char.isDigit then
    some (.ok .nan)
  else if cs.take 4 = "snan".toList ∧ (cs.drop 4).all Char.isDigit then
    some (.error .invalidOperation)
  else none

/-- What `Decimal(text)` can hold of a numeral: the first of its digits is
no higher than `MAX_EMAX`, the last no lower than `MIN_ETINY`, and there
are no more of them than `MAX_PREC`. A zero has one digit. -/
def Decimal.holds (x : Nat × Int) : Bool :=
  x.2 + Nat.log 10 x.1 ≤ 999999999999999999
    && -1999999999999999997 ≤ x.2
    && Nat.log 10 x.1 < 999999999999999999

/-- `Decimal(text)`. A numeral out of range raises like one that cannot be
read: the conversion has to be exact. -/
def decimalOfChars (cs : List Char) : Py Decimal :=
  let cs := (strip cs).filter fun c => c ≠ '_'
  match specialValue ((spanSign cs).1 = -1)
      ((spanSign cs).2.map Char.toLower) with
  | some d => d
  | none =>
      match spelled (spanSign cs).2 with
      | some x =>
          if Decimal.holds x then
            .ok (.finite ((spanSign cs).1 * scale x.1 x.2))
          else .error .invalidOperation
      | none => .error .invalidOperation

/-- `Decimal(value)`. -/
def decimal : Json → Py Decimal
  | .str s => decimalOfChars s.toList
  | .int n => .ok (.finite n)
  | .bool b => .ok (.finite (if b then 1 else 0))
  | .float _ (some q) => .ok (.finite q)
  | .float literal none =>
      .ok (if literal = "NaN" then .nan
        else .infinite (literal = "-Infinity"))
  | .null | .arr _ | .obj _ => .error .typeError

-- ================================================================ sides

inductive Side where
  | buy
  | sell
  deriving DecidableEq, Repr

namespace Side

/-- `Side(raw_side)`. -/
def ofRaw : Json → Py Side
  | .str s =>
      if s = "buy" then .ok .buy
      else if s = "sell" then .ok .sell
      else .error .valueError
  | _ => .error .valueError

/-- The key a side is sorted by. -/
def key : Side → Decimal → Decimal
  | .buy => Decimal.neg
  | .sell => id

/-- Computing the key raises. -/
def keyRaises : Side → Decimal → Bool
  | .buy => Decimal.negOverflows
  | .sell => fun _ => false

end Side

-- ========================================================== SortedDict

/-- The items of a `SortedDict`, in key order. -/
abbrev Levels := List (Decimal × Decimal)

namespace Levels

/-- `d.get(price)`. -/
def get? (d : Levels) (price : Decimal) : Option Decimal :=
  (d.find? fun l => l.1.eq price).map Prod.snd

/-- `price in d`. -/
def contains (d : Levels) (price : Decimal) : Bool :=
  d.any fun l => l.1.eq price

/-- Insert after every key that is not greater. -/
def insort (side : Side) (price size : Decimal) : Levels → Levels
  | [] => [(price, size)]
  | l :: ls =>
      if (side.key price).lt (side.key l.1) then (price, size) :: l :: ls
      else l :: insort side price size ls

/-- `d[price] = size`. The key of a new price is computed first. -/
def setItem (side : Side) (d : Levels) (price size : Decimal) :
    Py Levels :=
  if d.contains price then
    .ok (d.map fun l => if l.1.eq price then (l.1, size) else l)
  else if side.keyRaises price then .error .decimalOverflow
  else if d ≠ [] ∧ (price.isNan ∨ d.any fun l => l.1.isNan) then
    .error .invalidOperation
  else .ok (d.insort side price size)

/-- `d.pop(price, None)`. -/
def pop (d : Levels) (price : Decimal) : Levels :=
  d.filter fun l => !l.1.eq price

/-- `OrderBook._set`. -/
def set (side : Side) (d : Levels) (price size : Decimal) :
    Py Levels :=
  if size.eq (.finite 0) then .ok (d.pop price)
  else d.setItem side price size

end Levels

-- ============================================================= the book

/-- Top of book at a point in time. A book that is ready and has both
sides has one, unless it is crossed. -/
structure Quote where
  bidPrice : Decimal
  bidSize : Decimal
  askPrice : Decimal
  askSize : Decimal
  deriving DecidableEq

namespace Quote

/-- The ask less the bid, positive in every quote of finite prices. -/
def spread (ctx : Context) (q : Quote) : Py Decimal :=
  q.askPrice.sub ctx q.bidPrice

def mid (ctx : Context) (q : Quote) : Py Decimal := do
  let sum ← q.askPrice.add ctx q.bidPrice
  sum.div ctx (.finite 2)

/-- Spread in basis points of the midpoint. -/
def spreadBps (ctx : Context) (q : Quote) : Py Decimal := do
  let spread ← q.spread ctx
  let mid ← q.mid ctx
  let ratio ← spread.div ctx mid
  ratio.mul ctx (.finite 10000)

end Quote

/-- One product's book. -/
structure OrderBook where
  bids : Levels := []
  asks : Levels := []
  ready : Bool := false
  snapshotCount : Nat := 0
  updateCount : Nat := 0
  deriving DecidableEq

namespace OrderBook

/-- The side's dictionary. -/
def levels (b : OrderBook) : Side → Levels
  | .buy => b.bids
  | .sell => b.asks

/-- Replace the side's dictionary, and nothing else. -/
def setLevels (b : OrderBook) : Side → Levels → OrderBook
  | .buy, d => { b with bids := d }
  | .sell, d => { b with asks := d }

/-- Write one level: `self._set(book, Decimal(price), Decimal(size))`.
Both numerals are read before the dictionary is touched. -/
def write (side : Side) (price size : Json) : EStateM Exc OrderBook Unit :=
  do
    let p ← attempt (decimal price)
    let s ← attempt (decimal size)
    let b ← get
    let d ← attempt ((b.levels side).set side p s)
    EStateM.set (b.setLevels side d)

/-- The loop of `apply_snapshot` over one side. -/
def writeAll (side : Side) :
    List (Json × Json) → EStateM Exc OrderBook Unit
  | [] => pure ()
  | (price, size) :: rest => do
      write side price size
      writeAll side rest

/-- Both dictionaries are emptied. The counts and the readiness stay. -/
def clear (b : OrderBook) : OrderBook := { b with bids := [], asks := [] }

/-- `apply_snapshot`. Readiness is set at the end: a snapshot that
raises leaves a book that was not ready as it was in this respect, and a
book that was ready stays ready over the levels written so far. -/
def applySnapshot (bids asks : List (Json × Json)) :
    EStateM Exc OrderBook Unit := do
  modify clear
  writeAll .buy bids
  writeAll .sell asks
  modify fun b =>
    { b with ready := true, snapshotCount := b.snapshotCount + 1 }

/-- The loop of `apply_updates`. -/
def writeChanges :
    List (Json × Json × Json) → EStateM Exc OrderBook Unit
  | [] => pure ()
  | (rawSide, price, size) :: rest => do
      let side ← attempt (Side.ofRaw rawSide)
      write side price size
      writeChanges rest

/-- `apply_updates`. The changes written before one that raises stay. -/
def applyUpdates (changes : List (Json × Json × Json)) :
    EStateM Exc OrderBook Unit := do
  let b ← get
  -- deltas before a snapshot are dropped, not applied to an empty book
  if b.ready then
    writeChanges changes
    modify fun b => { b with updateCount := b.updateCount + 1 }
  else pure ()

/-- `best_bid`: the first item of the side, whatever its size. -/
def bestBid (b : OrderBook) : Option (Decimal × Decimal) :=
  if b.ready then b.bids.head? else none

/-- `best_ask`. -/
def bestAsk (b : OrderBook) : Option (Decimal × Decimal) :=
  if b.ready then b.asks.head? else none

/-- `quote`: none while a side is empty or the book is not ready, and
`CrossedBookError` where the bid is not below the ask. -/
def quote (b : OrderBook) : Py (Option Quote) :=
  match b.bestBid, b.bestAsk with
  | some bid, some ask =>
      if bid.1.isNan ∨ ask.1.isNan then .error .invalidOperation
      else if bid.1.lt ask.1 then
        .ok (some ⟨bid.1, bid.2, ask.1, ask.2⟩)
      else .error .crossedBookError
  | _, _ => .ok none

/-- One level of the sum: its size counts if its price does. -/
def addWithin (ctx : Context) (within : Decimal → Py Bool)
    (total : Decimal) (l : Decimal × Decimal) : Py Decimal := do
  if ← within l.1 then total.add ctx l.2 else pure total

/-- `sum((s for p, s in levels if within(p)), Decimal(0))`. -/
def depthOf (ctx : Context) (within : Decimal → Py Bool) (d : Levels) :
    Py Decimal :=
  d.foldlM (addWithin ctx within) (.finite 0)

/-- Total size resting within `bps` of the mid, per side. The band is
computed from the mid by three operations, each of which rounds. -/
def depthWithinBps (ctx : Context) (b : OrderBook) (bps : Int) :
    Py (Decimal × Decimal) := do
  match ← b.quote with
  | none => pure (.finite 0, .finite 0)
  | some quote =>
      let mid ← quote.mid ctx
      let scaled ← mid.mul ctx (.finite bps)
      let band ← scaled.div ctx (.finite 10000)
      let floor ← mid.sub ctx band
      let ceil ← mid.add ctx band
      let bidDepth ← depthOf ctx (fun p => p.ge floor) b.bids
      let askDepth ← depthOf ctx (fun p => ceil.ge p) b.asks
      pure (bidDepth, askDepth)

def reset (b : OrderBook) : OrderBook :=
  { b with bids := [], asks := [], ready := false }

/-- A book that is reset waits for a snapshot. -/
@[simp] theorem reset_ready (b : OrderBook) : b.reset.ready = false := rfl

/-- Both sides of a cleared book are empty. -/
@[simp] theorem levels_clear (b : OrderBook) (side : Side) :
    b.clear.levels side = [] := by
  cases side <;> rfl

/-- Writing levels leaves the readiness. -/
@[simp] theorem ready_setLevels (b : OrderBook) (side : Side)
    (d : Levels) : (b.setLevels side d).ready = b.ready := by
  cases side <;> rfl

/-- Writing one side leaves the other. -/
theorem levels_setLevels (b : OrderBook) (side side' : Side)
    (d : Levels) :
    (b.setLevels side d).levels side'
      = if side' = side then d else b.levels side' := by
  cases side <;> cases side' <;> rfl

end OrderBook

-- =============================================================== BookSet

/-- The books of every subscribed product. A product that is not
subscribed to has none, and looking it up raises. -/
abbrev BookSet := String → Option OrderBook

namespace BookSet

def new (productIds : List String) : BookSet :=
  fun p => if p ∈ productIds then some {} else none

/-- `self._books[p] = book`, for a product that has one. -/
def put (books : BookSet) (p : String) (b : OrderBook) : BookSet :=
  fun q => if q = p then some b else books q

def resetAll (books : BookSet) : BookSet :=
  fun p => (books p).map OrderBook.reset

end BookSet

end MarketPlatform.Consumer
