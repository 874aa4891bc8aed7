/-
The order book over another arithmetic.

# What the book computes

All that `consumer/book.py` computes to keep a book is the keys of the
bid side, the negated prices: `SortedDict(neg)` applies Python's unary
minus to each, and that works in the default context, with 28 digits and
a greatest exponent. The prices and sizes themselves are stored as they
were read and never take part in arithmetic. So how a book is kept
depends on the arithmetic through one operation, and the programs of
this module take it as a parameter.

# The two instances

`Negation.default` gives the programs of `Consumer.Book` back, one lemma
for each of them (`applySnapshotBy_default`, `applyUpdatesBy_default`);
what is proved of the parametrised programs is therefore proved of the
source's. `Negation.exact` is a decimal arithmetic that rounds nothing
and never raises. A price at which the two agree is `ExactAt`, and a
book all of whose prices are such prices is kept alike by both: this is
how the depths of a book become sums over its price levels, whatever the
number of their digits.
-/
import MarketPlatform.Consumer.Book

namespace MarketPlatform.Consumer

open Lib EStateM

/-- How a price is negated, and when that raises. The two are apart
because the source computes a key only for a price that is new to its
side. -/
structure Negation where
  neg : Decimal → Decimal
  overflows : Decimal → Bool

namespace Negation

/-- In the default context: rounded to 28 digits, and an exception
beyond the greatest exponent. -/
def default : Negation := ⟨Decimal.neg, Decimal.negOverflows⟩

/-- Nothing is rounded and nothing raises. -/
def exact : Negation := ⟨Decimal.copyNegate, fun _ => false⟩

/-- The negated price is not rounded and does not raise, so that a price
of this kind has the key that the exact arithmetic gives it. -/
def ExactAt (n : Negation) (q : ℚ) : Prop :=
  n.neg (.finite q) = .finite (-q) ∧ n.overflows (.finite q) = false

/-- The exact arithmetic is exact at every price. -/
theorem exactAt_exact (q : ℚ) : exact.ExactAt q := ⟨rfl, rfl⟩

end Negation

variable (n : Negation)

namespace Side

/-- The key a side is sorted by. Only the bids are negated; the asks are
sorted by their own prices. -/
def keyBy : Side → Decimal → Decimal
  | .buy => n.neg
  | .sell => id

/-- Computing the key raises, which the asks never do. -/
def keyRaisesBy : Side → Decimal → Bool
  | .buy => n.overflows
  | .sell => fun _ => false

/-- In the default context a key raises when the key of the source
does. -/
theorem keyRaisesBy_default (side : Side) (price : Decimal) :
    side.keyRaisesBy .default price = side.keyRaises price := by
  cases side <;> rfl

end Side

-- ============================================================= SortedDict

namespace Levels

/-- `Levels.insort` over a negation: a new price goes after every key
that is not greater than its own. -/
def insortBy (side : Side) (price size : Decimal) : Levels → Levels
  | [] => [(price, size)]
  | l :: ls =>
      if (side.keyBy n price).lt (side.keyBy n l.1) then
        (price, size) :: l :: ls
      else l :: insortBy side price size ls

/-- `Levels.setItem` over a negation. A price that is there keeps its
place and its key is not computed again. -/
def setItemBy (side : Side) (d : Levels) (price size : Decimal) :
    Py Levels :=
  if d.contains price then
    .ok (d.map fun l => if l.1.eq price then (l.1, size) else l)
  else if side.keyRaisesBy n price then .error .decimalOverflow
  else if d ≠ [] ∧ (price.isNan ∨ d.any fun l => l.1.isNan) then
    .error .invalidOperation
  else .ok (d.insortBy n side price size)

/-- `OrderBook._set` over a negation: a size of zero removes the level,
and any other size writes it. -/
def setBy (side : Side) (d : Levels) (price size : Decimal) : Py Levels :=
  if size.eq (.finite 0) then .ok (d.pop price)
  else d.setItemBy n side price size

/-- By the recursion of the insertion: at every level the two compare
the same keys. -/
theorem insortBy_default (side : Side) (price size : Decimal) (d : Levels) :
    d.insortBy .default side price size = d.insort side price size := by
  have hkey : side.keyBy .default = side.key := by cases side <;> rfl
  induction d with
  | nil => rfl
  | cons l d ih => rw [insortBy, insort, hkey, ih]

/-- Over the default context the write is the write of the source. -/
theorem setBy_default (side : Side) (d : Levels) (price size : Decimal) :
    d.setBy .default side price size = d.set side price size := by
  rw [setBy, setItemBy, insortBy_default, Side.keyRaisesBy_default]
  rfl

end Levels

-- ============================================================= the book

namespace OrderBook

/-- `OrderBook.write` over a negation. The numerals are read before
anything is written, whatever the negation does. -/
def writeBy (side : Side) (price size : Json) :
    EStateM Exc OrderBook Unit := do
  let p ← attempt (decimal price)
  let s ← attempt (decimal size)
  let b ← get
  let d ← attempt ((b.levels side).setBy n side p s)
  EStateM.set (b.setLevels side d)

/-- The loop of `apply_snapshot` over one side. -/
def writeAllBy (side : Side) :
    List (Json × Json) → EStateM Exc OrderBook Unit
  | [] => pure ()
  | (price, size) :: rest => do
      writeBy n side price size
      writeAllBy side rest

/-- `apply_snapshot` over a negation. -/
def applySnapshotBy (bids asks : List (Json × Json)) :
    EStateM Exc OrderBook Unit := do
  modify clear
  writeAllBy n .buy bids
  writeAllBy n .sell asks
  modify fun b =>
    { b with ready := true, snapshotCount := b.snapshotCount + 1 }

/-- The loop of `apply_updates`. -/
def writeChangesBy :
    List (Json × Json × Json) → EStateM Exc OrderBook Unit
  | [] => pure ()
  | (rawSide, price, size) :: rest => do
      let side ← attempt (Side.ofRaw rawSide)
      writeBy n side price size
      writeChangesBy rest

/-- `apply_updates` over a negation. Before a snapshot nothing is
written. -/
def applyUpdatesBy (changes : List (Json × Json × Json)) :
    EStateM Exc OrderBook Unit := do
  let b ← get
  if b.ready then
    writeChangesBy n changes
    modify fun b => { b with updateCount := b.updateCount + 1 }
  else pure ()

/-- One level is written as in the source. -/
theorem writeBy_default (side : Side) (price size : Json) :
    writeBy .default side price size = write side price size := by
  unfold writeBy write
  simp only [Levels.setBy_default]

/-- By induction on the levels of the side. -/
theorem writeAllBy_default (side : Side) (xs : List (Json × Json)) :
    writeAllBy .default side xs = writeAll side xs := by
  induction xs with
  | nil => rfl
  | cons x xs ih => rw [writeAllBy, writeAll, writeBy_default, ih]

/-- By induction on the changes. -/
theorem writeChangesBy_default (xs : List (Json × Json × Json)) :
    writeChangesBy .default xs = writeChanges xs := by
  induction xs with
  | nil => rfl
  | cons x xs ih =>
      rw [writeChangesBy, writeChanges]
      simp only [writeBy_default, ih]

/-- Over the default context the call is the source's, raises
included. -/
theorem applySnapshotBy_default (bids asks : List (Json × Json)) :
    applySnapshotBy .default bids asks = applySnapshot bids asks := by
  rw [applySnapshotBy, applySnapshot, writeAllBy_default,
    writeAllBy_default]

/-- Over the default context the call is the source's, raises
included. -/
theorem applyUpdatesBy_default (changes : List (Json × Json × Json)) :
    applyUpdatesBy .default changes = applyUpdates changes := by
  rw [applyUpdatesBy, applyUpdates, writeChangesBy_default]

end OrderBook

end MarketPlatform.Consumer
