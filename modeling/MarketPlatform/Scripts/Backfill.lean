/-
Backfilling missed trades (`scripts/backfill_trades.py`).

# The parameters

The REST API is a parameter: `fetchPage product cursor` is the page of
trades below a cursor. The clock is a parameter too: the `i`-th payload
reads the time `clock i`. Progress output is left out, and so is the
pause between two requests.

# The loop

The loop over pages (`collect`) has a fuel, one unit a page; `none` is a
loop that has used it up. It ends where every wanted id is collected, at
an empty page, or when the cursor has come down to the lower bound, and
the cursor is the least id of the page before. What it collects is a
dictionary by id, so that a trade on two pages is kept once, at the
place it first had and with the record that came last. Only then are the
records made and published, in ascending order of their ids.

# Records

`toTopicPayload` makes the record of the trades topic from an entry of
the API, under the same names as the handlers do from a match; the
orders of both sides are unknown to the API and left empty, and the
sequence is 0.
-/
import Mathlib.Data.List.Sort
import MarketPlatform.Consumer.Publisher
import MarketPlatform.Lib.Relation

namespace MarketPlatform.Scripts

open Lib Consumer Lib.Relation

/-- `PAGE_SIZE`, the trades the API gives at most. -/
def PAGE_SIZE : Int := 1000

-- =============================================================== payloads

/-- `text.replace("+00:00", "Z")`. -/
def replaceUtc : List Char → List Char
  | '+' :: '0' :: '0' :: ':' :: '0' :: '0' :: cs => 'Z' :: replaceUtc cs
  | c :: cs => c :: replaceUtc cs
  | [] => []

/-- `event_time` of a payload: the text with a `Z` for its zone. -/
def eventTimeOf (time : String) : String :=
  let text := replaceUtc time.toList
  String.ofList (if text.getLast? = some 'Z' then text else text ++ ['Z'])

/-- A value whose string methods are called; any other has none. -/
def asText : Json → Py String
  | .str s => .ok s
  | _ => .error .attributeError

/-- `to_topic_payload`, at a time. The fields are read in the order of
the source, which decides which of two errors is raised. -/
def toTopicPayload (now : Int) (trade : Json) (product : String) :
    Py Trade := do
  let time ← item trade "time" >>= asText
  let tradeId ← item trade "trade_id" >>= pyInt
  let price ← (item trade "price").map pyStr
  let size ← (item trade "size").map pyStr
  let side ← (item trade "side").map pyStr
  pure {
    sequence := 0
    productId := product
    tradeId, price, size, side
    makerOrderId := ""
    takerOrderId := ""
    eventTime := .other (eventTimeOf time)
    ingestTime := iso now }

-- ================================================================== pages

/-- The command line. -/
structure Args where
  product : String
  after : Int
  before : Int
  dryRun : Bool := false
  deriving DecidableEq

/-- `tid in wanted`. -/
def Args.wanted (args : Args) (tid : Int) : Bool :=
  args.after < tid && tid < args.before

/-- `range(args.after + 1, args.before)`. -/
def Args.range (args : Args) : List Int :=
  (List.range (args.before - args.after - 1).toNat).map fun i : Nat =>
    args.after + 1 + i

/-- `collected[tid] = trade`: in place, or at the end. -/
def put (tid : Int) (trade : Json) : List (Int × Json) → List (Int × Json)
  | [] => [(tid, trade)]
  | c :: cs => if c.1 = tid then (tid, trade) :: cs else c :: put tid trade cs

/-- `wanted - set(collected)`, as a condition. -/
def unfinished (args : Args) (collected : List (Int × Json)) : Bool :=
  args.range.any fun tid => tid ∉ collected.map Prod.fst

/-- `int(t["trade_id"])`. -/
def tradeIdOf (trade : Json) : Py Int := item trade "trade_id" >>= pyInt

/-- The trades of a page that are wanted, added to those collected. -/
def addPage (args : Args) (page : List (Int × Json))
    (collected : List (Int × Json)) : List (Int × Json) :=
  page.foldl (fun cs t => if args.wanted t.1 then put t.1 t.2 cs else cs)
    collected

/-- The loop over pages. A page whose entry has no readable id ends the
script with that error, and what was collected is lost. -/
def collect (fetchPage : String → Int → List Json) (args : Args) :
    Nat → Int → List (Int × Json) → Option (Py (List (Int × Json)))
  | 0, _, _ => none
  | fuel + 1, cursor, collected =>
      if unfinished args collected then
        let page := fetchPage args.product cursor
        if page = [] then some (.ok collected)
        else
          match page.mapM tradeIdOf with
          | .error e => some (.error e)
          | .ok ids =>
              let collected := addPage args (ids.zip page) collected
              let cursor := (minOf ids).getD 0
              if cursor ≤ args.after then some (.ok collected)
              else collect fetchPage args fuel cursor collected
      else some (.ok collected)

-- =================================================================== main

/-- `main`: the records it publishes, in ascending order of their ids. -/
def backfill (fetchPage : String → Int → List Json) (clock : Nat → Int)
    (args : Args) (fuel : Nat) : Option (Py (List Trade)) :=
  if args.range = [] then some (.ok [])
  else
    (collect fetchPage args fuel (args.before + PAGE_SIZE) []).map fun c =>
      c >>= fun collected =>
        if args.dryRun then .ok []
        else
          (collected.insertionSort fun a b => a.1 ≤ b.1).zipIdx.mapM
            fun t => toTopicPayload (clock t.2) t.1.2 args.product

/-- The calls of `client.publish`, under the product's ordering key. -/
def published (fetchPage : String → Int → List Json) (clock : Nat → Int)
    (args : Args) (fuel : Nat) : Option (Py (List Published)) :=
  (backfill fetchPage clock args fuel).map fun r =>
    r.map fun ms => ms.map fun m => ⟨.trades m, args.product⟩

end MarketPlatform.Scripts
