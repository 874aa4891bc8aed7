/-
When the reconstructed book is a function of the data.

# Two orders

The query orders the events of a level by minute of receipt, snapshots
first, exchange time and position in the message. Handling order is
finer: two messages of one exchange millisecond tie, and a delta of the
snapshot's own receive millisecond is taken to follow it. Where the
query leaves a choice, an engine may take the one event or the other,
and then the same raw rows have more than one book.

# The statement

The rows of `int_book_state_1m` are the live book's for every choice
among ties exactly when each level of the band is settled
(`book_settled_iff`). The live book of a minute is what the messages up
to the last one received in it make of a new book (`bookAt`), and it
mirrors their log (`mirrors_bookAt`). A run is any list of calls, those
that raise included, whose l2 messages are as the feed sends them; its
records may have been delivered in any order and any number of times, as
long as each was.

# The plan

What is staged of the records is what the messages recorded, as a set of
events (`L2Run.staged`); the rows depend on that set alone; and level by
level the tied events must agree with the log (`levelsSettled_iff`).
-/
import Mathlib.Data.List.DropRight
import MarketPlatform.Proofs.BookStream

namespace MarketPlatform.Warehouse

open Lib EStateM Lib.Rfc3339 Lib.Relation Lib.Numeral
open Consumer Consumer.MessageHandler Consumer.OrderBook

-- ========================================================= the live book

/-- A record received after a minute. -/
def receivedAfter (M : Int) (m : L2Event) : Bool :=
  M < truncate minute (m.ingestTime.instant.getD 0)

/-- The records up to the last one received in or before a minute. -/
def publishedBy (M : Int) (published : List L2Event) : List L2Event :=
  published.rdropWhile (receivedAfter M)

/-- The book after the last message received in or before a minute: the
messages applied, in the order they were handled, to a new book. -/
def bookAt (published : List L2Event) (M : Int) : OrderBook :=
  ((replay (publishedBy M published)).run {}).state

/-- The messages up to the last one received in or before a minute. -/
def messagesBy (M : Int) (ms : List L2Message) : List L2Message :=
  ms.rdropWhile fun m => receivedAfter M m.event

/-- The records up to a minute are those of the messages up to it. -/
theorem publishedBy_map (M : Int) (ms : List L2Message) :
    publishedBy M (ms.map L2Message.event)
      = (messagesBy M ms).map L2Message.event := by
  rw [publishedBy, messagesBy, List.rdropWhile, List.rdropWhile,
    ← List.map_reverse, List.dropWhile_map, List.map_reverse]
  rfl

variable {vars : Vars} {now : Int} {p : String} {rows : List RawL2}
  {es : List StgL2Event} {ms : List L2Message}

/-- The book of a minute holds what the log of its messages says. -/
theorem mirrors_bookAt (hms : ∀ m ∈ ms, Sound m) (M : Int) :
    Mirrors ((logOf (messagesBy M ms)).getD [])
      (bookAt (ms.map L2Message.event) M) := by
  have hsound : ∀ m ∈ messagesBy M ms, Sound m := fun m hm =>
    hms m ((List.rdropWhile_prefix _ _).subset hm)
  have hnew : Logged none {} := ⟨fun side => by cases side <;> rfl, rfl⟩
  obtain ⟨b, hrun, hlog⟩ := logged_replay hsound comparable_empty hnew
  rw [bookAt, publishedBy_map, hrun]
  exact hlog.mirrors

/-- The events of messages are about levels of the book's sides. -/
theorem sided_recorded (hms : ∀ m ∈ ms, Sound m) :
    ∀ e ∈ recorded ms, ∃ (side : Side) (q : ℚ),
      e.level = (some side.name, some q) := by
  intro e he
  obtain ⟨x, hx, rfl⟩ := List.mem_map.mp he
  obtain ⟨m, hm, hx⟩ := List.mem_flatMap.mp hx
  obtain ⟨-, hsaid⟩ := said_message (hms m hm).fed (hms m hm).valued
  obtain ⟨y, -, hy⟩ := exists_related hsaid hx
  refine ⟨y.side, roundAway 9 y.price, ?_⟩
  have hside : x.side = some y.side.name := congrArg Prod.fst hy.level
  have hprice : x.price = some y.price := congrArg Prod.snd hy.level
  rw [BookEvent.level, BookEvent.asNumeric, hside, hprice]
  rfl

-- ================================================================= the runs

/-- Calls on a new handler, those that raise included, whose l2 messages
are as the feed sends them. -/
structure L2Run where
  products : List String
  refuses : Nat → Bool := fun _ => false
  calls : List Call
  fed : ∀ c ∈ (new products { refuses := refuses }).returned calls,
    AsFed c = true

namespace L2Run

/-- A new handler for the run's products, whose publisher refuses what
the run says. -/
def handler (run : L2Run) : MessageHandler :=
  new run.products { refuses := run.refuses }

/-- The l2 records published under a product's key, in order. -/
def published (run : L2Run) (p : String) : List L2Event :=
  (run.handler.serve run.calls).publisher.l2 p

/-- The l2 messages of a product that were handled, in order. -/
def messages (run : L2Run) (p : String) : List L2Message :=
  messagesIn p (run.handler.returned run.calls)

/-- What is published of a product are the records of its messages. -/
theorem published_eq (run : L2Run) (p : String) :
    run.published p = (run.messages p).map L2Message.event :=
  (l2_serve p run.handler run.calls).trans (List.nil_append _)

/-- What is staged of a run's records is what its messages record. -/
theorem staged (run : L2Run)
    (hrows : Landed vars now p (run.published p) rows)
    (hes : stgL2Events vars now rows = some es) :
    (∀ m ∈ run.messages p, Sound m)
      ∧ SameRows p (bookEvents es) (recorded (run.messages p))
      ∧ Sided (unpruned (bookEvents es)) p := by
  have hread : ∀ m ∈ run.messages p, (∃ c, readMessage c = some m)
      ∧ m.event.productId = p ∧ m.Fed = true := by
    intro m hm
    obtain ⟨⟨c, hc, hread⟩, hp⟩ := of_messagesIn hm
    exact ⟨⟨c, hread⟩, hp, fed_of_asFed (run.fed c hc) hread⟩
  rw [published_eq] at hrows
  obtain ⟨hsound, hstaged⟩ := staged_iff (fun m hm => (hread m hm).1)
    (fun m hm => (hread m hm).2.1) (fun m hm => (hread m hm).2.2) hrows hes
  refine ⟨hsound, fun e hp => ?_, fun e he hp => ?_⟩
  · rw [← hstaged]
    exact (and_iff_left hp).symm
  · exact sided_recorded hsound e
      ((hstaged e).mp ⟨(mem_unpruned.mp he).1, hp⟩)

end L2Run

/-- However often the records of a run are delivered: the rows of a
product's minute are, for every choice among tied rows, the in-band
levels of the book its messages make, exactly when every level is
settled.

The rows are a function of the staged events as a set (`L2Run.staged`),
and the live book of its log (`mirrors_bookAt`), so that both sides can
be compared level by level (`levelsSettled_iff`). -/
theorem book_settled_iff (run : L2Run)
    (hrows : Landed vars now p (run.published p) rows)
    (hes : stgL2Events vars now rows = some es) :
    (∀ (E : Engine) (M : Int) (mid : ℚ),
        (p, M) ∈ minuteGrid (relevant (bookEvents es)) →
        referenceMid (bookEvents es) p = some mid →
        (group BookRow.gridKey (intBookState1m E es) (p, M)).Perm
          (liveRows (p, M) mid (bookAt (run.published p) M)))
      ↔ ∀ (M : Int) (mid : ℚ),
          (p, M) ∈ minuteGrid (relevant (bookEvents es)) →
          referenceMid (bookEvents es) p = some mid →
          LevelsSettled (unpruned (recorded (run.messages p)))
            ((logOf (messagesBy M (run.messages p))).getD []) (p, M)
            mid := by
  obtain ⟨hsound, hsame, hsided⟩ := run.staged hrows hes
  have hminute : ∀ (M : Int) (mid : ℚ),
      (p, M) ∈ minuteGrid (relevant (bookEvents es)) →
      referenceMid (bookEvents es) p = some mid →
      ((∀ E : Engine, (group BookRow.gridKey (intBookState1m E es)
          (p, M)).Perm (liveRows (p, M) mid (bookAt (run.published p) M)))
        ↔ LevelsSettled (unpruned (recorded (run.messages p)))
            ((logOf (messagesBy M (run.messages p))).getD []) (p, M)
            mid) := by
    intro M mid hg hmid
    have hlive : Mirrors ((logOf (messagesBy M (run.messages p))).getD [])
        (bookAt (run.published p) M) := by
      rw [L2Run.published_eq]
      exact mirrors_bookAt hsound M
    rw [← levelsSettled_congr (g := (p, M)) (unpruned_congr hsame)]
    exact levelsSettled_iff hg hmid hsided hlive
  constructor
  · intro h M mid hg hmid
    exact (hminute M mid hg hmid).mp fun E => h E M mid hg hmid
  · intro h E M mid hg hmid
    exact (hminute M mid hg hmid).mpr (h M mid hg hmid) E

-- =============================================================== two updates

/-- A message of BTC-USD, received some milliseconds after the epoch. -/
def btcCall (type : String) (fields : List (String × Json)) (ms : Int) :
    Call :=
  .handle (.obj (("type", .str type) :: ("product_id", .str "BTC-USD")
    :: fields)) (ms * 1000)

/-- A snapshot, and two l2updates the exchange sent in one millisecond:
the first removes the ask, the second sets it again. -/
def reAdded : L2Run where
  products := ["BTC-USD"]
  calls := [
    btcCall "snapshot" [
      ("bids", .arr [.arr [.str "100", .str "1"]]),
      ("asks", .arr [.arr [.str "101", .str "1"]])] 0,
    btcCall "l2update" [
      ("changes", .arr [.arr [.str "sell", .str "101", .str "0"]]),
      ("time", .str "1970-01-01T00:00:02.000300Z")] 2040,
    btcCall "l2update" [
      ("changes", .arr [.arr [.str "sell", .str "101", .str "2"]]),
      ("time", .str "1970-01-01T00:00:02.000700Z")] 2041]
  fed := by decide +kernel

/-- The raw rows of a run's records of BTC-USD. -/
def L2Run.btcRows (run : L2Run) : List RawL2 :=
  (run.published "BTC-USD").map fun m => RawL2.ofMessage m none

/-- Each record of the run once, in order. -/
theorem landed_btcRows (run : L2Run) :
    Landed {} 0 "BTC-USD" (run.published "BTC-USD") run.btcRows where
  copies := by
    intro r hr _
    obtain ⟨m, hm, rfl⟩ := List.mem_map.mp hr
    exact ⟨m, hm, none, rfl⟩
  kept := fun m hm => ⟨_, List.mem_map_of_mem hm, none, rfl⟩
  inside := by
    intro r hr _
    obtain ⟨m, -, rfl⟩ := List.mem_map.mp hr
    rfl

/-- The two updates tie: one choice among them gives the live book, and
the other a book without asks. -/
theorem reAdded_is_not_settled :
    ∃ es, stgL2Events {} 0 reAdded.btcRows = some es
      ∧ (group BookRow.gridKey (intBookState1m Engine.inOrder es)
          ("BTC-USD", 0)).map (fun r => (r.side, r.price, r.size))
        = [(some "buy", some 100, some 1)]
      ∧ (group BookRow.gridKey (intBookState1m Engine.inReverse es)
          ("BTC-USD", 0)).map (fun r => (r.side, r.price, r.size))
        = [(some "buy", some 100, some 1),
          (some "sell", some 101, some 2)]
      ∧ (bookAt (reAdded.published "BTC-USD") 0).asks
        = [(.finite 101, .finite 2)] := by
  refine ⟨(stgL2Events {} 0 reAdded.btcRows).getD [], ?_⟩
  decide +kernel

/-- The condition, at the run of the two updates. -/
theorem book_settled_iff_reAdded :
    ∃ es, stgL2Events {} 0 reAdded.btcRows = some es
      ∧ ((∀ (E : Engine) (M : Int) (mid : ℚ),
          ("BTC-USD", M) ∈ minuteGrid (relevant (bookEvents es)) →
          referenceMid (bookEvents es) "BTC-USD" = some mid →
          (group BookRow.gridKey (intBookState1m E es) ("BTC-USD", M)).Perm
            (liveRows ("BTC-USD", M) mid
              (bookAt (reAdded.published "BTC-USD") M)))
        ↔ ∀ (M : Int) (mid : ℚ),
            ("BTC-USD", M) ∈ minuteGrid (relevant (bookEvents es)) →
            referenceMid (bookEvents es) "BTC-USD" = some mid →
            LevelsSettled (unpruned (recorded (reAdded.messages "BTC-USD")))
              ((logOf (messagesBy M (reAdded.messages "BTC-USD"))).getD [])
              ("BTC-USD", M) mid) := by
  have hes : stgL2Events {} 0 reAdded.btcRows
      = some ((stgL2Events {} 0 reAdded.btcRows).getD []) := by
    decide +kernel
  exact ⟨_, hes, book_settled_iff reAdded (landed_btcRows reAdded) hes⟩

end MarketPlatform.Warehouse
