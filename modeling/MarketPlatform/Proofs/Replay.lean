/-
The published l2 stream replays to the live book.

The consumer publishes every snapshot and l2update it handles, as a
record whose payload is the JSON text of the levels. A replay decodes
the payloads published under a product's key and folds them into a new
book, with the same two operations that the live book is changed by.

# Two books that part and meet

The replay does not see disconnects, which empty the live book, and it
applies deltas that the live book dropped because it had no snapshot. So
the two books diverge while the live one is not ready, and meet again at
the next snapshot, which replaces all levels of both. `Follows` is the
relation that tolerates this: the replay's levels are the live ones
whenever the live book is ready, and until then all that is kept is that
the replay has not raised and can go on (`Comparable`: its prices can be
compared, so that the sorted insertion does not raise).

# What the feed must send

A delta the live book drops is published unread, so the replay needs of
the feed what the live book does not: that every change can be applied
(`AsFed`). It also needs that levels are texts, because a payload is
text. `dropped_delta_stops_replay` is a run without it: the live book is
ready again, and the replay has raised for good.

# The steps

A payload read back gives the levels it was made of
(`decode_snapshotPayload`, `decode_updatePayload`), by the round trip of
`Lib/JsonText`. So replaying a record is applying the message it was
made of (`replayEvent_of_read`), and what is left is a statement about
one message and two books (`same_of_apply`). `follows_call` goes through
the three kinds of call of `Proofs/L2Calls`, and `follows_calls` is the
induction.
-/
import MarketPlatform.Lib.JsonText
import MarketPlatform.Proofs.Books
import MarketPlatform.Proofs.L2Calls

namespace MarketPlatform.Consumer

open Lib EStateM MessageHandler OrderBook

-- ============================================================= the replay

/-- `json.loads(payload)`. -/
def decode (payload : String) : Py Json :=
  match Json.loads payload with
  | some j => .ok j
  | none => .error .valueError

/-- Fold one published l2 event into a book. -/
def replayEvent (e : L2Event) : EStateM Exc OrderBook Unit := do
  let payload ← attempt (decode e.payload)
  if e.eventType = "snapshot" then
    let bids ← attempt (pairs payload "bids")
    let asks ← attempt (pairs payload "asks")
    applySnapshot bids asks
  else
    let changes ← attempt (triples payload "changes")
    applyUpdates changes

/-- Fold published l2 events into a book, up to the first that raises. -/
def replay : List L2Event → EStateM Exc OrderBook Unit
  | [] => pure ()
  | e :: es => do
      replayEvent e
      replay es

theorem replay_append (es es' : List L2Event) :
    replay (es ++ es') = (do replay es; replay es') := by
  induction es with
  | nil => rfl
  | cons e es ih =>
      show (do replayEvent e; replay (es ++ es')) = _
      rw [ih]
      exact (bind_assoc (replayEvent e) (fun _ => replay es)
        fun _ => replay es').symm

-- =========================================================== what is fed

def isStr : Json → Bool
  | .str _ => true
  | _ => false

theorem isStr_iff {j : Json} : isStr j = true ↔ ∃ s, j = .str s := by
  cases j <;> simp [isStr]

/-- Levels as the feed sends them: strings, and numbers. -/
def fedLevels (xs : List (Json × Json)) : Bool :=
  xs.all fun x => isStr x.1 && isStr x.2 && writable x.1 x.2

def fedChanges (xs : List (Json × Json × Json)) : Bool :=
  xs.all fun x => isStr x.1 && isStr x.2.1 && isStr x.2.2
    && (Side.ofRaw x.1).isOk && writable x.2.1 x.2.2

/-- The levels and changes of a message are as the feed sends them. -/
def AsFed : Call → Bool
  | .handle msg t =>
      match typeOf msg with
      | .snapshot =>
          match snapshotOf msg t with
          | .ok s => fedLevels s.bids && fedLevels s.asks
          | .error _ => true
      | .l2update =>
          match updateOf msg t with
          | .ok u => fedChanges u.changes
          | .error _ => true
      | _ => true
  | .onDisconnect => true

/-- The record a handled snapshot or l2update of a product publishes. -/
def l2Record (p : String) : Call → Option L2Event
  | .handle msg t =>
      match typeOf msg with
      | .snapshot =>
          match snapshotOf msg t with
          | .ok s => if s.event.productId = p then some s.event else none
          | .error _ => none
      | .l2update =>
          match updateOf msg t with
          | .ok u => if u.event.productId = p then some u.event else none
          | .error _ => none
      | _ => none
  | .onDisconnect => none

-- ============================================================ the payloads

theorem textual_pairs {xs : List (Json × Json)}
    (h : fedLevels xs = true) : Json.Textual (pairsJson xs) = true := by
  have helem : ∀ j, isStr j = true → Json.Textual j = true := by
    intro j hj
    cases j <;> simp_all [isStr, Json.Textual]
  show Json.TextualElems (xs.map fun x => .arr [x.1, x.2]) = true
  induction xs with
  | nil => rfl
  | cons x xs ih =>
      simp only [fedLevels, List.all_cons, Bool.and_eq_true] at h
      obtain ⟨⟨⟨hp, hs⟩, -⟩, hxs⟩ := h
      simp only [List.map_cons, Json.TextualElems, Json.Textual,
        helem _ hp, helem _ hs, Bool.and_true, Bool.true_and]
      exact ih hxs

theorem textual_triples {xs : List (Json × Json × Json)}
    (h : fedChanges xs = true) : Json.Textual (triplesJson xs) = true := by
  have helem : ∀ j, isStr j = true → Json.Textual j = true := by
    intro j hj
    cases j <;> simp_all [isStr, Json.Textual]
  show Json.TextualElems (xs.map fun x => .arr [x.1, x.2.1, x.2.2]) = true
  induction xs with
  | nil => rfl
  | cons x xs ih =>
      simp only [fedChanges, List.all_cons, Bool.and_eq_true] at h
      obtain ⟨⟨⟨⟨⟨hr, hp⟩, hs⟩, -⟩, -⟩, hxs⟩ := h
      simp only [List.map_cons, Json.TextualElems, Json.Textual,
        helem _ hr, helem _ hp, helem _ hs, Bool.and_true, Bool.true_and]
      exact ih hxs

theorem mapM_unpack2 (xs : List (Json × Json)) :
    (xs.map fun x => Json.arr [x.1, x.2]).mapM unpack2 = .ok xs := by
  induction xs with
  | nil => rfl
  | cons x xs ih =>
      rw [List.map_cons, List.mapM_cons, ih]
      rfl

theorem mapM_unpack3 (xs : List (Json × Json × Json)) :
    (xs.map fun x => Json.arr [x.1, x.2.1, x.2.2]).mapM unpack3
      = .ok xs := by
  induction xs with
  | nil => rfl
  | cons x xs ih =>
      rw [List.map_cons, List.mapM_cons, ih]
      rfl

/-- Decoding a snapshot's payload gives its levels back. -/
theorem decode_snapshotPayload {bids asks : List (Json × Json)}
    (hbids : fedLevels bids = true) (hasks : fedLevels asks = true) :
    ∃ j, decode (snapshotPayload bids asks) = .ok j
      ∧ pairs j "bids" = .ok bids ∧ pairs j "asks" = .ok asks := by
  have htext : Json.Textual (.obj [("bids", pairsJson bids),
      ("asks", pairsJson asks)]) = true := by
    simp only [Json.Textual, Json.TextualMembers, textual_pairs hbids,
      textual_pairs hasks, Bool.and_true]
  refine ⟨.obj [("bids", pairsJson bids), ("asks", pairsJson asks)], ?_,
    mapM_unpack2 bids, mapM_unpack2 asks⟩
  rw [decode, snapshotPayload, Json.loads_dumps htext]

/-- Decoding an l2update's payload gives its changes back. -/
theorem decode_updatePayload {changes : List (Json × Json × Json)}
    (h : fedChanges changes = true) :
    ∃ j, decode (updatePayload changes) = .ok j
      ∧ triples j "changes" = .ok changes := by
  have htext : Json.Textual (.obj [("changes", triplesJson changes)])
      = true := by
    simp only [Json.Textual, Json.TextualMembers, textual_triples h,
      Bool.and_true]
  refine ⟨.obj [("changes", triplesJson changes)], ?_,
    mapM_unpack3 changes⟩
  rw [decode, updatePayload, Json.loads_dumps htext]

/-- Replaying a snapshot applies its levels. -/
theorem replayEvent_snapshot {e : L2Event} {bids asks : List (Json × Json)}
    (htype : e.eventType = "snapshot")
    (hpayload : e.payload = snapshotPayload bids asks)
    (hbids : fedLevels bids = true) (hasks : fedLevels asks = true) :
    replayEvent e = applySnapshot bids asks := by
  obtain ⟨j, hdecode, hb, ha⟩ := decode_snapshotPayload hbids hasks
  rw [replayEvent, hpayload, hdecode]
  show (if e.eventType = "snapshot" then do
      let bids ← attempt (pairs j "bids")
      let asks ← attempt (pairs j "asks")
      applySnapshot bids asks
    else _) = _
  rw [if_pos htype, hb, ha]
  rfl

/-- Replaying an l2update applies its changes. -/
theorem replayEvent_update {e : L2Event}
    {changes : List (Json × Json × Json)}
    (htype : e.eventType ≠ "snapshot")
    (hpayload : e.payload = updatePayload changes)
    (h : fedChanges changes = true) :
    replayEvent e = applyUpdates changes := by
  obtain ⟨j, hdecode, hc⟩ := decode_updatePayload h
  rw [replayEvent, hpayload, hdecode]
  show (if e.eventType = "snapshot" then _
    else do
      let changes ← attempt (triples j "changes")
      applyUpdates changes) = _
  rw [if_neg htype, hc]
  rfl

-- ============================================================ the records

theorem snapshotOf_ok {msg : Json} {t : Int} {s : Snapshot}
    (h : snapshotOf msg t = .ok s) :
    s.event.eventType = "snapshot"
      ∧ s.event.payload = snapshotPayload s.bids s.asks := by
  obtain ⟨p, -, h⟩ := bind_ok h
  obtain ⟨bids, -, h⟩ := bind_ok h
  obtain ⟨asks, -, h⟩ := bind_ok h
  obtain ⟨sequence, -, h⟩ := bind_ok h
  cases h
  exact ⟨rfl, rfl⟩

theorem updateOf_ok {msg : Json} {t : Int} {u : Update}
    (h : updateOf msg t = .ok u) :
    u.event.eventType = "l2update"
      ∧ u.event.payload = updatePayload u.changes := by
  obtain ⟨p, -, h⟩ := bind_ok h
  obtain ⟨changes, -, h⟩ := bind_ok h
  obtain ⟨time, -, h⟩ := bind_ok h
  obtain ⟨sequence, -, h⟩ := bind_ok h
  cases h
  exact ⟨rfl, rfl⟩

/-- The levels of a message are as the feed sends them. -/
def L2Message.Fed : L2Message → Bool
  | .snapshot s => fedLevels s.bids && fedLevels s.asks
  | .update u => fedChanges u.changes

theorem l2Record_eq (p : String) (c : Call) :
    l2Record p c = (messageIn p c).map L2Message.event := by
  cases c with
  | onDisconnect => rfl
  | handle msg t =>
      rw [l2Record, messageIn, readMessage]
      cases typeOf msg with
      | snapshot =>
          cases snapshotOf msg t with
          | error e => rfl
          | ok s =>
              by_cases hp : s.event.productId = p <;>
                simp [Except.toOption, L2Message.event, hp]
      | l2update =>
          cases updateOf msg t with
          | error e => rfl
          | ok u =>
              by_cases hp : u.event.productId = p <;>
                simp [Except.toOption, L2Message.event, hp]
      | _ => rfl

theorem fed_of_asFed {c : Call} {m : L2Message} (hfed : AsFed c = true)
    (hm : readMessage c = some m) : m.Fed = true := by
  obtain ⟨msg, t, rfl, ⟨s, rfl, htype, hof⟩ | ⟨u, rfl, htype, hof⟩⟩ :=
    of_readMessage hm
  · rw [AsFed, htype, hof] at hfed
    exact hfed
  · rw [AsFed, htype, hof] at hfed
    exact hfed

/-- Replaying a message's record applies the message. -/
theorem replayEvent_of_read {c : Call} {m : L2Message}
    (hm : readMessage c = some m) (hfed : m.Fed = true) :
    replayEvent m.event = m.apply := by
  obtain ⟨msg, t, rfl, ⟨s, rfl, htype, hof⟩ | ⟨u, rfl, htype, hof⟩⟩ :=
    of_readMessage hm
  · obtain ⟨htype, hpayload⟩ := snapshotOf_ok hof
    obtain ⟨hbids, hasks⟩ := Bool.and_eq_true_iff.mp hfed
    exact replayEvent_snapshot htype hpayload hbids hasks
  · obtain ⟨htype, hpayload⟩ := updateOf_ok hof
    exact replayEvent_update (by simp [L2Message.event, htype]) hpayload hfed

-- ========================================================== the simulation

/-- The replay of what was published under a product's key: it has not
raised, it can go on, and its levels are the live book's whenever that
book is ready. -/
structure Follows (p : String) (h : MessageHandler) (r : OrderBook) :
    Prop where
  run : (replay (h.publisher.l2 p)).run {} = .ok () r
  comparable : r.Comparable
  live : ∀ b, h.books p = some b → b.ready = true → Same Eq b r

/-- A call that publishes nothing under the key, and leaves the book as
it is or not ready. -/
theorem Follows.keep {p : String} {h h' : MessageHandler} {r : OrderBook}
    (hf : Follows p h r) (hl2 : h'.publisher.l2 p = h.publisher.l2 p)
    (hbook : ∀ b', h'.books p = some b' → b'.ready = true →
      h.books p = some b') : Follows p h' r :=
  ⟨hl2 ▸ hf.run, hf.comparable,
    fun b hb hready => hf.live b (hbook b hb hready) hready⟩

theorem Follows.publish {p : String} {h h' : MessageHandler}
    {r r' : OrderBook} {e : L2Event} (hf : Follows p h r)
    (hl2 : h'.publisher.l2 p = h.publisher.l2 p ++ [e])
    (hrun : (replayEvent e).run r = .ok () r') (hr : r'.Comparable)
    (hlive : ∀ b, h'.books p = some b → b.ready = true → Same Eq b r') :
    Follows p h' r' := by
  refine ⟨?_, hr, hlive⟩
  rw [hl2, replay_append, run_bind, hf.run]
  show (replay [e]).run r = _
  show (replayEvent e >>= fun _ => pure ()).run r = _
  rw [run_bind, hrun]
  rfl

/-- Two results of one snapshot on any two books. -/
theorem same_of_applySnapshot {bids asks : List (Json × Json)}
    (hbids : fedLevels bids = true) (hasks : fedLevels asks = true)
    {b b' : OrderBook}
    (hb : (applySnapshot bids asks).run b = .ok () b') (r : OrderBook) :
    ∃ r', (applySnapshot bids asks).run r = .ok () r' ∧ r'.Comparable
      ∧ Same Eq b' r' := by
  have hwritable : ∀ {xs}, fedLevels xs = true →
      ∀ x ∈ xs, writable x.1 x.2 = true := by
    intro xs hxs x hx
    have h := List.all_eq_true.mp hxs x hx
    simp only [Bool.and_eq_true] at h
    exact h.2
  have halike : ((applySnapshot bids asks).run b).Alike
      (Same fun _ _ => True) ((applySnapshot bids asks).run r) :=
    alike_applySnapshot trivial bids asks trivial
  obtain ⟨r', hr, hcomp, hready⟩ :=
    run_applySnapshot (hwritable hbids) (hwritable hasks) r
  obtain ⟨b₁, hb₁, -, hready₁⟩ :=
    run_applySnapshot (hwritable hbids) (hwritable hasks) b
  obtain rfl : b₁ = b' := (Result.ok.inj (hb₁.symm.trans hb)).2
  rw [hb, hr] at halike
  exact ⟨r', hr, hcomp, halike.2.bids, halike.2.asks,
    hready₁.trans hready.symm⟩

/-- The live book after an l2update, and the replay's: the same levels
if the live book was ready; otherwise the live book dropped it. -/
theorem same_of_applyUpdates {changes : List (Json × Json × Json)}
    (hchanges : fedChanges changes = true) {b b' r : OrderBook}
    (hb : (applyUpdates changes).run b = .ok () b') (hr : r.Comparable)
    (hlive : b.ready = true → Same Eq b r) :
    ∃ r', (applyUpdates changes).run r = .ok () r' ∧ r'.Comparable
      ∧ (b'.ready = true → Same Eq b' r') := by
  have hwritable : ∀ x ∈ changes,
      (Side.ofRaw x.1).isOk ∧ writable x.2.1 x.2.2 = true := by
    intro x hx
    have h := List.all_eq_true.mp hchanges x hx
    simp only [Bool.and_eq_true] at h
    exact ⟨h.1.2, h.2⟩
  obtain ⟨r', hrun, hr', -⟩ := hr.run_applyUpdates hwritable
  refine ⟨r', hrun, hr', fun hready => ?_⟩
  cases hbr : b.ready with
  | false =>
      rw [run_applyUpdates_idle hbr] at hb
      cases hb
      rw [hbr] at hready
      cases hready
  | true =>
      have halike := lockstep_applyUpdates changes b r (hlive hbr)
      rw [hb, hrun] at halike
      exact halike.2

/-- Two results of one message: the live book's, and the replay's. -/
theorem same_of_apply {m : L2Message} (hfed : m.Fed = true)
    {b b' r : OrderBook} (hb : m.apply.run b = .ok () b')
    (hr : r.Comparable) (hlive : b.ready = true → Same Eq b r) :
    ∃ r', m.apply.run r = .ok () r' ∧ r'.Comparable
      ∧ (b'.ready = true → Same Eq b' r') := by
  cases m with
  | snapshot s =>
      obtain ⟨hbids, hasks⟩ := Bool.and_eq_true_iff.mp hfed
      obtain ⟨r', hrun, hcomp, hsame⟩ := same_of_applySnapshot hbids hasks hb r
      exact ⟨r', hrun, hcomp, fun _ => hsame⟩
  | update u => exact same_of_applyUpdates hfed hb hr hlive

/-- Every call that does not raise publishes its record, and the replay
follows. A message of the product does the same to both books; a
disconnect and the messages of others publish nothing, and leave the
book not ready or as it was. -/
theorem follows_call {p : String} {c : Call} {h h' : MessageHandler}
    {r : OrderBook} (hf : Follows p h r) (hfed : AsFed c = true)
    (hrun : (call c).run h = .ok () h') : ∃ r', Follows p h' r' := by
  cases l2Step_call p hrun with
  | message m b b' is book applied book' sent =>
      obtain ⟨hread, -⟩ := messageIn_eq_some_iff.mp is
      have hm := fed_of_asFed hfed hread
      obtain ⟨r', hr', hcomp, hsame⟩ :=
        same_of_apply hm applied hf.comparable (hf.live b book)
      refine ⟨r', hf.publish sent ?_ hcomp fun d hd => ?_⟩
      · rw [replayEvent_of_read hread hm]
        exact hr'
      · obtain rfl : b' = d := Option.some.inj (book'.symm.trans hd)
        exact hsame
  | disconnect is book' sent =>
      refine ⟨r, hf.keep sent fun d hd hready => ?_⟩
      -- a book that was reset is not ready
      rw [book'] at hd
      obtain ⟨b, -, rfl⟩ := Option.map_eq_some_iff.mp hd
      cases hready
  | other no connected book' sent =>
      exact ⟨r, hf.keep sent fun d hd _ => book'.symm.trans hd⟩

-- ============================================================= whole runs

/-- The replay follows calls that do not raise. -/
theorem follows_calls (p : String) (cs : List Call) :
    ∀ {h h' : MessageHandler} {r : OrderBook}, Follows p h r →
      cs.all AsFed = true → (calls cs).run h = .ok () h' →
      ∃ r', Follows p h' r' := by
  induction cs with
  | nil =>
      intro h h' r hf _ hrun
      cases hrun
      exact ⟨r, hf⟩
  | cons c cs ih =>
      intro h h' r hf hfed hrun
      obtain ⟨hc, hcs⟩ := Bool.and_eq_true_iff.mp hfed
      obtain ⟨h₁, hcall, hrest⟩ := calls_cons_ok hrun
      obtain ⟨r₁, hf₁⟩ := follows_call hf hc hcall
      exact ih hf₁ hcs hrest

/-- The records of calls that do not raise. -/
theorem l2_calls_records (p : String) {cs : List Call}
    {h h' : MessageHandler} (hrun : (calls cs).run h = .ok () h') :
    h'.publisher.l2 p = h.publisher.l2 p ++ cs.filterMap (l2Record p) := by
  rw [l2_calls p hrun, messagesIn, List.map_filterMap]
  congr 2
  exact funext fun c => (l2Record_eq p c).symm

/-- What is published under a product's key is one record for each of
its snapshots and l2updates, in order; and whenever its book is ready,
the replay of those records has the same levels. -/
theorem l2_stream_replays (products : List String) (refuses : Nat → Bool)
    (cs : List Call)
    (hok : completes products { refuses := refuses } cs = true)
    (hfed : cs.all AsFed = true) (p : String) :
    (after products { refuses := refuses } cs).publisher.l2 p
        = cs.filterMap (l2Record p)
      ∧ ∀ b, (after products { refuses := refuses } cs).books p = some b →
          b.ready = true →
          ∃ r, (replay ((after products { refuses := refuses }
              cs).publisher.l2 p)).run {} = .ok () r
            ∧ r.bids = b.bids ∧ r.asks = b.asks := by
  have hnew : Follows p
      (MessageHandler.new products { refuses := refuses }) {} := by
    refine ⟨rfl, comparable_empty, fun b hb hready => ?_⟩
    have hb' : (if p ∈ products then some ({} : OrderBook) else none)
        = some b := hb
    split at hb'
    · obtain rfl := Option.some.inj hb'
      cases hready
    · cases hb'
  obtain ⟨r, hf⟩ := follows_calls p cs hnew hfed (calls_of_completes hok)
  refine ⟨l2_calls_records p (calls_of_completes hok),
    fun b hb hready => ?_⟩
  have hsame := hf.live b hb hready
  exact ⟨r, hf.run, hsame.bids.symm, hsame.asks.symm⟩

/-- A snapshot of BTC-USD with one level on each side. -/
def btcSnapshot (bid ask : String) : Call :=
  .handle (.obj [("type", .str "snapshot"), ("product_id", .str "BTC-USD"),
    ("bids", .arr [.arr [.str bid, .str "1"]]),
    ("asks", .arr [.arr [.str ask, .str "2"]])]) 0

/-- An l2update of BTC-USD that sets one bid. -/
def btcUpdate (price size : String) : Call :=
  .handle (.obj [("type", .str "l2update"), ("product_id", .str "BTC-USD"),
    ("changes", .arr [.arr [.str "buy", .str price, .str size]])]) 0

/-- A bid set after a disconnect is dropped live and published; the next
snapshot brings the replay back to the live book. -/
theorem l2_stream_replays_across_disconnect :
    ∃ r, (replay ((after ["BTC-USD"] { refuses := fun _ => false }
        [btcSnapshot "100" "101", btcUpdate "99" "3", .onDisconnect,
          btcUpdate "98" "4", btcSnapshot "100" "102"]).publisher.l2
          "BTC-USD")).run {} = .ok () r
      ∧ r.bids = [(.finite 100, .finite 1)]
      ∧ r.asks = [(.finite 102, .finite 2)] :=
  (l2_stream_replays ["BTC-USD"] (fun _ => false)
    [btcSnapshot "100" "101", btcUpdate "99" "3", .onDisconnect,
      btcUpdate "98" "4", btcSnapshot "100" "102"]
    (by decide +kernel) (by decide +kernel) "BTC-USD").2
    { bids := [(.finite 100, .finite 1)], asks := [(.finite 102, .finite 2)]
      ready := true, snapshotCount := 2, updateCount := 1 }
    (by decide +kernel) rfl

/-- A dropped delta whose price is no number: the live book is ready
after the next snapshot, and the replay has raised. -/
theorem dropped_delta_stops_replay :
    completes ["BTC-USD"] RecordingPublisher
        [btcSnapshot "100" "101", .onDisconnect, btcUpdate "abc" "4",
          btcSnapshot "100" "102"] = true
      ∧ ((after ["BTC-USD"] RecordingPublisher
          [btcSnapshot "100" "101", .onDisconnect, btcUpdate "abc" "4",
            btcSnapshot "100" "102"]).books "BTC-USD").map OrderBook.ready
        = some true
      ∧ ((replay ((after ["BTC-USD"] RecordingPublisher
          [btcSnapshot "100" "101", .onDisconnect, btcUpdate "abc" "4",
            btcSnapshot "100" "102"]).publisher.l2 "BTC-USD")).run
          {}).isOk = false := by
  decide +kernel

end MarketPlatform.Consumer
