/-
The book events of what the consumer publishes.

# Numbers

The warehouse and the book read the same texts, by different readers:
the warehouse casts, which rounds to nine digits and may fail, the book
builds a `Decimal`, which does neither but may raise. Where both succeed
the cast rounds the number that the book has (`castNumeric_ok`); a text
that spells an infinity is no numeral for the warehouse.

# Payloads

The levels of a record travel as a JSON text inside it. Reading it back
gives the levels that were written, in order, as long as their parts are
texts, which is how the feed sends them (`queryArray_snapshotPayload`,
`queryArray_updatePayload`).

# Events

So a published snapshot or l2update is staged to one event for each of
its levels, with the values the live book reads, cast to `NUMERIC`
(`staged_message`). `messageEvents` are these events before the cast,
and they are what the later modules compare with the entries of the
book's log.
-/
import MarketPlatform.Proofs.LiveBook
import MarketPlatform.Proofs.Pruning
import MarketPlatform.Proofs.Replay
import MarketPlatform.Warehouse.Topic

namespace MarketPlatform.Warehouse

open Lib Lib.Rfc3339 Lib.Relation Lib.Numeral Lib.LastWrite
open Consumer Consumer.MessageHandler Consumer.OrderBook

-- ================================================================ numbers

/-- The value the book reads. -/
def valueOf (j : Json) : Option ℚ :=
  match decimal j with
  | .ok (.finite q) => some q
  | _ => none

/-- The book reads a value where `Decimal()` gives a finite one. -/
theorem valueOf_eq_some_iff {j : Json} {q : ℚ} :
    valueOf j = some q ↔ decimal j = .ok (.finite q) := by
  unfold valueOf
  split
  · next q' h => rw [h, Option.some.injEq, Except.ok.injEq,
      Decimal.finite.injEq]
  · next h =>
      constructor
      · rintro ⟨⟩
      · exact fun hq => absurd hq (h q)

/-- A numeral spells no special value. -/
theorem specialValue_of_numeral {negative : Bool} {cs : List Char} {q : ℚ}
    (h : parseUnsigned cs = some q) :
    specialValue negative (cs.map Char.toLower) = none := by
  obtain ⟨c, rest, rfl, hc⟩ := head_of_parseUnsigned h
  have hne : ∀ d : Char, d.isDigit = false → d ≠ '.' → c ≠ d := by
    rintro d hdigit hpoint rfl
    rcases hc with hc | hc
    · rw [hdigit] at hc
      cases hc
    · exact hpoint hc
  have hi : c ≠ 'i' := hne 'i' (by decide) (by decide)
  have hn : c ≠ 'n' := hne 'n' (by decide) (by decide)
  have hs : c ≠ 's' := hne 's' (by decide) (by decide)
  rw [specialValue, List.map_cons, toLower_of_head hc]
  simp [hi, hn, hs]

/-- A text that the warehouse can cast and that `Decimal()` does not raise
on is a number for the book, and the cast rounds that number. -/
theorem castNumeric_ok {text : String} {r : ℚ}
    (hd : (decimal (.str text)).isOk) (hr : castNumeric text = some r) :
    ∃ q, decimal (.str text) = .ok (.finite q) ∧ r = roundAway 9 q := by
  obtain ⟨v, hv, hn⟩ := Option.bind_eq_some_iff.mp hr
  have hfilter : (strip text.toList).filter (fun c => c ≠ '_')
      = strip text.toList :=
    List.filter_eq_self.mpr fun c hc => decide_eq_true fun h =>
      notMem_of_parse hv (h ▸ hc)
  obtain ⟨u, hu, rfl⟩ := Option.map_eq_some_iff.mp hv
  have hspelled := hu
  rw [parseUnsigned_eq] at hspelled
  obtain ⟨x, hx, rfl⟩ := Option.map_eq_some_iff.mp hspelled
  refine ⟨_, ?_, numeric_eq_some hn⟩
  change (decimalOfChars text.toList).isOk = true at hd
  show decimalOfChars text.toList = .ok (.finite _)
  unfold decimalOfChars at hd ⊢
  simp only [hfilter, specialValue_of_numeral hu, hx] at hd ⊢
  split at hd
  · next hholds => rw [if_pos hholds]
  · cases hd

-- ================================================================= events

/-- The event of a staged row. -/
def bookEventOf (e : StgL2Event) : BookEvent where
  productId := e.productId
  side := e.side
  price := e.price
  size := e.size
  eventType := e.eventType
  stateTime := e.ingestTime
  eventTime := e.eventTime
  changeIndex := e.changeIndex
  eventMinute := truncate minute e.ingestTime

/-- The CTE `events` works row by row. -/
theorem bookEvents_eq (es : List StgL2Event) :
    bookEvents es = es.map bookEventOf := rfl

/-- The event with its numbers cast to `NUMERIC`. -/
def BookEvent.asNumeric (e : BookEvent) : BookEvent :=
  { e with
    price := e.price.map (roundAway 9)
    size := e.size.map (roundAway 9) }

/-- The event has a price and a size. -/
structure BookEvent.Valued (e : BookEvent) : Prop where
  price : ∃ q, e.price = some q
  size : ∃ s, e.size = some s

/-- A text, or null. -/
def textOf : Json → Option String
  | .str s => some s
  | _ => none

/-- The event of a level of a published record, with the values the book
reads. -/
def eventOf (m : L2Event) (side : Option String) (price size : Json)
    (i : Nat) : BookEvent where
  productId := m.productId
  side := side
  price := valueOf price
  size := valueOf size
  eventType := m.eventType
  stateTime := m.ingestTime.instant.getD 0
  eventTime := m.eventTime.instant.getD 0
  changeIndex := i
  eventMinute := truncate minute (m.ingestTime.instant.getD 0)

/-- The events of the bids of a snapshot. -/
def bidEvents (s : Snapshot) : List BookEvent :=
  s.bids.map fun x => eventOf s.event (some Side.buy.name) x.1 x.2 0

/-- The events of its asks. -/
def askEvents (s : Snapshot) : List BookEvent :=
  s.asks.map fun x => eventOf s.event (some Side.sell.name) x.1 x.2 0

/-- The events of a snapshot. -/
def snapshotEvents (s : Snapshot) : List BookEvent :=
  bidEvents s ++ askEvents s

/-- The events of an l2update. -/
def updateEvents (u : Update) : List BookEvent :=
  u.changes.zipIdx.map fun c =>
    eventOf u.event (textOf c.1.1) c.1.2.1 c.1.2.2 c.2

/-- The events of an l2 message. -/
def messageEvents : L2Message → List BookEvent
  | .snapshot s => snapshotEvents s
  | .update u => updateEvents u

variable {m : L2Event} {pt : Option Int}

/-- A level that is staged is staged to its event, cast. -/
theorem staged_level {side : Option String} {price size : Json} {i : Nat}
    {e : StgL2Event} (hprice : isStr price = true) (hsize : isStr size = true)
    (hread : writable price size = true)
    (h : l2Level (RawL2.ofMessage m pt) side (textOf price) (textOf size) i
      = some e) :
    bookEventOf e = (eventOf m side price size i).asNumeric
      ∧ (eventOf m side price size i).Valued := by
  obtain ⟨a, rfl⟩ := isStr_iff.mp hprice
  obtain ⟨b, rfl⟩ := isStr_iff.mp hsize
  obtain ⟨p, s, hp, hs, -⟩ := writable_iff.mp hread
  simp only [l2Level, textOf, castNullable, RawL2.ofMessage,
    Option.bind_eq_bind, Option.bind_eq_some_iff, Option.pure_def,
    Option.some.injEq, Option.map_eq_some_iff] at h
  obtain ⟨_, ⟨q', hq', rfl⟩, _, ⟨s', hs', rfl⟩, t, ht, u, hu, rfl⟩ := h
  obtain ⟨q, hq, rfl⟩ := castNumeric_ok (by rw [hp]; rfl) hq'
  obtain ⟨s, hs, rfl⟩ := castNumeric_ok (by rw [hs]; rfl) hs'
  have hq := valueOf_eq_some_iff.mpr hq
  have hs := valueOf_eq_some_iff.mpr hs
  refine ⟨?_, ⟨q, hq⟩, ⟨s, hs⟩⟩
  simp only [bookEventOf, eventOf, BookEvent.asNumeric, hq, hs, ht, hu,
    Option.getD_some, Option.map_some]

/-- A text of a JSON array is read as it is. -/
theorem jsonValue_of_str {xs : List Json} {i : Nat} {j : Json}
    (h : xs[i]? = some j) (hj : isStr j = true) :
    jsonValue (.arr xs) i = textOf j := by
  obtain ⟨s, rfl⟩ := isStr_iff.mp hj
  rw [jsonValue, h]
  rfl

-- =============================================================== payloads

/-- The payload of a snapshot holds its levels. -/
theorem queryArray_snapshotPayload {bids asks : List (Json × Json)}
    (hbids : fedLevels bids = true) (hasks : fedLevels asks = true) :
    queryArray (snapshotPayload bids asks) "bids"
        = bids.map (fun x => .arr [x.1, x.2])
      ∧ queryArray (snapshotPayload bids asks) "asks"
        = asks.map fun x => .arr [x.1, x.2] := by
  have htext : Json.Textual (.obj [("bids", pairsJson bids),
      ("asks", pairsJson asks)]) = true := by
    simp only [Json.Textual, Json.TextualMembers, textual_pairs hbids,
      textual_pairs hasks, Bool.and_true]
  constructor
  · rw [queryArray, snapshotPayload, Json.loads_dumps htext]
    rfl
  · rw [queryArray, snapshotPayload, Json.loads_dumps htext]
    rfl

/-- The payload of an l2update holds its changes. -/
theorem queryArray_updatePayload {xs : List (Json × Json × Json)}
    (h : fedChanges xs = true) :
    queryArray (updatePayload xs) "changes"
      = xs.map fun x => .arr [x.1, x.2.1, x.2.2] := by
  have htext : Json.Textual (.obj [("changes", triplesJson xs)])
      = true := by
    simp only [Json.Textual, Json.TextualMembers, textual_triples h,
      Bool.and_true]
  rw [queryArray, updatePayload, Json.loads_dumps htext]
  rfl

/-- What a query that stages rows one by one says about each. -/
theorem staged_rows {β : Type} {f : β → Option StgL2Event}
    {ev : β → BookEvent} {xs : List β} {out : List StgL2Event}
    (hout : xs.mapM f = some out)
    (heach : ∀ x ∈ xs, ∀ e, f x = some e →
      bookEventOf e = (ev x).asNumeric ∧ (ev x).Valued) :
    bookEvents out = (xs.map ev).map BookEvent.asNumeric
      ∧ ∀ e ∈ xs.map ev, e.Valued := by
  constructor
  · rw [bookEvents_eq, List.map_map]
    refine map_of_mapM (a := id) (by rwa [List.map_id]) ?_
    exact fun x hx e he => (heach x hx e he).1
  · rw [List.forall_mem_map]
    intro x hx
    obtain ⟨e, he⟩ := Option.isSome_iff_exists.mp
      ((mapM_eq_some_iff.mp hout).1 x hx)
    exact (heach x hx e he).2

/-- One branch of a snapshot's levels. -/
theorem staged_side {side key : String} {xs : List (Json × Json)}
    {out : List StgL2Event} (htype : m.eventType = "snapshot")
    (hpayload : queryArray m.payload key = xs.map fun x => .arr [x.1, x.2])
    (hxs : fedLevels xs = true)
    (h : snapshotLevels side key (RawL2.ofMessage m pt) = some out) :
    bookEvents out = (xs.map fun x => eventOf m (some side) x.1 x.2 0).map
        BookEvent.asNumeric
      ∧ ∀ e ∈ xs.map fun x => eventOf m (some side) x.1 x.2 0,
          e.Valued := by
  have htype' : (RawL2.ofMessage m pt).eventType = "snapshot" := htype
  have hpayload' : queryArray (RawL2.ofMessage m pt).payload key
      = xs.map fun x => .arr [x.1, x.2] := hpayload
  rw [snapshotLevels, if_pos htype', hpayload', List.mapM_map] at h
  refine staged_rows h fun x hx e he => ?_
  have hstr := List.all_eq_true.mp hxs x hx
  simp only [Bool.and_eq_true] at hstr
  rw [Function.comp_apply, jsonValue_of_str rfl hstr.1.1,
    jsonValue_of_str rfl hstr.1.2] at he
  exact staged_level hstr.1.1 hstr.1.2 hstr.2 he

/-- A snapshot that is staged is staged to its events, cast. Both sides
of its payload are read back as they were written, and it has no
changes. -/
theorem staged_snapshot {s : Snapshot} {ls : List StgL2Event}
    (htype : s.event.eventType = "snapshot")
    (hpayload : s.event.payload = snapshotPayload s.bids s.asks)
    (hbids : fedLevels s.bids = true) (hasks : fedLevels s.asks = true)
    (h : stgL2Row (RawL2.ofMessage s.event pt) = some ls) :
    bookEvents ls = (snapshotEvents s).map BookEvent.asNumeric
      ∧ ∀ e ∈ snapshotEvents s, e.Valued := by
  obtain ⟨hqb, hqa⟩ := queryArray_snapshotPayload hbids hasks
  rw [← hpayload] at hqb hqa
  simp only [stgL2Row, Option.bind_eq_bind, Option.bind_eq_some_iff,
    Option.pure_def, Option.some.injEq] at h
  obtain ⟨changes, hchanges, bids, hb, asks, ha, rfl⟩ := h
  have hnil : changes = [] := by
    have hne : ¬ (RawL2.ofMessage s.event pt).eventType = "l2update" := by
      show ¬ s.event.eventType = "l2update"
      rw [htype]
      decide
    rw [flattened, if_neg hne] at hchanges
    exact (Option.some.inj hchanges).symm
  obtain ⟨hbids', hbv⟩ := staged_side htype hqb hbids hb
  obtain ⟨hasks', hav⟩ := staged_side htype hqa hasks ha
  constructor
  · rw [bookEvents_eq] at hbids' hasks'
    rw [bookEvents_eq, hnil, List.nil_append, List.map_append, hbids',
      hasks', snapshotEvents, List.map_append]
    rfl
  · exact List.forall_mem_append.mpr ⟨hbv, hav⟩

/-- An l2update that is staged is staged to its events, cast. Its
changes are read back with their numbers in the array, which order them
among themselves. -/
theorem staged_update {u : Update} {ls : List StgL2Event}
    (htype : u.event.eventType = "l2update")
    (hpayload : u.event.payload = updatePayload u.changes)
    (hchanges : fedChanges u.changes = true)
    (h : stgL2Row (RawL2.ofMessage u.event pt) = some ls) :
    bookEvents ls = (updateEvents u).map BookEvent.asNumeric
      ∧ ∀ e ∈ updateEvents u, e.Valued := by
  have hq := queryArray_updatePayload hchanges
  rw [← hpayload] at hq
  simp only [stgL2Row, Option.bind_eq_bind, Option.bind_eq_some_iff,
    Option.pure_def, Option.some.injEq] at h
  obtain ⟨changes, hc, bids, hb, asks, ha, rfl⟩ := h
  have hne : ¬ (RawL2.ofMessage u.event pt).eventType = "snapshot" := by
    show ¬ u.event.eventType = "snapshot"
    rw [htype]
    decide
  have hnil : bids = [] ∧ asks = [] := by
    rw [snapshotLevels, if_neg hne] at hb ha
    exact ⟨(Option.some.inj hb).symm, (Option.some.inj ha).symm⟩
  have htype' : (RawL2.ofMessage u.event pt).eventType = "l2update" := htype
  have hq' : queryArray (RawL2.ofMessage u.event pt).payload "changes"
      = u.changes.map fun x => .arr [x.1, x.2.1, x.2.2] := hq
  rw [flattened, if_pos htype', hq', List.zipIdx_map, List.mapM_map] at hc
  rw [hnil.1, hnil.2, List.append_nil, List.append_nil]
  refine staged_rows hc fun c hmem e he => ?_
  have hx : c.1 ∈ u.changes := List.mem_of_getElem?
    (List.mk_mem_zipIdx_iff_getElem?.mp hmem)
  have hstr := List.all_eq_true.mp hchanges _ hx
  simp only [Bool.and_eq_true] at hstr
  obtain ⟨⟨⟨⟨hside, hprice⟩, hsize⟩, -⟩, hread⟩ := hstr
  have he' : l2Level (RawL2.ofMessage u.event pt)
      (jsonValue (.arr [c.1.1, c.1.2.1, c.1.2.2]) 0)
      (jsonValue (.arr [c.1.1, c.1.2.1, c.1.2.2]) 1)
      (jsonValue (.arr [c.1.1, c.1.2.1, c.1.2.2]) 2) c.2 = some e := he
  rw [jsonValue_of_str rfl hside, jsonValue_of_str rfl hprice,
    jsonValue_of_str rfl hsize] at he'
  exact staged_level hprice hsize hread he'

/-- A message that is staged is staged to its events, cast, and each of
them has a price and a size. By the two kinds of message; each goes
through its payload, level by level (`staged_level`). -/
theorem staged_message {c : Call} {m : L2Message} {ls : List StgL2Event}
    (hread : readMessage c = some m) (hfed : m.Fed = true)
    (h : stgL2Row (RawL2.ofMessage m.event pt) = some ls) :
    bookEvents ls = (messageEvents m).map BookEvent.asNumeric
      ∧ ∀ e ∈ messageEvents m, e.Valued := by
  obtain ⟨msg, t, rfl, ⟨s, rfl, -, hof⟩ | ⟨u, rfl, -, hof⟩⟩ :=
    of_readMessage hread
  · obtain ⟨htype, hpayload⟩ := snapshotOf_ok hof
    obtain ⟨hbids, hasks⟩ := Bool.and_eq_true_iff.mp hfed
    exact staged_snapshot htype hpayload hbids hasks h
  · obtain ⟨htype, hpayload⟩ := updateOf_ok hof
    exact staged_update htype hpayload hfed h

end MarketPlatform.Warehouse
