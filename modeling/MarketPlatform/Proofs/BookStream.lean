/-
The l2 stream of a product, as the book and the warehouse see it.

# One list of level events

A message of the stream is one list of level events, in order
(`messageEvents`). The book reads them as entries of its log
(`messageEntries`), which a snapshot starts anew (`logOf`); where the
numbers are finite, the events say, one by one, what the entries say
(`said_message`). A message as the feed sends it is applied to any book
whose keys can be compared, so that a list of such messages takes the
book to the one of their log (`logged_replay`).

# A bag of rows

The staging view shows the same events, cast, as a bag of rows
(`staged_iff`): a raw row for each record at least once, in any order,
all inside the lookback (`Landed`). Rows of other products may be there
too; nothing about this product depends on them (`unpruned_congr`,
`levelsSettled_congr`).
-/
import MarketPlatform.Proofs.BookAgreement
import MarketPlatform.Proofs.BookEvents

namespace MarketPlatform.Warehouse

open Lib EStateM Lib.Rfc3339 Lib.Relation
open Consumer Consumer.MessageHandler Consumer.OrderBook

-- ================================================================ entries

/-- The entries of a message. -/
def messageEntries : L2Message → List Entry
  | .snapshot s => snapshotEntries s.bids s.asks
  | .update u => u.changes.filterMap changeEntry

/-- An event says what an entry says. -/
structure Says (e : BookEvent) (x : Entry) : Prop where
  level : e.level = (some x.side.name, some x.price)
  size : e.size = some x.size

/-- The level of an entry, as the warehouse writes it. -/
def levelOf (x : Entry) : Option String × Option ℚ :=
  (some x.side.name, some x.price)

/-- The level of an entry tells its side and price. -/
theorem levelOf_inj {x y : Entry} (h : levelOf x = levelOf y) :
    x.level = y.level := by
  simp only [levelOf, Prod.mk.injEq, Option.some.injEq] at h
  exact Prod.ext (Side.name_inj h.1) h.2

/-- Events that say what entries say are about the same levels. -/
theorem map_level {es : List BookEvent} {xs : List Entry}
    (h : List.Forall₂ Says es xs) :
    es.map BookEvent.level = xs.map levelOf := by
  induction h with
  | nil => rfl
  | cons hx _ ih => rw [List.map_cons, List.map_cons, hx.level, ih]; rfl

/-- An event with a price and a size has an entry that it says. -/
theorem entryOf_of_valued {m : L2Event} {side : Side} {price size : Json}
    {i : Nat} (h : (eventOf m (some side.name) price size i).Valued) :
    ∃ x, entryOf side price size = some x
      ∧ Says (eventOf m (some side.name) price size i) x := by
  obtain ⟨q, hq⟩ := h.price
  obtain ⟨s, hs⟩ := h.size
  refine ⟨⟨side, q, s⟩, entryOf_eq_some_iff.mpr ⟨?_, ?_, rfl⟩, ?_, hs⟩
  · exact valueOf_eq_some_iff.mp hq
  · exact valueOf_eq_some_iff.mp hs
  · exact Prod.ext rfl hq

/-- A side that can be read is a text, and its name. -/
theorem textOf_of_side {raw : Json} {side : Side}
    (h : Side.ofRaw raw = .ok side) : textOf raw = some side.name := by
  cases raw with
  | str s =>
      simp only [Side.ofRaw] at h
      split at h
      · next hbuy =>
          obtain rfl := Except.ok.inj h
          exact congrArg some hbuy
      · split at h
        · next hsell =>
            obtain rfl := Except.ok.inj h
            exact congrArg some hsell
        · cases h
  | _ => cases h

/-- Rows computed one by one, all of which are there. -/
theorem forall₂_filterMap {α β γ : Type} {f : α → Option β} {g : α → γ}
    {R : γ → β → Prop} {xs : List α}
    (h : ∀ x ∈ xs, ∃ b, f x = some b ∧ R (g x) b) :
    List.Forall₂ R (xs.map g) (xs.filterMap f) := by
  induction xs with
  | nil => exact .nil
  | cons x xs ih =>
      obtain ⟨hx, hxs⟩ := List.forall_mem_cons.mp h
      obtain ⟨b, hb, hr⟩ := hx
      rw [List.map_cons, List.filterMap_cons, hb]
      exact .cons hr (ih hxs)

/-- Each element has its partner. -/
theorem exists_related {α β : Type} {R : α → β → Prop} {xs : List α}
    {ys : List β} (h : List.Forall₂ R xs ys) {x : α} (hx : x ∈ xs) :
    ∃ y ∈ ys, R x y := by
  induction h with
  | nil => cases hx
  | cons hr _ ih =>
      rcases List.mem_cons.mp hx with rfl | hx
      · exact ⟨_, List.mem_cons_self, hr⟩
      · obtain ⟨y, hy, hxy⟩ := ih hx
        exact ⟨y, List.mem_cons_of_mem _ hy, hxy⟩

/-- The levels of a message can be read. -/
def Readable : L2Message → Prop
  | .snapshot s => (∀ x ∈ s.bids, (entryOf .buy x.1 x.2).isSome)
      ∧ ∀ x ∈ s.asks, (entryOf .sell x.1 x.2).isSome
  | .update u => ∀ x ∈ u.changes, (changeEntry x).isSome

/-- One side of a snapshot. -/
theorem said_side {m : L2Event} {side : Side} {xs : List (Json × Json)}
    (h : ∀ e ∈ xs.map fun x => eventOf m (some side.name) x.1 x.2 0,
      e.Valued) :
    (∀ x ∈ xs, (entryOf side x.1 x.2).isSome)
      ∧ List.Forall₂ Says
          (xs.map fun x => eventOf m (some side.name) x.1 x.2 0)
          (xs.filterMap fun x => entryOf side x.1 x.2) := by
  have heach : ∀ x ∈ xs, ∃ b, entryOf side x.1 x.2 = some b
      ∧ Says (eventOf m (some side.name) x.1 x.2 0) b :=
    fun x hx => entryOf_of_valued (h _ (List.mem_map_of_mem hx))
  refine ⟨fun x hx => ?_, forall₂_filterMap heach⟩
  obtain ⟨b, hb, -⟩ := heach x hx
  rw [hb]
  rfl

/-- The events of a message with finite numbers say what its entries
say. For a change the side has to be read first; the feed's sides are
the two that the consumer knows. -/
theorem said_message {m : L2Message} (hfed : m.Fed = true)
    (h : ∀ e ∈ messageEvents m, e.Valued) :
    Readable m ∧ List.Forall₂ Says (messageEvents m) (messageEntries m) := by
  cases m with
  | snapshot s =>
      obtain ⟨hbids, hasks⟩ := List.forall_mem_append.mp h
      obtain ⟨hb, hsb⟩ := said_side hbids
      obtain ⟨ha, hsa⟩ := said_side hasks
      exact ⟨⟨hb, ha⟩, List.rel_append hsb hsa⟩
  | update u =>
      have heach : ∀ c ∈ u.changes.zipIdx, ∃ x, changeEntry c.1 = some x
          ∧ Says (eventOf u.event (textOf c.1.1) c.1.2.1 c.1.2.2 c.2) x := by
        intro c hc
        have hmem : c.1 ∈ u.changes := List.mem_of_getElem?
          (List.mk_mem_zipIdx_iff_getElem?.mp hc)
        have hx := List.all_eq_true.mp hfed _ hmem
        simp only [Bool.and_eq_true] at hx
        cases hside : Side.ofRaw c.1.1 with
        | error e => rw [hside] at hx; simp [Except.isOk, Except.toBool] at hx
        | ok side =>
            have hvalued := h _ (List.mem_map_of_mem hc)
            rw [textOf_of_side hside] at hvalued ⊢
            rw [changeEntry, hside]
            exact entryOf_of_valued hvalued
      constructor
      · intro x hx
        obtain ⟨i, hi, rfl⟩ := List.mem_iff_getElem.mp hx
        have hc : (u.changes[i], i) ∈ u.changes.zipIdx :=
          List.mk_mem_zipIdx_iff_getElem?.mpr (List.getElem?_eq_getElem hi)
        obtain ⟨x, hx, -⟩ := heach _ hc
        rw [hx]
        rfl
      · have hall := forall₂_filterMap heach
        have hentries : u.changes.zipIdx.filterMap (fun c => changeEntry c.1)
            = u.changes.filterMap changeEntry := by
          conv_rhs => rw [← List.zipIdx_map_fst 0 u.changes]
          rw [List.filterMap_map]
          rfl
        rw [hentries] at hall
        exact hall

-- ================================================================ the log

/-- The log after a message; there is none before the first snapshot. -/
def logAfter (log : Option (List Entry)) (m : L2Message) :
    Option (List Entry) :=
  match m with
  | .snapshot _ => some (messageEntries m)
  | .update _ => log.map fun l => l ++ messageEntries m

/-- The log of messages. -/
def logOf (ms : List L2Message) : Option (List Entry) :=
  ms.foldl logAfter none

/-- A message takes the book of a log to the book of the log after
it. -/
theorem logged_apply {log : Option (List Entry)} {b b' : OrderBook}
    {m : L2Message} (h : Logged log b) (hm : Readable m)
    (hrun : m.apply.run b = .ok () b') : Logged (logAfter log m) b' := by
  cases m with
  | snapshot s => exact mirrors_applySnapshot hm.1 hm.2 hrun
  | update u =>
      cases log with
      | some l => exact mirrors_applyUpdates hm h.1 h.2 hrun
      | none =>
          have hidle : (applyUpdates u.changes).run b = .ok () b' := hrun
          rw [run_applyUpdates_idle h.2] at hidle
          cases hidle
          exact h

/-- A message as the feed sends it is applied to any comparable book. -/
theorem run_apply {m : L2Message} {b : OrderBook} (hfed : m.Fed = true)
    (hb : b.Comparable) :
    ∃ b', m.apply.run b = .ok () b' ∧ b'.Comparable := by
  cases m with
  | snapshot s =>
      obtain ⟨hbids, hasks⟩ := Bool.and_eq_true_iff.mp hfed
      have hwritable : ∀ {xs}, fedLevels xs = true →
          ∀ x ∈ xs, writable x.1 x.2 = true := by
        intro xs hxs x hx
        have h := List.all_eq_true.mp hxs x hx
        exact (Bool.and_eq_true_iff.mp h).2
      obtain ⟨b', hrun, hcomp, -⟩ :=
        run_applySnapshot (hwritable hbids) (hwritable hasks) b
      exact ⟨b', hrun, hcomp⟩
  | update u =>
      have hwritable : ∀ x ∈ u.changes,
          (Side.ofRaw x.1).isOk ∧ writable x.2.1 x.2.2 = true := by
        intro x hx
        have h := List.all_eq_true.mp hfed x hx
        simp only [Bool.and_eq_true] at h
        exact ⟨h.1.2, h.2⟩
      obtain ⟨b', hrun, hcomp, -⟩ := hb.run_applyUpdates hwritable
      exact ⟨b', hrun, hcomp⟩

/-- A message that was read from the feed, and whose numbers are
finite. -/
structure Sound (m : L2Message) : Prop where
  read : ∃ c, readMessage c = some m
  fed : m.Fed = true
  valued : ∀ e ∈ messageEvents m, e.Valued

/-- The levels of such a message can be read. -/
theorem Sound.readable {m : L2Message} (hm : Sound m) : Readable m :=
  (said_message hm.fed hm.valued).1

/-- The book that published messages are replayed to: the one of their
log. By induction on the messages; each is applied without a raise
(`run_apply`). -/
theorem logged_replay {ms : List L2Message} (hms : ∀ m ∈ ms, Sound m)
    {log : Option (List Entry)} {b : OrderBook} (hb : b.Comparable)
    (hlog : Logged log b) :
    ∃ b', (replay (ms.map L2Message.event)).run b = .ok () b'
      ∧ Logged (ms.foldl logAfter log) b' := by
  induction ms generalizing log b with
  | nil => exact ⟨b, rfl, hlog⟩
  | cons m ms ih =>
      obtain ⟨hm, hms⟩ := List.forall_mem_cons.mp hms
      obtain ⟨b₁, hrun₁, hb₁⟩ := run_apply hm.fed hb
      obtain ⟨b', hrun, hlog'⟩ :=
        ih hms hb₁ (logged_apply hlog hm.readable hrun₁)
      refine ⟨b', ?_, hlog'⟩
      obtain ⟨c, hc⟩ := hm.read
      show (replayEvent m.event >>= fun _ =>
        replay (ms.map L2Message.event)).run b = _
      rw [replayEvent_of_read hc hm.fed, run_bind, hrun₁]
      exact hrun

-- ============================================================ the raw rows

/-- A row of the raw table for a published record. -/
def RawL2.Copies (r : RawL2) (m : L2Event) : Prop :=
  ∃ publishTime, r.message = RawL2.ofMessage m publishTime

/-- A copy of a record is staged to the events of its message. -/
theorem staged_copy {r : RawL2} {m : L2Message} {ls : List StgL2Event}
    (hr : r.Copies m.event) (hread : ∃ c, readMessage c = some m)
    (hfed : m.Fed = true) (h : stgL2Row r = some ls) :
    bookEvents ls = (messageEvents m).map BookEvent.asNumeric
      ∧ ∀ e ∈ messageEvents m, e.Valued := by
  obtain ⟨c, hc⟩ := hread
  obtain ⟨publishTime, hr⟩ := hr
  rw [← stgL2Row_message, hr] at h
  exact staged_message hc hfed h

/-- The rows of a product: a row for every record published under its
key, perhaps several, and no others; all of them inside the lookback. -/
structure Landed (vars : Vars) (now : Int) (p : String)
    (published : List L2Event) (rows : List RawL2) : Prop where
  copies : ∀ r ∈ rows, r.productId = p → ∃ m ∈ published, r.Copies m
  kept : ∀ m ∈ published, ∃ r ∈ rows, r.Copies m
  inside : ∀ r ∈ rows, r.productId = p →
    rawPartitionFilter vars now r.partitionTime = true

/-- The rows of messages, as the warehouse reads their numbers. -/
def recorded (ms : List L2Message) : List BookEvent :=
  (ms.flatMap messageEvents).map BookEvent.asNumeric

variable {vars : Vars} {now : Int} {p : String} {rows : List RawL2}
  {es : List StgL2Event} {ms : List L2Message}

/-- The events of a message are of its product. -/
theorem productId_of_mem {m : L2Message} {e : BookEvent}
    (he : e ∈ messageEvents m) : e.productId = m.event.productId := by
  cases m with
  | snapshot s =>
      rcases List.mem_append.mp he with he | he
      · obtain ⟨x, -, rfl⟩ := List.mem_map.mp he
        rfl
      · obtain ⟨x, -, rfl⟩ := List.mem_map.mp he
        rfl
  | update u =>
      obtain ⟨x, -, rfl⟩ := List.mem_map.mp he
      rfl

/-- The messages of a product, as its calls read them. -/
theorem of_messagesIn {cs : List Call} {m : L2Message}
    (hm : m ∈ messagesIn p cs) :
    (∃ c ∈ cs, readMessage c = some m) ∧ m.event.productId = p := by
  obtain ⟨c, hc, hm⟩ := List.mem_filterMap.mp hm
  obtain ⟨hread, hp⟩ := messageIn_eq_some_iff.mp hm
  exact ⟨⟨c, hc, hread⟩, hp⟩

/-- What the staging view shows of a product is what its messages
record: each row is a copy of a record and shows its events, and each
record has a row. -/
theorem staged_iff (hms : ∀ m ∈ ms, ∃ c, readMessage c = some m)
    (hprod : ∀ m ∈ ms, m.event.productId = p)
    (hfed : ∀ m ∈ ms, m.Fed = true)
    (hrows : Landed vars now p (ms.map L2Message.event) rows)
    (hes : stgL2Events vars now rows = some es) :
    (∀ m ∈ ms, Sound m)
      ∧ ∀ e, e ∈ bookEvents es ∧ e.productId = p ↔ e ∈ recorded ms := by
  have hstaged : ∀ r ∈ rows, ∀ m ∈ ms, r.Copies m.event →
      rawPartitionFilter vars now r.partitionTime = true →
      ∃ ls, stgL2Row r = some ls
        ∧ bookEvents ls = (messageEvents m).map BookEvent.asNumeric
        ∧ ∀ e ∈ messageEvents m, e.Valued := by
    intro r hr m hm hcopy hwindow
    obtain ⟨ls, hls⟩ := stgL2Row_of_stgL2Events hes hr hwindow
    exact ⟨ls, hls, staged_copy hcopy (hms m hm) (hfed m hm) hls⟩
  have hcopied : ∀ m ∈ ms, ∃ r ∈ rows, r.Copies m.event
      ∧ rawPartitionFilter vars now r.partitionTime = true := by
    intro m hm
    obtain ⟨r, hr, hcopy⟩ := hrows.kept m.event (List.mem_map_of_mem hm)
    refine ⟨r, hr, hcopy, hrows.inside r hr ?_⟩
    obtain ⟨publishTime, hmsg⟩ := hcopy
    exact (congrArg RawL2.productId hmsg).trans (hprod m hm)
  refine ⟨fun m hm => ?_, fun e => ?_⟩
  · obtain ⟨r, hr, hcopy, hwindow⟩ := hcopied m hm
    obtain ⟨ls, -, -, hvalued⟩ := hstaged r hr m hm hcopy hwindow
    exact ⟨hms m hm, hfed m hm, hvalued⟩
  · rw [bookEvents_eq, recorded, List.map_flatMap, List.mem_flatMap]
    constructor
    · intro h
      obtain ⟨he, hp⟩ := h
      obtain ⟨se, hse, rfl⟩ := List.mem_map.mp he
      obtain ⟨r, hr, hwindow, ls, hls, hmem⟩ := (mem_stgL2Events hes).mp hse
      have hrp : r.productId = p := (of_mem_row hls hmem).1.symm.trans hp
      obtain ⟨x, hx, hcopy⟩ := hrows.copies r hr hrp
      obtain ⟨m, hm, rfl⟩ := List.mem_map.mp hx
      obtain ⟨ls', hls', hevents, -⟩ := hstaged r hr m hm hcopy hwindow
      obtain rfl := Option.some.inj (hls.symm.trans hls')
      refine ⟨m, hm, ?_⟩
      rw [← hevents, bookEvents_eq]
      exact List.mem_map_of_mem hmem
    · intro h
      obtain ⟨m, hm, he⟩ := h
      obtain ⟨r, hr, hcopy, hwindow⟩ := hcopied m hm
      obtain ⟨ls, hls, hevents, -⟩ := hstaged r hr m hm hcopy hwindow
      obtain ⟨x, hx, hxe⟩ := List.mem_map.mp he
      have hp : e.productId = p := by
        rw [← hxe]
        exact (productId_of_mem hx).trans (hprod m hm)
      refine ⟨?_, hp⟩
      rw [← hevents, bookEvents_eq] at he
      obtain ⟨se, hse, rfl⟩ := List.mem_map.mp he
      exact List.mem_map_of_mem
        ((mem_stgL2Events hes).mpr ⟨r, hr, hwindow, ls, hls, hse⟩)

-- ===================================================== what depends on rows

section Congr

variable {bs bs' : List BookEvent} {log : List Entry} {g : String × Int}
  {mid : ℚ}

/-- The rows since the latest snapshot, of a product that has a mid. -/
theorem mem_unpruned {e : BookEvent} :
    e ∈ unpruned bs ↔ e ∈ bs ∧ ∃ t ∈ latestSnapshot bs e.productId,
      ∃ mid ∈ referenceMid bs e.productId, t ≤ e.stateTime := by
  rw [unpruned, List.mem_filter, sinceSnapshot]
  refine and_congr_right fun _ => ?_
  cases latestSnapshot bs e.productId with
  | none => simp
  | some t =>
      cases referenceMid bs e.productId with
      | none => simp
      | some mid => simp

/-- They depend on which events of the product there are. -/
theorem unpruned_congr (h : SameRows p bs bs') :
    SameRows p (unpruned bs) (unpruned bs') := by
  rintro e rfl
  rw [mem_unpruned, mem_unpruned, h e rfl, latestSnapshot_congr h,
    referenceMid_congr h]

/-- And so does whether the levels are settled. -/
theorem levelsSettled_congr (h : SameRows g.1 bs bs') :
    LevelsSettled bs log g mid ↔ LevelsSettled bs' log g mid := by
  have hmem : ∀ k e, e ∈ mentions bs g k ↔ e ∈ mentions bs' g k := by
    intro k e
    rw [mem_mentions, mem_mentions]
    constructor
    · intro hx
      obtain ⟨he, hp, hrest⟩ := hx
      exact ⟨(h e hp).mp he, hp, hrest⟩
    · intro hx
      obtain ⟨he, hp, hrest⟩ := hx
      exact ⟨(h e hp).mpr he, hp, hrest⟩
  have hnil : ∀ k, mentions bs g k = [] ↔ mentions bs' g k = [] := by
    intro k
    rw [List.eq_nil_iff_forall_not_mem, List.eq_nil_iff_forall_not_mem]
    simp only [hmem k]
  have hties : ∀ k e, e ∈ greatest BookEvent.stamp (mentions bs g k)
      ↔ e ∈ greatest BookEvent.stamp (mentions bs' g k) := by
    intro k e
    rw [mem_greatest, mem_greatest]
    simp only [hmem k]
  simp only [LevelsSettled, hnil, hties]

end Congr

end MarketPlatform.Warehouse
