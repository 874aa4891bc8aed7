/-
Exact loss accounting.

The consumer counts the trades it did not receive. It has two detectors,
and both add to `messages_lost_total`. A match whose id is more than one
past the product's last id counts the ids in between, `value - last -
1`; a heartbeat whose `last_trade_id` is past it counts those up to and
with its own, `last_trade_id - last`. A match that does not exceed the
last id counts as a duplicate, also when it fills a gap that was counted
before.

# Epochs

Calls on the handler fall into epochs, each ended by an `on_disconnect`,
which forgets the last ids. So every epoch has a first match for each of
its products, which counts nothing. An epoch keeps its messages with the
handler each of them found (`Arrived`), since what a match counts
depends on the last id on its arrival.

# One message

Inside an epoch the tracker's baseline of a product is a high-water mark
(`Watermark.Reached`): matches arrive at it and heartbeats announce it.
`Effect` is everything a message that does not raise can do to the
baselines, to the two totals and to the published trades, in four cases;
no later proof unfolds the handler. In each of them the totals move by
what one product's mark moves.

# Accounts

The account of a product in an epoch is the distance from its first
match to its last id, less the number of later matches that advanced it.
`Epoch.Accounted` says that the totals have moved by the sum of the
accounts over the epoch's products, and that the published ids are those
of the matches. `Accounted.extend` keeps it over a message: one
product's account moves by what the total moves, and the sum over the
others stays (`sum_lost_extend`).

The account is never less than the number of ids that were not published
(`CoversLoss`). It can be more: a match that arrives late is counted as
lost before, and is published all the same.
-/
import MarketPlatform.Lib.Watermark
import MarketPlatform.Proofs.Handling

namespace MarketPlatform.Consumer

open Lib EStateM Watermark MessageHandler

-- =============================================================== one step

namespace MessageHandler

/-- The product and trade id of a match; nothing for other messages. -/
def matchOf (msg : Json) : Option (String × Int) :=
  if typeOf msg = .match_ then
    match item msg "product_id" >>= asKey, item msg "trade_id" >>= pyInt with
    | .ok p, .ok v => some (p, v)
    | _, _ => none
  else none

/-- What a message does to the baselines, the totals and the trades
published. The cases are told apart by whether the message is a match
and whether its product has a baseline. -/
inductive Effect (msg : Json) (h h' : MessageHandler) : Prop where
  /-- The first match of a product. -/
  | first (p : String) (trade : Trade)
      (is : matchOf msg = some (p, trade.tradeId))
      (product : trade.productId = p)
      (new : h.continuity.last p = none)
      (last : h'.continuity.last
        = Function.update h.continuity.last p (some trade.tradeId))
      (lost : h'.counters.messagesLostTotal = h.counters.messagesLostTotal)
      (dups : h'.counters.duplicatesTotal = h.counters.duplicatesTotal)
      (trades : h'.publisher.trades = h.publisher.trades ++ [trade])
  /-- A later match. -/
  | later (p : String) (trade : Trade) (m : Int)
      (is : matchOf msg = some (p, trade.tradeId))
      (product : trade.productId = p)
      (seen : h.continuity.last p = some m)
      (last : h'.continuity.last
        = Function.update h.continuity.last p
            (some (max m trade.tradeId)))
      (lost : h'.counters.messagesLostTotal = h.counters.messagesLostTotal
        + (max m trade.tradeId - m - if m < trade.tradeId then 1 else 0))
      (dups : h'.counters.duplicatesTotal = h.counters.duplicatesTotal
        + if m < trade.tradeId then 0 else 1)
      (trades : h'.publisher.trades = h.publisher.trades ++ [trade])
  /-- A heartbeat of a product that had a match. -/
  | announced (p : String) (v m : Int)
      (is : matchOf msg = none)
      (seen : h.continuity.last p = some m)
      (last : h'.continuity.last
        = Function.update h.continuity.last p (some (max m v)))
      (lost : h'.counters.messagesLostTotal
        = h.counters.messagesLostTotal + (max m v - m))
      (dups : h'.counters.duplicatesTotal = h.counters.duplicatesTotal)
      (trades : h'.publisher.trades = h.publisher.trades)
  | quiet
      (is : matchOf msg = none)
      (last : h'.continuity.last = h.continuity.last)
      (lost : h'.counters.messagesLostTotal = h.counters.messagesLostTotal)
      (dups : h'.counters.duplicatesTotal = h.counters.duplicatesTotal)
      (trades : h'.publisher.trades = h.publisher.trades)

/-- The first observation of a product counts nothing. -/
theorem countObservation_first (c : Counters) (t : ContinuityTracker)
    {p : String} (v : Int) (hp : t.last p = none) :
    (countObservation c (t.observe p v).2).messagesLostTotal
        = c.messagesLostTotal
      ∧ (countObservation c (t.observe p v).2).duplicatesTotal
        = c.duplicatesTotal := by
  simp only [ContinuityTracker.observe, hp, countObservation, and_self]

/-- A later one counts what its baseline jumps over, or a duplicate. -/
theorem countObservation_later (c : Counters) (t : ContinuityTracker)
    {p : String} {m : Int} (v : Int) (hp : t.last p = some m) :
    (countObservation c (t.observe p v).2).messagesLostTotal
        = c.messagesLostTotal + (max m v - m - if m < v then 1 else 0)
      ∧ (countObservation c (t.observe p v).2).duplicatesTotal
        = c.duplicatesTotal + if m < v then 0 else 1 := by
  simp only [ContinuityTracker.observe, hp]
  by_cases hle : v ≤ m
  · have hlt : ¬m < v := by omega
    rw [if_pos hle, if_neg hlt, if_neg hlt, Int.max_eq_left hle]
    exact ⟨by simp [countObservation], rfl⟩
  · have hlt : m < v := by omega
    rw [if_neg hle, if_pos hlt, if_pos hlt, Int.max_eq_right (by omega)]
    by_cases hgap : v - m - 1 > 0
    · rw [if_pos hgap]
      refine ⟨?_, (Int.add_zero _).symm⟩
      show c.messagesLostTotal + (v - m - 1) = _
      rfl
    · rw [if_neg hgap]
      refine ⟨?_, (Int.add_zero _).symm⟩
      show c.messagesLostTotal = _
      omega

/-- A heartbeat without a baseline to check it against does nothing. -/
theorem heartbeatTracked_none {h : MessageHandler} {p : String} (v : Int)
    (hp : h.continuity.last p = none) : h.heartbeatTracked p v = h := by
  simp only [heartbeatTracked, ContinuityTracker.lastSeen, hp]

/-- Otherwise it moves the baseline up to its id, and counts the ids it
jumps over. -/
theorem heartbeatTracked_some {h : MessageHandler} {p : String} {m : Int}
    (v : Int) (hp : h.continuity.last p = some m) :
    (h.heartbeatTracked p v).continuity.last
        = Function.update h.continuity.last p (some (max m v))
      ∧ (h.heartbeatTracked p v).counters.messagesLostTotal
        = h.counters.messagesLostTotal + (max m v - m)
      ∧ (h.heartbeatTracked p v).counters.duplicatesTotal
        = h.counters.duplicatesTotal := by
  simp only [heartbeatTracked, ContinuityTracker.lastSeen, hp]
  by_cases hv : v > m
  · have hlast := h.continuity.last_observe p v
    rw [hp] at hlast
    rw [if_pos hv, Int.max_eq_right (by omega)]
    simp only [Int.max_eq_right (show m ≤ v by omega)] at hlast
    exact ⟨hlast, rfl, rfl⟩
  · rw [if_neg hv, Int.max_eq_left (by omega), Int.sub_self, Int.add_zero,
      ← hp, Function.update_eq_self]
    exact ⟨rfl, rfl, rfl⟩

/-- A record read off a match names the match's product and id. -/
theorem matchOf_of_tradeOf {msg : Json} {t : Int} {trade : Trade}
    {lag : Int} (htype : typeOf msg = .match_)
    (hof : tradeOf msg t = .ok (trade, lag)) :
    matchOf msg = some (trade.productId, trade.tradeId) := by
  rw [matchOf, if_pos htype]
  obtain ⟨p, hp, hof⟩ := bind_ok hof
  obtain ⟨v, hv, hof⟩ := bind_ok hof
  obtain ⟨time, -, hof⟩ := bind_ok hof
  obtain ⟨lag, -, hof⟩ := bind_ok hof
  obtain ⟨sequence, -, hof⟩ := bind_ok hof
  obtain ⟨price, -, hof⟩ := bind_ok hof
  obtain ⟨size, -, hof⟩ := bind_ok hof
  obtain ⟨side, -, hof⟩ := bind_ok hof
  obtain ⟨maker, -, hof⟩ := bind_ok hof
  obtain ⟨taker, -, hof⟩ := bind_ok hof
  cases hof
  rw [hp, hv]

/-- A message of another type is no match. -/
theorem matchOf_of_type {msg : Json} (h : typeOf msg ≠ .match_) :
    matchOf msg = none := if_neg h

/-- Publishing a trade appends it to the trades. -/
theorem trades_publish_trade {trade : Trade} {key : String}
    {h h' : MessageHandler}
    (hrun : (publish ⟨.trades trade, key⟩).run h = .ok () h') :
    h'.publisher.trades = h.publisher.trades ++ [trade] := by
  obtain ⟨-, hmsgs⟩ := run_publish_ok hrun
  rw [Publisher.trades, hmsgs, List.filterMap_append]
  rfl

/-- Publishing on another channel leaves the trades. -/
theorem trades_publish_other {m : Published} {h h' : MessageHandler}
    (hrun : (publish m).run h = .ok () h')
    (hm : ∀ trade, m.payload ≠ .trades trade) :
    h'.publisher.trades = h.publisher.trades := by
  obtain ⟨-, hmsgs⟩ := run_publish_ok hrun
  rw [Publisher.trades, hmsgs, List.filterMap_append]
  cases hp : m.payload with
  | trades trade => exact absurd hp (hm trade)
  | l2 e => simp [hp, Publisher.trades]
  | heartbeat e => simp [hp, Publisher.trades]

/-- Every message that does not raise has one of the effects. -/
theorem effect_handle {msg : Json} {t : Int} {h h' : MessageHandler}
    (hrun : (handle msg t).run h = .ok () h') : Effect msg h h' := by
  cases handle_ok hrun with
  | trade trade lag type of run =>
      have his := matchOf_of_tradeOf type of
      have htrades := trades_publish_trade run
      obtain ⟨rfl, -⟩ := run_publish_ok run
      have hlast := h.continuity.last_observe trade.productId trade.tradeId
      cases hp : h.continuity.last trade.productId with
      | none =>
          rw [hp] at hlast
          have hcount := countObservation_first
            (h.counters.recordMessage "trades") h.continuity
            trade.tradeId hp
          exact .first trade.productId trade his rfl hp hlast hcount.1
            hcount.2 htrades
      | some m =>
          rw [hp] at hlast
          have hcount := countObservation_later
            (h.counters.recordMessage "trades") h.continuity
            trade.tradeId hp
          exact .later trade.productId trade m his rfl hp hlast hcount.1
            hcount.2 htrades
  | snapshot s b b' type of book applied run =>
      have htrades := trades_publish_other run fun _ => by simp
      obtain ⟨rfl, -⟩ := run_publish_ok run
      exact .quiet (matchOf_of_type (by simp [type])) rfl rfl rfl htrades
  | update u b b' type of book applied run =>
      have htrades := trades_publish_other run fun _ => by simp
      obtain ⟨rfl, -⟩ := run_publish_ok run
      obtain ⟨f, hf, hcount⟩ := crossChecked_eq
        { h.withCounters (·.recordMessage "l2") with
          books := h.books.put u.event.productId b' } u.event.productId
      rw [hf] at htrades ⊢
      exact .quiet (matchOf_of_type (by simp [type])) rfl (hcount _).1
        (hcount _).2 htrades
  | heartbeat beat type of run =>
      have htrades := trades_publish_other run fun _ => by simp
      obtain ⟨rfl, -⟩ := run_publish_ok run
      have his : matchOf msg = none := matchOf_of_type (by simp [type])
      cases hp : h.continuity.last beat.productId with
      | none =>
          have hsame := heartbeatTracked_none
            (h := { h.withCounters (·.recordMessage "heartbeat") with
              lastHeartbeatAt := some t }) beat.lastTradeId hp
          rw [hsame] at htrades ⊢
          exact .quiet his rfl rfl rfl htrades
      | some m =>
          obtain ⟨hlast, hlost, hdups⟩ := heartbeatTracked_some
            (h := { h.withCounters (·.recordMessage "heartbeat") with
              lastHeartbeatAt := some t }) beat.lastTradeId hp
          refine .announced beat.productId beat.lastTradeId m his hp hlast
            hlost hdups (htrades.trans ?_)
          rw [(heartbeatTracked_frame _ _ _).1]
          rfl
  | ignored type same =>
      subst same
      exact .quiet (matchOf_of_type (by simp [type])) rfl rfl rfl rfl

end MessageHandler

-- ================================================================ epochs

/-- A message, with the handler it found. -/
structure Arrived where
  before : MessageHandler
  message : Json
  receivedAt : Int

/-- The messages between two calls of `on_disconnect`. -/
structure Epoch where
  start : MessageHandler
  arrivals : List Arrived := []
  finish : MessageHandler

namespace Epoch

def begin (h : MessageHandler) : Epoch := { start := h, finish := h }

/-- The epoch with one more message. -/
def extend (e : Epoch) (message : Json) (receivedAt : Int) : Epoch where
  start := e.start
  arrivals := e.arrivals ++ [⟨e.finish, message, receivedAt⟩]
  finish := ((handle message receivedAt).run e.finish).state

/-- A match of the product, with the baseline it found. -/
def arrivalOf (p : String) (a : Arrived) : Option Arrival :=
  match matchOf a.message with
  | some (q, v) =>
      if q = p then some (a.before.continuity.lastSeen p, v) else none
  | none => none

/-- The matches of a product. -/
def matchesOf (e : Epoch) (p : String) : List Arrival :=
  e.arrivals.filterMap (arrivalOf p)

/-- The products that had a match. -/
def products (e : Epoch) : Finset String :=
  (e.arrivals.filterMap fun a => (matchOf a.message).map Prod.fst).toFinset

/-- `last_seen` at the end less the first match's id, less the number of
later matches that exceeded `last_seen` on arrival. -/
def lost (e : Epoch) (p : String) : Int :=
  account (e.matchesOf p) (e.finish.continuity.lastSeen p)

/-- The number of later matches that did not exceed `last_seen`. -/
def duplicates (e : Epoch) (p : String) : Int :=
  repeats (e.matchesOf p).tail

/-- The trades published during the epoch. -/
def published (e : Epoch) : List Trade :=
  e.finish.publisher.trades.drop e.start.publisher.trades.length

/-- The ids of the product's trades published during the epoch. -/
def publishedIds (e : Epoch) (p : String) : List Int :=
  (e.published.filter fun t => t.productId = p).map Trade.tradeId

end Epoch

/-- The epochs of calls, the first of which has begun. -/
def epochs (e : Epoch) : List Call → List Epoch
  | [] => [e]
  | .handle message receivedAt :: cs =>
      epochs (e.extend message receivedAt) cs
  | .onDisconnect :: cs =>
      e :: epochs (Epoch.begin e.finish.onDisconnect) cs

namespace Epoch

theorem matchesOf_extend (e : Epoch) (msg : Json) (t : Int) (p : String) :
    (e.extend msg t).matchesOf p
      = e.matchesOf p ++ (arrivalOf p ⟨e.finish, msg, t⟩).toList := by
  simp only [matchesOf, extend, List.filterMap_append]
  cases ha : arrivalOf p ⟨e.finish, msg, t⟩ <;> simp [ha]

theorem products_extend_match {e : Epoch} {msg : Json} (t : Int)
    {p : String} {v : Int} (hmsg : matchOf msg = some (p, v)) :
    (e.extend msg t).products = insert p e.products := by
  simp only [products, extend, List.filterMap_append, List.toFinset_append,
    List.filterMap_cons, hmsg, Option.map_some, List.filterMap_nil]
  rw [Finset.union_comm]
  rfl

theorem products_extend_none {e : Epoch} {msg : Json} (t : Int)
    (hmsg : matchOf msg = none) :
    (e.extend msg t).products = e.products := by
  simp [products, extend, List.filterMap_append, hmsg]

/-- Matches of other products are not the product's. -/
theorem matchesOf_extend_ne {e : Epoch} {msg : Json} (t : Int)
    {p q : String} {v : Int} (hmsg : matchOf msg = some (p, v))
    (hq : q ≠ p) : (e.extend msg t).matchesOf q = e.matchesOf q := by
  rw [matchesOf_extend, arrivalOf]
  simp [hmsg, Ne.symm hq]

theorem matchesOf_extend_self {e : Epoch} {msg : Json} (t : Int)
    {p : String} {v : Int} (hmsg : matchOf msg = some (p, v)) :
    (e.extend msg t).matchesOf p
      = e.matchesOf p ++ [(e.finish.continuity.last p, v)] := by
  rw [matchesOf_extend, arrivalOf]
  simp [hmsg, ContinuityTracker.lastSeen]

theorem matchesOf_extend_none {e : Epoch} {msg : Json} (t : Int)
    (hmsg : matchOf msg = none) (q : String) :
    (e.extend msg t).matchesOf q = e.matchesOf q := by
  rw [matchesOf_extend, arrivalOf]
  simp [hmsg]

theorem mem_products_iff (e : Epoch) (p : String) :
    p ∈ e.products ↔ e.matchesOf p ≠ [] := by
  simp only [products, List.mem_toFinset, List.mem_filterMap, matchesOf,
    ne_eq, List.filterMap_eq_nil_iff, not_forall, Option.map_eq_some_iff]
  constructor
  · intro h
    obtain ⟨a, ha, ⟨q, v⟩, hm, rfl⟩ := h
    exact ⟨a, ha, by simp [arrivalOf, hm]⟩
  · intro h
    obtain ⟨a, ha, hne⟩ := h
    cases hm : matchOf a.message with
    | none => simp [arrivalOf, hm] at hne
    | some qv =>
        refine ⟨a, ha, qv, hm, ?_⟩
        by_contra hq
        exact hne (by simp [arrivalOf, hm, hq])

-- ============================================================= accounted

/-- The totals have moved by the accounts of the products, and what was
published are the matches. -/
structure Accounted (e : Epoch) : Prop where
  reached : ∀ p, Reached (e.matchesOf p) (e.finish.continuity.last p)
  lost : e.finish.counters.messagesLostTotal
    = e.start.counters.messagesLostTotal + ∑ p ∈ e.products, e.lost p
  duplicates : e.finish.counters.duplicatesTotal
    = e.start.counters.duplicatesTotal + ∑ p ∈ e.products, e.duplicates p
  trades : e.start.publisher.trades ++ e.published
    = e.finish.publisher.trades
  ids : ∀ p, e.publishedIds p = (e.matchesOf p).map Prod.snd

theorem accounted_begin {h : MessageHandler}
    (hlast : ∀ p, h.continuity.last p = none) : (begin h).Accounted where
  reached := fun p => by rw [begin, hlast]; exact .start
  lost := by simp [begin, products]
  duplicates := by simp [begin, products]
  trades := by simp [begin, published]
  ids := fun p => by simp [begin, published, publishedIds, matchesOf]

/-- A product without a match has empty accounts. -/
theorem lost_of_notMem {e : Epoch} {p : String} (hp : p ∉ e.products) :
    e.lost p = 0 ∧ e.duplicates p = 0 := by
  have hnil : e.matchesOf p = [] := by
    rwa [mem_products_iff, not_not] at hp
  rw [lost, duplicates, hnil]
  exact ⟨rfl, rfl⟩

/-- A product with a baseline had a match. -/
theorem Accounted.matchesOf_ne_nil {e : Epoch} (h : e.Accounted)
    {p : String} {m : Int} (hm : e.finish.continuity.last p = some m) :
    e.matchesOf p ≠ [] := by
  have hr := h.reached p
  rw [hm] at hr
  exact hr.ne_nil

/-- The trades published by the epoch with one more message. -/
theorem Accounted.published_extend {e : Epoch} (h : e.Accounted)
    (msg : Json) (t : Int) {ts : List Trade}
    (hts : (e.extend msg t).finish.publisher.trades
      = e.finish.publisher.trades ++ ts) :
    (e.extend msg t).published = e.published ++ ts := by
  show (e.extend msg t).finish.publisher.trades.drop
    e.start.publisher.trades.length = _
  rw [hts, ← h.trades, List.append_assoc]
  exact List.drop_left

theorem Accounted.trades_extend {e : Epoch} (h : e.Accounted)
    (msg : Json) (t : Int) {ts : List Trade}
    (hts : (e.extend msg t).finish.publisher.trades
      = e.finish.publisher.trades ++ ts) :
    (e.extend msg t).start.publisher.trades ++ (e.extend msg t).published
      = (e.extend msg t).finish.publisher.trades := by
  rw [h.published_extend msg t hts, hts, ← List.append_assoc]
  exact congrArg (· ++ ts) h.trades

/-- A message without a match leaves the ids as they are. -/
theorem Accounted.ids_extend_none {e : Epoch} (h : e.Accounted)
    {msg : Json} (t : Int) (hmsg : matchOf msg = none)
    (hts : (e.extend msg t).finish.publisher.trades
      = e.finish.publisher.trades) (q : String) :
    (e.extend msg t).publishedIds q
      = ((e.extend msg t).matchesOf q).map Prod.snd := by
  have hpub : (e.extend msg t).published = e.published ++ [] :=
    h.published_extend msg t (by rw [hts, List.append_nil])
  rw [publishedIds, hpub, List.append_nil, matchesOf_extend_none t hmsg]
  exact h.ids q

/-- A match adds its id to its product's. -/
theorem Accounted.ids_extend_match {e : Epoch} (h : e.Accounted)
    {msg : Json} (t : Int) {p : String} {trade : Trade}
    (hmsg : matchOf msg = some (p, trade.tradeId))
    (hp : trade.productId = p)
    (hts : (e.extend msg t).finish.publisher.trades
      = e.finish.publisher.trades ++ [trade]) (q : String) :
    (e.extend msg t).publishedIds q
      = ((e.extend msg t).matchesOf q).map Prod.snd := by
  have hids := h.ids q
  rw [publishedIds] at hids
  rw [publishedIds, h.published_extend msg t hts, List.filter_append,
    List.map_append, hids]
  by_cases hq : q = p
  · rw [hq, matchesOf_extend_self t hmsg, List.map_append]
    simp [hp]
  · rw [matchesOf_extend_ne t hmsg hq]
    simp [hp, Ne.symm hq]

/-- A product whose matches and baseline stay keeps its account. -/
theorem lost_congr {e e' : Epoch} {q : String}
    (hmatches : e'.matchesOf q = e.matchesOf q)
    (hlast : e'.finish.continuity.last q = e.finish.continuity.last q) :
    e'.lost q = e.lost q := by
  rw [lost, lost, ContinuityTracker.lastSeen, ContinuityTracker.lastSeen,
    hmatches, hlast]

theorem duplicates_congr {e e' : Epoch} {q : String}
    (hmatches : e'.matchesOf q = e.matchesOf q) :
    e'.duplicates q = e.duplicates q := by
  rw [duplicates, duplicates, hmatches]

/-- A product's baseline moves; the other products keep theirs. -/
theorem reached_extend {e e' : Epoch} (h : e.Accounted) {p : String}
    {o : Option Int}
    (hlast : e'.finish.continuity.last
      = Function.update e.finish.continuity.last p o)
    (hother : ∀ q, q ≠ p → e'.matchesOf q = e.matchesOf q)
    (hp : Reached (e'.matchesOf p) o) (q : String) :
    Reached (e'.matchesOf q) (e'.finish.continuity.last q) := by
  rw [hlast]
  by_cases hq : q = p
  · rwa [hq, Function.update_self]
  · rw [hother q hq, Function.update_of_ne hq]
    exact h.reached q

/-- The total of a loss account that moves by `d`. -/
theorem sum_lost_extend {e e' : Epoch} {p : String} {o : Option Int}
    {d : Int}
    (hproducts : e'.products = insert p e.products)
    (hlast : e'.finish.continuity.last
      = Function.update e.finish.continuity.last p o)
    (hother : ∀ q, q ≠ p → e'.matchesOf q = e.matchesOf q)
    (hp : e'.lost p = e.lost p + d) :
    ∑ q ∈ e'.products, e'.lost q = ∑ q ∈ e.products, e.lost q + d := by
  rw [hproducts]
  refine sum_insert_move (fun q hq => ?_) hp
    fun hnew => (lost_of_notMem hnew).1
  refine lost_congr (hother q hq) ?_
  rw [hlast, Function.update_of_ne hq]

/-- The total of a duplicates account that moves by `d`. -/
theorem sum_duplicates_extend {e e' : Epoch} {p : String} {d : Int}
    (hproducts : e'.products = insert p e.products)
    (hother : ∀ q, q ≠ p → e'.matchesOf q = e.matchesOf q)
    (hp : e'.duplicates p = e.duplicates p + d) :
    ∑ q ∈ e'.products, e'.duplicates q
      = ∑ q ∈ e.products, e.duplicates q + d := by
  rw [hproducts]
  exact sum_insert_move (fun q hq => duplicates_congr (hother q hq)) hp
    fun hnew => (lost_of_notMem hnew).2

/-- Every message keeps the accounts. By the cases of its effect: a
first match opens an account at zero, a later one and a heartbeat move
it by what they count, and a quiet message leaves every account as it
was. -/
theorem Accounted.extend {e : Epoch} (h : e.Accounted) {msg : Json}
    {t : Int}
    (heffect : Effect msg e.finish (e.extend msg t).finish) :
    (e.extend msg t).Accounted := by
  cases heffect with
  | first p trade is product new last lost dups trades =>
      have hnil : e.matchesOf p = [] := by
        have hr := h.reached p
        rw [new] at hr
        exact hr.eq_nil
      have hself := matchesOf_extend_self (e := e) t is
      rw [hnil, new, List.nil_append] at hself
      have hother := fun q (hq : q ≠ p) =>
        matchesOf_extend_ne (e := e) t is hq
      have hproducts := products_extend_match (e := e) t is
      have hnew := lost_of_notMem
        ((not_congr (mem_products_iff e p)).mpr (not_not.mpr hnil))
      refine ⟨reached_extend h last hother ?_, ?_, ?_,
        h.trades_extend msg t trades, h.ids_extend_match t is product trades⟩
      · rw [hself]
        exact .first _ .start
      · rw [sum_lost_extend hproducts last hother (d := 0) ?_, lost, h.lost]
        · rw [Int.add_zero]
          rfl
        · rw [hnew.1, Epoch.lost, hself, ContinuityTracker.lastSeen, last,
            Function.update_self]
          exact account_first _
      · rw [sum_duplicates_extend hproducts hother (d := 0) ?_, dups,
          h.duplicates]
        · rw [Int.add_zero]
          rfl
        · rw [hnew.2, Epoch.duplicates, hself]
          rfl
  | later p trade m is product seen last lost dups trades =>
      have hne := h.matchesOf_ne_nil seen
      have hself := matchesOf_extend_self (e := e) t is
      rw [seen] at hself
      have hother := fun q (hq : q ≠ p) =>
        matchesOf_extend_ne (e := e) t is hq
      have hproducts := products_extend_match (e := e) t is
      refine ⟨reached_extend h last hother ?_, ?_, ?_,
        h.trades_extend msg t trades, h.ids_extend_match t is product trades⟩
      · have hr := h.reached p
        rw [seen] at hr
        rw [hself]
        exact .arrive _ hr
      · rw [sum_lost_extend hproducts last hother ?_, lost, h.lost]
        · exact Int.add_assoc _ _ _
        · rw [Epoch.lost, Epoch.lost, hself, ContinuityTracker.lastSeen,
            ContinuityTracker.lastSeen, last, Function.update_self, seen]
          exact account_arrive _ hne
      · rw [sum_duplicates_extend hproducts hother ?_, dups, h.duplicates]
        · exact Int.add_assoc _ _ _
        · rw [Epoch.duplicates, Epoch.duplicates, hself]
          exact repeats_tail_append m _ hne
  | announced p v m is seen last lost dups trades =>
      have hne := h.matchesOf_ne_nil seen
      have hsame := matchesOf_extend_none (e := e) t is
      have hproducts : (e.extend msg t).products = insert p e.products := by
        rw [products_extend_none t is, Finset.insert_eq_of_mem]
        exact (mem_products_iff e p).mpr hne
      have htrades : (e.extend msg t).finish.publisher.trades
          = e.finish.publisher.trades ++ [] := by rw [trades, List.append_nil]
      refine ⟨reached_extend h last (fun q _ => hsame q) ?_, ?_, ?_,
        h.trades_extend msg t htrades, h.ids_extend_none t is trades⟩
      · have hr := h.reached p
        rw [seen] at hr
        rw [hsame]
        exact .announce _ hr
      · rw [sum_lost_extend hproducts last (fun q _ => hsame q) ?_, lost,
          h.lost]
        · exact Int.add_assoc _ _ _
        · rw [Epoch.lost, Epoch.lost, hsame, ContinuityTracker.lastSeen,
            ContinuityTracker.lastSeen, last, Function.update_self, seen]
          exact account_announce _ hne
      · rw [sum_duplicates_extend hproducts (fun q _ => hsame q) (d := 0) ?_,
          dups, h.duplicates]
        · rw [Int.add_zero]
          rfl
        · rw [Int.add_zero]
          exact duplicates_congr (hsame p)
  | quiet is last lost dups trades =>
      have hsame := matchesOf_extend_none (e := e) t is
      have hproducts := products_extend_none (e := e) t is
      have htrades : (e.extend msg t).finish.publisher.trades
          = e.finish.publisher.trades ++ [] := by rw [trades, List.append_nil]
      refine ⟨fun q => ?_, ?_, ?_, h.trades_extend msg t htrades,
        h.ids_extend_none t is trades⟩
      · rw [hsame, last]
        exact h.reached q
      · rw [hproducts, Finset.sum_congr rfl fun q _ =>
          lost_congr (hsame q) (congrFun last q), lost]
        exact h.lost
      · rw [hproducts, Finset.sum_congr rfl fun q _ =>
          duplicates_congr (hsame q), dups]
        exact h.duplicates

/-- The product had a first match, it has a `last_seen`, and of the ids
between the two no more went unpublished than are counted lost. -/
def CoversLoss (e : Epoch) (p : String) : Prop :=
  ∃ first later last, e.matchesOf p = first :: later
    ∧ e.finish.continuity.lastSeen p = some last
    ∧ ∀ S : Finset Int,
        (∀ id ∈ S, first.2 ≤ id ∧ id ≤ last ∧ id ∉ e.publishedIds p) →
        (S.card : Int) ≤ e.lost p

theorem Accounted.coversLoss {e : Epoch} (h : e.Accounted) {p : String}
    (hp : p ∈ e.products) : e.CoversLoss p := by
  have hr := h.reached p
  cases hm : e.matchesOf p with
  | nil => exact absurd hm ((mem_products_iff e p).mp hp)
  | cons first later =>
      cases hl : e.finish.continuity.last p with
      | none =>
          rw [hl] at hr
          rw [hr.eq_nil] at hm
          cases hm
      | some last =>
          refine ⟨first, later, last, hm, hl, fun S hS => ?_⟩
          rw [h.ids p, hm] at hS
          rw [hm, hl] at hr
          have hle := unseen_le hr first later last S rfl rfl hS
          rw [Epoch.lost, hm, ContinuityTracker.lastSeen, hl, account]
          omega

end Epoch

-- ============================================================= whole runs

/-- Calls keep every epoch's accounts, and the totals are their sums. By
induction on the calls: a message extends the current epoch, a
disconnect ends it and begins the next with the totals it had. -/
theorem accounted_epochs (cs : List Call) : ∀ (e : Epoch)
    (h' : MessageHandler), e.Accounted →
    (calls cs).run e.finish = .ok () h' →
    (∀ e' ∈ epochs e cs, e'.Accounted)
      ∧ h'.counters.messagesLostTotal = e.start.counters.messagesLostTotal
          + ((epochs e cs).map fun e => ∑ p ∈ e.products, e.lost p).sum
      ∧ h'.counters.duplicatesTotal = e.start.counters.duplicatesTotal
          + ((epochs e cs).map fun e =>
              ∑ p ∈ e.products, e.duplicates p).sum := by
  induction cs with
  | nil =>
      intro e h' he hrun
      cases hrun
      exact ⟨by simp [epochs, he], by simp [epochs, he.lost],
        by simp [epochs, he.duplicates]⟩
  | cons c cs ih =>
      intro e h' he hrun
      obtain ⟨h₁, hc, hcs⟩ := calls_cons_ok hrun
      cases c with
      | handle msg t =>
          have hfinish : (e.extend msg t).finish = h₁ :=
            congrArg Result.state hc
          have heffect := effect_handle hc
          rw [← hfinish] at hcs heffect
          exact ih _ h' (he.extend heffect) hcs
      | onDisconnect =>
          have hfinish : e.finish.onDisconnect = h₁ :=
            congrArg Result.state hc
          rw [← hfinish] at hcs
          obtain ⟨hall, hlost, hdups⟩ := ih
            (Epoch.begin e.finish.onDisconnect) h'
            (Epoch.accounted_begin fun _ => rfl) hcs
          refine ⟨?_, ?_, ?_⟩
          · exact List.forall_mem_cons.mpr ⟨he, hall⟩
          · rw [epochs, List.map_cons, List.sum_cons, ← Int.add_assoc,
              ← he.lost]
            exact hlost
          · rw [epochs, List.map_cons, List.sum_cons, ← Int.add_assoc,
              ← he.duplicates]
            exact hdups

/-- The epochs of calls on a new handler. -/
def epochsOf (products : List String) (publisher : Publisher)
    (cs : List Call) : List Epoch :=
  epochs (Epoch.begin (MessageHandler.new products publisher)) cs

/-- The loss counted over any calls that do not raise is, epoch by epoch
and product by product, the distance from the first match to `last_seen`
less the matches that advanced it, and so never less than the number of
ids not published; the duplicates are the later matches that did not
advance it. -/
theorem loss_accounting (products : List String) (publisher : Publisher)
    (cs : List Call) (hok : completes products publisher cs = true) :
    (after products publisher cs).counters.messagesLostTotal
        = ((epochsOf products publisher cs).map fun e =>
            ∑ p ∈ e.products, e.lost p).sum
      ∧ (after products publisher cs).counters.duplicatesTotal
        = ((epochsOf products publisher cs).map fun e =>
            ∑ p ∈ e.products, e.duplicates p).sum
      ∧ ∀ e ∈ epochsOf products publisher cs, ∀ p ∈ e.products,
          e.CoversLoss p := by
  obtain ⟨hall, hlost, hdups⟩ := accounted_epochs cs _ _
    (Epoch.accounted_begin (h := MessageHandler.new products publisher)
      fun _ => rfl) (calls_of_completes hok)
  refine ⟨?_, ?_, fun e he p hp => (hall e he).coversLoss hp⟩
  · exact hlost.trans (Int.zero_add _)
  · exact hdups.trans (Int.zero_add _)

/-- A match of BTC-USD. -/
def btcMatch (tradeId : Int) : Call :=
  .handle (.obj [("type", .str "match"), ("product_id", .str "BTC-USD"),
    ("trade_id", .int tradeId), ("sequence", .int 1),
    ("price", .str "100.5"), ("size", .str "0.1"), ("side", .str "buy"),
    ("time", .str "1970-01-01T00:00:00Z")]) 0

/-- A heartbeat of BTC-USD. -/
def btcHeartbeat (lastTradeId : Int) : Call :=
  .handle (.obj [("type", .str "heartbeat"),
    ("product_id", .str "BTC-USD"), ("sequence", .int 1),
    ("last_trade_id", .int lastTradeId),
    ("time", .str "1970-01-01T00:00:00Z")]) 0

/-- A gap, a straggler and a heartbeat ahead, then a new connection:
the ids 11, 12, 14 and 15 are counted lost, of which 11 arrived late. -/
theorem loss_accounting_gap_and_heartbeat :
    (after ["BTC-USD"] RecordingPublisher
      [btcMatch 10, btcMatch 13, btcMatch 11, btcHeartbeat 15,
        .onDisconnect, btcMatch 20]).counters.messagesLostTotal = 4 := by
  rw [(loss_accounting ["BTC-USD"] RecordingPublisher _
    (by decide +kernel)).1]
  decide +kernel

end MarketPlatform.Consumer
