/-
False loss: when the loss counted for a product exceeds what is missing.

# The statement

Loss is charged as the baseline jumps, by a match over the ids before it
and by a heartbeat over its own id too, and nothing gives it back: a
trade that is delivered after the baseline has passed it is counted a
duplicate and stays lost. `false_loss_iff` says that, in every epoch,
the loss charged to a product exceeds the number of ids never delivered
exactly when some id was delivered late (`Watermark.Timely`).

# From messages to mentions

A message says of a product's ids that one arrives (a match), that one
is announced (a heartbeat), or nothing (`mentionOf`). What one message
does to the baseline of one product, and what it adds to the loss
counter if it names that product, is `charged_handle`: the baseline
moves as a mark does, and the charge is the mark's. The rest is the
induction over an epoch's arrivals (`Tracked.extend`), after which
everything is about a list of mentions.

# Before the first match

There is no baseline before a product's first match, and a heartbeat
does nothing (`markOf_none`). So the mentions that count are those from
the first arrival on, and of these the library's `charged_le_iff` is the
result.
-/
import MarketPlatform.Proofs.LossAccounting

namespace MarketPlatform.Consumer

open Lib EStateM Watermark MessageHandler

namespace MessageHandler

/-- The product a message names. -/
def productOf (msg : Json) : Option String :=
  (item msg "product_id" >>= asKey).toOption

/-- The product and the last trade id of a heartbeat. -/
def beatOf (msg : Json) : Option (String × Int) :=
  if typeOf msg = .heartbeat then
    match item msg "product_id" >>= asKey,
      getD msg "last_trade_id" (.int 0) >>= pyInt with
    | .ok p, .ok v => some (p, v)
    | _, _ => none
  else none

/-- What a message says of a product's trade ids. -/
def mentionOf (p : String) (msg : Json) : Option Mention :=
  match matchOf msg, beatOf msg with
  | some (q, v), _ => if q = p then some (.arrives v) else none
  | none, some (q, v) => if q = p then some (.announced v) else none
  | none, none => none

end MessageHandler

/-- What a message added to the loss counter. -/
def Arrived.charge (a : Arrived) : Int :=
  ((handle a.message a.receivedAt).run a.before).state.counters.messagesLostTotal
    - a.before.counters.messagesLostTotal

namespace Epoch

/-- What the messages of a product added to the loss counter. -/
def chargedTo (e : Epoch) (p : String) : Int :=
  ((e.arrivals.filter fun a => productOf a.message = some p).map
    Arrived.charge).sum

/-- The ids of a product's matches, in the order of delivery. -/
def delivered (e : Epoch) (p : String) : List Int :=
  e.arrivals.filterMap fun a =>
    match matchOf a.message with
    | some (q, v) => if q = p then some v else none
    | none => none

/-- The order of the ids, as it is computed. -/
local instance idOrder : Preorder Int := Int.instLinearOrder.toPreorder

/-- The ids between the first match and the final `last_seen` that no
match delivered. -/
def undelivered (e : Epoch) (p : String) : Finset Int :=
  match (e.delivered p).head?, e.finish.continuity.lastSeen p with
  | some first, some last =>
      (Finset.Icc first last).filter (· ∉ e.delivered p)
  | _, _ => ∅

/-- What the messages say of a product's ids, from the first match on. -/
def mentions (e : Epoch) (p : String) : List Mention :=
  (e.arrivals.filterMap fun a => mentionOf p a.message).dropWhile
    fun x => x.arrival.isNone

/-- No match is delivered after its id was passed. -/
def Punctual (e : Epoch) (p : String) : Prop :=
  match e.mentions p with
  | [] => True
  | first :: later => Timely first.id later

end Epoch

-- ============================================================ one message

namespace MessageHandler

variable {msg : Json} {t : Int} {h h' : MessageHandler} {p : String}

/-- The baseline after a mention; only a match sets one. -/
def markAfter : Option Int → Mention → Option Int
  | some m, x => some (max m x.id)
  | none, x => x.arrival

/-- The loss charged for a mention. -/
def chargeAt : Option Int → Mention → Int
  | some m, x => x.charge m
  | none, _ => 0

/-- The product, where it can be read. -/
theorem productOf_of_ok {q : String}
    (h : (item msg "product_id" >>= asKey) = .ok q) :
    productOf msg = some q := by
  rw [productOf, h]
  rfl

/-- A match names the product of its record. -/
theorem productOf_of_tradeOf {trade : Trade} {lag : Int}
    (h : tradeOf msg t = .ok (trade, lag)) :
    productOf msg = some trade.productId := by
  obtain ⟨p, hp, h⟩ := bind_ok h
  obtain ⟨v, -, h⟩ := bind_ok h
  obtain ⟨time, -, h⟩ := bind_ok h
  obtain ⟨lag, -, h⟩ := bind_ok h
  obtain ⟨sequence, -, h⟩ := bind_ok h
  obtain ⟨price, -, h⟩ := bind_ok h
  obtain ⟨size, -, h⟩ := bind_ok h
  obtain ⟨side, -, h⟩ := bind_ok h
  obtain ⟨maker, -, h⟩ := bind_ok h
  obtain ⟨taker, -, h⟩ := bind_ok h
  cases h
  exact productOf_of_ok hp

/-- A heartbeat names the product of its record, and announces its last
trade. -/
theorem of_heartbeatOf {beat : Heartbeat} (htype : typeOf msg = .heartbeat)
    (h : heartbeatOf msg t = .ok beat) :
    productOf msg = some beat.productId
      ∧ beatOf msg = some (beat.productId, beat.lastTradeId) := by
  obtain ⟨p, hp, h⟩ := bind_ok h
  obtain ⟨v, hv, h⟩ := bind_ok h
  obtain ⟨sequence, -, h⟩ := bind_ok h
  obtain ⟨time, -, h⟩ := bind_ok h
  cases h
  refine ⟨productOf_of_ok hp, ?_⟩
  rw [beatOf, if_pos htype, hp, hv]

/-- Other messages say nothing of trade ids. -/
theorem mentionOf_of_type (hmatch : typeOf msg ≠ .match_)
    (hbeat : typeOf msg ≠ .heartbeat) : mentionOf p msg = none := by
  have hnone : beatOf msg = none := if_neg hbeat
  rw [mentionOf, matchOf_of_type hmatch, hnone]

/-- A match moves its own product's baseline, and is charged for it. -/
theorem charged_tracked (h : MessageHandler) (p : String) (v : Int) :
    (h.tracked p v).continuity.last p
        = markAfter (h.continuity.last p) (.arrives v)
      ∧ (h.tracked p v).counters.messagesLostTotal
        = h.counters.messagesLostTotal
          + chargeAt (h.continuity.last p) (.arrives v) := by
  have hself := congrFun (h.continuity.last_observe p v) p
  rw [Function.update_self] at hself
  cases hm : h.continuity.last p with
  | none =>
      rw [hm] at hself
      have hcount := countObservation_first h.counters h.continuity v hm
      exact ⟨hself, hcount.1.trans (Int.add_zero _).symm⟩
  | some m =>
      rw [hm] at hself
      exact ⟨hself, (countObservation_later h.counters h.continuity v hm).1⟩

/-- And leaves the others'. -/
theorem last_tracked_of_ne (h : MessageHandler) (v : Int) {p q : String}
    (hq : q ≠ p) :
    (h.tracked p v).continuity.last q = h.continuity.last q := by
  have hother := congrFun (h.continuity.last_observe p v) q
  rwa [Function.update_of_ne hq] at hother

/-- So does a heartbeat, once there is a baseline. -/
theorem charged_heartbeatTracked (h : MessageHandler) (p : String)
    (v : Int) :
    (h.heartbeatTracked p v).continuity.last p
        = markAfter (h.continuity.last p) (.announced v)
      ∧ (h.heartbeatTracked p v).counters.messagesLostTotal
        = h.counters.messagesLostTotal
          + chargeAt (h.continuity.last p) (.announced v) := by
  cases hm : h.continuity.last p with
  | none =>
      rw [heartbeatTracked_none v hm]
      exact ⟨hm, (Int.add_zero _).symm⟩
  | some m =>
      obtain ⟨hlast, hlost, -⟩ := heartbeatTracked_some v hm
      have hself := congrFun hlast p
      rw [Function.update_self] at hself
      exact ⟨hself, hlost⟩

/-- It leaves the others' too. -/
theorem last_heartbeatTracked_of_ne (h : MessageHandler) (v : Int)
    {p q : String} (hq : q ≠ p) :
    (h.heartbeatTracked p v).continuity.last q = h.continuity.last q := by
  cases hm : h.continuity.last p with
  | none => rw [heartbeatTracked_none v hm]
  | some m =>
      obtain ⟨hlast, -, -⟩ := heartbeatTracked_some v hm
      rw [hlast, Function.update_of_ne hq]

/-- What a message that does not raise does to a product's baseline, and
what it adds to the loss counter if it names the product. By the kinds
of message; a snapshot and an l2update touch neither. -/
theorem charged_handle (hrun : (handle msg t).run h = .ok () h')
    (p : String) :
    match mentionOf p msg with
    | none => h'.continuity.last p = h.continuity.last p
        ∧ (productOf msg = some p → h'.counters.messagesLostTotal
          = h.counters.messagesLostTotal)
    | some x => h'.continuity.last p = markAfter (h.continuity.last p) x
        ∧ productOf msg = some p
        ∧ h'.counters.messagesLostTotal = h.counters.messagesLostTotal
          + chargeAt (h.continuity.last p) x := by
  cases handle_ok hrun with
  | trade trade lag type of run =>
      have his := matchOf_of_tradeOf type of
      have hproduct := productOf_of_tradeOf of
      obtain ⟨rfl, -⟩ := run_publish_ok run
      by_cases hp : trade.productId = p
      · have hmention : mentionOf p msg = some (.arrives trade.tradeId) := by
          simp only [mentionOf, his, hp, if_true]
        rw [hmention]
        subst hp
        obtain ⟨hlast, hlost⟩ := charged_tracked
          (h.withCounters (·.recordMessage "trades")) trade.productId
          trade.tradeId
        exact ⟨hlast, hproduct, hlost⟩
      · have hmention : mentionOf p msg = none := by
          simp only [mentionOf, his, if_neg hp]
        rw [hmention]
        refine ⟨?_, fun hprod => ?_⟩
        · exact last_tracked_of_ne (h.withCounters (·.recordMessage "trades"))
            trade.tradeId (Ne.symm hp)
        · rw [hproduct] at hprod
          exact absurd (Option.some.inj hprod) hp
  | snapshot s b b' type of book applied run =>
      obtain ⟨rfl, -⟩ := run_publish_ok run
      rw [mentionOf_of_type (by simp [type]) (by simp [type])]
      exact ⟨rfl, fun _ => rfl⟩
  | update u b b' type of book applied run =>
      obtain ⟨rfl, -⟩ := run_publish_ok run
      rw [mentionOf_of_type (by simp [type]) (by simp [type])]
      obtain ⟨f, hf, hcount⟩ := crossChecked_eq
        { h.withCounters (·.recordMessage "l2") with
          books := h.books.put u.event.productId b' } u.event.productId
      rw [hf]
      exact ⟨rfl, fun _ => (hcount _).1⟩
  | heartbeat beat type of run =>
      obtain ⟨rfl, -⟩ := run_publish_ok run
      obtain ⟨hproduct, hbeat⟩ := of_heartbeatOf type of
      have his : matchOf msg = none := matchOf_of_type (by simp [type])
      by_cases hp : beat.productId = p
      · have hmention : mentionOf p msg
            = some (.announced beat.lastTradeId) := by
          simp only [mentionOf, his, hbeat, hp, if_true]
        rw [hmention]
        subst hp
        obtain ⟨hlast, hlost⟩ := charged_heartbeatTracked
          { h.withCounters (·.recordMessage "heartbeat") with
            lastHeartbeatAt := some t } beat.productId beat.lastTradeId
        exact ⟨hlast, hproduct, hlost⟩
      · have hmention : mentionOf p msg = none := by
          simp only [mentionOf, his, hbeat, if_neg hp]
        rw [hmention]
        refine ⟨?_, fun hprod => ?_⟩
        · exact last_heartbeatTracked_of_ne
            { h.withCounters (·.recordMessage "heartbeat") with
              lastHeartbeatAt := some t } beat.lastTradeId (Ne.symm hp)
        · rw [hproduct] at hprod
          exact absurd (Option.some.inj hprod) hp
  | ignored type same =>
      subst same
      rw [mentionOf_of_type (by simp [type]) (by simp [type])]
      exact ⟨rfl, fun _ => rfl⟩

end MessageHandler

-- =============================================================== one epoch

/-- The baseline after mentions. -/
def markOf (o : Option Int) (ms : List Mention) : Option Int :=
  ms.foldl markAfter o

/-- The loss charged for mentions. -/
def chargesOf : Option Int → List Mention → Int
  | _, [] => 0
  | o, x :: ms => chargeAt o x + chargesOf (markAfter o x) ms

/-- One more mention. -/
theorem markOf_concat (o : Option Int) (ms : List Mention) (x : Mention) :
    markOf o (ms ++ [x]) = markAfter (markOf o ms) x :=
  List.foldl_append

/-- One more mention, charged at the baseline so far. -/
theorem chargesOf_concat (o : Option Int) (ms : List Mention)
    (x : Mention) :
    chargesOf o (ms ++ [x]) = chargesOf o ms + chargeAt (markOf o ms) x := by
  induction ms generalizing o with
  | nil => exact (Int.add_zero _).trans (Int.zero_add _).symm
  | cons y ms ih =>
      rw [List.cons_append, chargesOf, ih, chargesOf, Int.add_assoc]
      rfl

/-- Once there is a baseline, the mentions move a mark. -/
theorem markOf_some (m : Int) (ms : List Mention) :
    markOf (some m) ms = some (mark m ms)
      ∧ chargesOf (some m) ms = charged ms m := by
  induction ms generalizing m with
  | nil => exact ⟨rfl, rfl⟩
  | cons x ms ih =>
      obtain ⟨hmark, hcharges⟩ := ih (max m x.id)
      refine ⟨hmark, ?_⟩
      rw [chargesOf, charged, ← hcharges]
      rfl

/-- Before there is one, only an arrival does anything. -/
theorem markOf_none (ms : List Mention) :
    match ms.dropWhile (fun x => x.arrival.isNone) with
    | [] => markOf none ms = none ∧ chargesOf none ms = 0
        ∧ ms.filterMap Mention.arrival = []
    | first :: later => markOf none ms = some (mark first.id later)
        ∧ chargesOf none ms = charged later first.id
        ∧ ms.filterMap Mention.arrival = arrived first.id later := by
  induction ms with
  | nil => exact ⟨rfl, rfl, rfl⟩
  | cons x ms ih =>
      cases x with
      | announced n =>
          rw [List.dropWhile_cons_of_pos (by rfl)]
          split at ih
          all_goals
            obtain ⟨hmark, hcharges, harrived⟩ := ih
            exact ⟨hmark, (Int.zero_add _).trans hcharges, harrived⟩
      | arrives n =>
          rw [List.dropWhile_cons_of_neg (by simp [Mention.arrival])]
          obtain ⟨hmark, hcharges⟩ := markOf_some n ms
          exact ⟨hmark, (Int.zero_add _).trans hcharges, rfl⟩

namespace Epoch

/-- What the arrivals of an epoch make of a product. -/
structure Tracked (e : Epoch) (p : String) : Prop where
  mark : e.finish.continuity.last p
    = markOf none (e.arrivals.filterMap fun a => mentionOf p a.message)
  charged : e.chargedTo p
    = chargesOf none (e.arrivals.filterMap fun a => mentionOf p a.message)

/-- A message keeps the account of every product. It charges its own
product what its mention charges, and no other; one that mentions no id
charges nothing. -/
theorem Tracked.extend {e : Epoch} {p : String} (h : e.Tracked p)
    {msg : Json} {t : Int} {h' : MessageHandler}
    (hrun : (handle msg t).run e.finish = .ok () h') :
    (e.extend msg t).Tracked p := by
  have hfinish : (e.extend msg t).finish = h' := congrArg Result.state hrun
  have hcharge : Arrived.charge ⟨e.finish, msg, t⟩
      = h'.counters.messagesLostTotal
        - e.finish.counters.messagesLostTotal := by
    rw [Arrived.charge, hrun]
    rfl
  have hsum : (e.extend msg t).chargedTo p = e.chargedTo p
      + if productOf msg = some p then
          h'.counters.messagesLostTotal
            - e.finish.counters.messagesLostTotal
        else 0 := by
    rw [chargedTo, chargedTo, Epoch.extend, List.filter_append,
      List.map_append, List.sum_append, ← hcharge]
    congr 1
    by_cases hp : productOf msg = some p
    · simp [hp]
    · simp [hp]
  have hmentions : (e.extend msg t).arrivals.filterMap
        (fun a => mentionOf p a.message)
      = e.arrivals.filterMap (fun a => mentionOf p a.message)
        ++ (mentionOf p msg).toList := by
    rw [Epoch.extend, List.filterMap_append]
    cases hm : mentionOf p msg <;> simp [hm]
  have heffect := charged_handle hrun p
  refine ⟨?_, ?_⟩
  · rw [hmentions, hfinish]
    cases hm : mentionOf p msg with
    | none =>
        rw [hm] at heffect
        rw [Option.toList_none, List.append_nil, ← h.mark]
        exact heffect.1
    | some x =>
        rw [hm] at heffect
        rw [Option.toList_some, markOf_concat, ← h.mark]
        exact heffect.1
  · rw [hmentions, hsum, h.charged]
    cases hm : mentionOf p msg with
    | none =>
        rw [hm] at heffect
        rw [Option.toList_none, List.append_nil]
        by_cases hp : productOf msg = some p
        · rw [if_pos hp, heffect.2 hp]
          omega
        · rw [if_neg hp, Int.add_zero]
    | some x =>
        rw [hm] at heffect
        obtain ⟨-, hp, hlost⟩ := heffect
        rw [Option.toList_some, chargesOf_concat, if_pos hp, hlost, ← h.mark]
        omega

/-- The ids delivered are those the mentions say arrived. -/
theorem delivered_eq (e : Epoch) (p : String) :
    e.delivered p
      = (e.arrivals.filterMap fun a => mentionOf p a.message).filterMap
          Mention.arrival := by
  rw [delivered, List.filterMap_filterMap]
  refine List.filterMap_congr fun a _ => ?_
  unfold mentionOf
  cases matchOf a.message with
  | some qv =>
      obtain ⟨q, v⟩ := qv
      by_cases hq : q = p
      · simp [hq, Mention.arrival]
      · simp [hq]
  | none =>
      cases beatOf a.message with
      | none => rfl
      | some qv =>
          obtain ⟨q, v⟩ := qv
          by_cases hq : q = p
          · simp [hq, Mention.arrival]
          · simp [hq]

/-- The loss charged exceeds what is missing exactly when an id was
delivered late. -/
theorem Tracked.charged_le_iff {e : Epoch} {p : String}
    (h : e.Tracked p) :
    e.chargedTo p ≤ (e.undelivered p).card ↔ e.Punctual p := by
  have hnone := markOf_none
    (e.arrivals.filterMap fun a => mentionOf p a.message)
  unfold undelivered Punctual mentions
  rw [delivered_eq, ContinuityTracker.lastSeen, h.mark, h.charged]
  cases hms : (e.arrivals.filterMap fun a => mentionOf p a.message).dropWhile
      (fun x => x.arrival.isNone) with
  | nil =>
      rw [hms] at hnone
      obtain ⟨hmark, hcharges, harrived⟩ := hnone
      rw [hmark, hcharges, harrived]
      exact iff_of_true le_rfl trivial
  | cons first later =>
      rw [hms] at hnone
      obtain ⟨hmark, hcharges, harrived⟩ := hnone
      rw [hmark, hcharges, harrived]
      exact Watermark.charged_le_iff.2

end Epoch

-- ============================================================== whole runs

/-- The epochs of calls that return are tracked: a message extends the
epoch, and a disconnect begins a new one. -/
theorem tracked_epochs (p : String) (cs : List Call) : ∀ (e : Epoch)
    (h' : MessageHandler), e.Tracked p →
    (calls cs).run e.finish = .ok () h' → ∀ e' ∈ epochs e cs, e'.Tracked p := by
  induction cs with
  | nil =>
      intro e h' he _ e' he'
      rw [List.mem_singleton.mp he']
      exact he
  | cons c cs ih =>
      intro e h' he hrun
      obtain ⟨h₁, hc, hcs⟩ := calls_cons_ok hrun
      cases c with
      | handle msg t =>
          have hfinish : (e.extend msg t).finish = h₁ :=
            congrArg Result.state hc
          rw [← hfinish] at hcs
          exact ih _ h' (he.extend hc) hcs
      | onDisconnect =>
          have hfinish : e.finish.onDisconnect = h₁ :=
            congrArg Result.state hc
          rw [← hfinish] at hcs
          have hbegin : (Epoch.begin e.finish.onDisconnect).Tracked p :=
            ⟨rfl, rfl⟩
          intro e' he'
          rcases List.mem_cons.mp he' with rfl | he'
          · exact he
          · exact ih _ h' hbegin hcs e' he'

/-- In every epoch of calls that do not raise, the loss counted for a
product is no more than the number of ids, from its first match to the
final high-water mark, that were never delivered, exactly when no match
was delivered late.

Each epoch is tracked (`tracked_epochs`), so that the two sides are
those of a list of mentions, and there it is a fact about marks
(`Tracked.charged_le_iff`). -/
theorem false_loss_iff (products : List String) (publisher : Publisher)
    (cs : List Call) (hok : completes products publisher cs = true) :
    ∀ e ∈ epochsOf products publisher cs, ∀ p,
      e.chargedTo p ≤ (e.undelivered p).card ↔ e.Punctual p := by
  intro e he p
  have hbegin :
      (Epoch.begin (MessageHandler.new products publisher)).Tracked p :=
    ⟨rfl, rfl⟩
  exact (tracked_epochs p cs _ _ hbegin (calls_of_completes hok) e
    he).charged_le_iff

/-- The heartbeat that mentions the trades 11 and 12 is handled before
their matches: both are delivered, and both stay counted lost. -/
theorem delivered_trades_counted_lost :
    (after ["BTC-USD"] RecordingPublisher
        [btcMatch 10, btcHeartbeat 12, btcMatch 11,
          btcMatch 12]).counters.messagesLostTotal = 2
      ∧ (epochsOf ["BTC-USD"] RecordingPublisher
        [btcMatch 10, btcHeartbeat 12, btcMatch 11, btcMatch 12]).map
          (fun e => (e.chargedTo "BTC-USD", e.undelivered "BTC-USD"))
        = [(2, ∅)] := by
  decide +kernel

/-- A heartbeat behind the matches, a repeat and a lost trade. -/
theorem false_loss_iff_repeat :
    (epochsOf ["BTC-USD"] RecordingPublisher
        [btcMatch 10, btcHeartbeat 9, btcMatch 12, btcMatch 12]).Forall
      fun e => e.chargedTo "BTC-USD" ≤ (e.undelivered "BTC-USD").card
        ↔ e.Punctual "BTC-USD" :=
  List.forall_iff_forall_mem.mpr fun e he =>
    false_loss_iff ["BTC-USD"] RecordingPublisher _ (by decide +kernel) e he
      "BTC-USD"

end MarketPlatform.Consumer
