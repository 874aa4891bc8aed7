/-
What is counted and what is published.

A handler counts a message on its channel before it reads the rest of
it, and publishes with its last statement. Between the two it may raise:
on a field that is missing, on a number that does not parse, or because
the publisher refuses. So a message may be counted and not published,
but only one whose handling raised, and that ends the connection.

# One message

`Adds` is what handling a message adds to the counts and to the
published messages, told apart by whether the call returned. A message
of a type that is not handled adds nothing. One that raised adds nothing
or its count. One that returned adds its count and the message, on the
channel of its payload.

# The ledger

`Ledger` is kept by every step of the consumer (`Ledger.moves`). It says
of each channel that no more has been published than counted. Of the
total it says that the messages counted and not published are at most
one for each connection that has ended, and one more for the connection
that is ending (`mayBeUnpublished`). A connection that ends because a
message raised moves its possible message from the second count to the
first when the reconnect is counted.

The bound is one a connection and not one a message: whatever the feed
sends, a connection loses at most one message between its counters and
its topic.
-/
import MarketPlatform.Proofs.Totals

namespace MarketPlatform.Consumer

open Lib EStateM

-- ================================================================= counting

namespace Counters

/-- How often a channel has been counted. -/
def receivedOn (received : List (String × Nat)) (channel : String) : Nat :=
  (received.lookup channel).getD 0

/-- How many messages have been counted. -/
def receivedTotal (received : List (String × Nat)) : Nat :=
  (received.map Prod.snd).sum

theorem receivedOn_cons (c : String) (n : Nat) (rest : List (String × Nat))
    (key : String) :
    receivedOn ((c, n) :: rest) key
      = if key = c then n else receivedOn rest key := by
  unfold receivedOn
  rw [List.lookup_cons]
  by_cases hk : key = c
  · simp [hk]
  · simp [hk, beq_eq_false_iff_ne.mpr hk]

theorem receivedOn_bump (channel key : String)
    (received : List (String × Nat)) :
    receivedOn (bump channel received) key
      = receivedOn received key + if key = channel then 1 else 0 := by
  induction received with
  | nil =>
      rw [bump, receivedOn_cons]
      exact (Nat.zero_add _).symm
  | cons r rest ih =>
      obtain ⟨c, n⟩ := r
      by_cases hc : c = channel
      · rw [bump, if_pos hc, receivedOn_cons, receivedOn_cons, hc]
        split <;> rfl
      · rw [bump, if_neg hc, receivedOn_cons, receivedOn_cons, ih]
        by_cases hk : key = c
        · rw [if_pos hk, if_pos hk, if_neg (hk ▸ hc)]
          rfl
        · rw [if_neg hk, if_neg hk]

theorem receivedTotal_bump (channel : String)
    (received : List (String × Nat)) :
    receivedTotal (bump channel received) = receivedTotal received + 1 := by
  induction received with
  | nil => rfl
  | cons r rest ih =>
      obtain ⟨c, n⟩ := r
      by_cases hc : c = channel
      · simp only [receivedTotal, bump, if_pos hc, List.map_cons,
          List.sum_cons]
        omega
      · simp only [receivedTotal, bump, if_neg hc, List.map_cons,
          List.sum_cons] at ih ⊢
        omega

end Counters

namespace MessageHandler

/-- What has been counted. -/
def received (h : MessageHandler) : List (String × Nat) :=
  h.counters.messagesReceived

/-- What handling a message adds: it is counted at most once, and what it
publishes has been counted. -/
inductive Adds (h h' : MessageHandler) : Bool → Prop where
  | nothing (ok : Bool) (received : h'.received = h.received)
      (sent : h'.sent = h.sent) : Adds h h' ok
  | counted (channel : String)
      (received : h'.received = Counters.bump channel h.received)
      (sent : h'.sent = h.sent) : Adds h h' false
  | published (m : Published)
      (received : h'.received = Counters.bump m.payload.channel h.received)
      (sent : h'.sent = h.sent ++ [m]) : Adds h h' true

/-- A message is counted once, if at all. -/
theorem received_handle (msg : Json) (t : Int) (h : MessageHandler) :
    ((handle msg t).run h).state.received = h.received
      ∨ ∃ channel, ((handle msg t).run h).state.received
        = Counters.bump channel h.received := by
  have hK : ∀ base : List (String × Nat),
      Counters.Tallied fun c => c.messagesReceived = base := fun base =>
    ⟨fun _ _ h => h, fun _ _ _ h => h, fun _ h => h, fun _ _ _ h => h,
      fun _ h => h⟩
  refine handle_of_parts hK (J := fun x => ∀ h : MessageHandler,
      (x.run h).state.received = h.received
        ∨ ∃ channel, (x.run h).state.received
          = Counters.bump channel h.received)
    (fun x f hf h => ?_) (fun channel _ f hf h => ?_)
    (fun _ => Or.inl rfl) (fun _ => Or.inl rfl) msg t h
  · cases x with
    | ok a => exact hf a h
    | error e => exact Or.inl rfl
  · exact Or.inr ⟨channel, hf (Counters.bump channel h.received) _ rfl⟩

theorem received_tracked (h : MessageHandler) (p : String) (v : Int) :
    (h.tracked p v).received = h.received := by
  unfold received tracked countObservation
  split <;> rfl

theorem received_heartbeatTracked (h : MessageHandler) (p : String)
    (v : Int) : (h.heartbeatTracked p v).received = h.received := by
  unfold received heartbeatTracked
  split
  · rfl
  · split <;> rfl

theorem received_crossChecked (h : MessageHandler) (p : String) :
    (h.crossChecked p).received = h.received
      ∧ (h.crossChecked p).publisher = h.publisher := by
  unfold received crossChecked
  split <;> exact ⟨rfl, rfl⟩

/-- A message whose handling does not raise is published, if it is of a
type that is handled. -/
theorem adds_of_handled {msg : Json} {t : Int} {h h' : MessageHandler}
    (hh : Handled msg t h h') : Adds h h' true := by
  cases hh with
  | trade trade lag type of run =>
      obtain ⟨rfl, hsent⟩ := run_publish_ok run
      have hreceived := received_tracked
        (h.withCounters (·.recordMessage "trades")) trade.productId
        trade.tradeId
      exact .published ⟨.trades trade, trade.productId⟩ hreceived hsent
  | snapshot s b b' type of book applied run =>
      obtain ⟨rfl, hsent⟩ := run_publish_ok run
      exact .published _ rfl hsent
  | update u b b' type of book applied run =>
      obtain ⟨rfl, hsent⟩ := run_publish_ok run
      obtain ⟨hreceived, hpublisher⟩ := received_crossChecked
        { h.withCounters (·.recordMessage "l2") with
          books := h.books.put u.event.productId b' } u.event.productId
      exact .published ⟨.l2 u.event, u.event.productId⟩ hreceived
        (hsent.trans (congrArg (·.messages ++ [_]) hpublisher))
  | heartbeat beat type of run =>
      obtain ⟨rfl, hsent⟩ := run_publish_ok run
      have hreceived := received_heartbeatTracked
        { h.withCounters (·.recordMessage "heartbeat") with
          lastHeartbeatAt := some t } beat.productId beat.lastTradeId
      exact .published ⟨.heartbeat beat, beat.productId⟩ hreceived
        (hsent.trans
          (congrArg (·.messages ++ [_]) (heartbeatTracked_frame _ _ _).1))
  | ignored type same =>
      subst same
      exact .nothing _ rfl rfl

/-- What handling a message adds, raise or not. -/
theorem adds_handle (msg : Json) (t : Int) (h : MessageHandler) :
    Adds h ((handle msg t).run h).state ((handle msg t).run h).isOk := by
  cases hrun : (handle msg t).run h with
  | ok a h' => exact adds_of_handled (handle_ok hrun)
  | error e h' =>
      have hsent : h'.sent = h.sent := by
        have hcommits := commits_call (.handle msg t) h
        rw [call, hrun] at hcommits
        exact hcommits rfl
      have hreceived := received_handle msg t h
      rw [hrun] at hreceived
      rcases hreceived with hsame | ⟨channel, hcounted⟩
      · exact .nothing _ hsame hsent
      · exact .counted channel hcounted hsent

end MessageHandler

-- ================================================================ the ledger

namespace WebSocketConsumer

open MessageHandler Counters

/-- A message whose handling raised may be behind a connection that is on
its way out, and behind `run` that has returned. -/
def mayBeUnpublished : Phase → Nat
  | .leaving true _ => 1
  | .exited => 1
  | _ => 0

/-- What has been published since the start, beside what has been
counted. -/
structure Ledger (publisher : Publisher) (s : WebSocketConsumer)
    (published : List Published) : Prop where
  sent : s.handler.sent = publisher.messages ++ published
  counted : ∀ channel, published.countP (·.payload.channel = channel)
    ≤ receivedOn s.handler.received channel
  total : (receivedTotal s.handler.received : Int) ≤ published.length
    + s.handler.counters.websocketReconnectsTotal + mayBeUnpublished s.phase

/-- A step that leaves the handler's messages and counts alone, and does
not forget a message that may be unpublished. -/
theorem Ledger.of_same {publisher : Publisher} {s s' : WebSocketConsumer}
    {published : List Published} (h : Ledger publisher s published)
    (hsent : s'.handler.sent = s.handler.sent)
    (hreceived : s'.handler.received = s.handler.received)
    (hmay : s.handler.counters.websocketReconnectsTotal
        + mayBeUnpublished s.phase
      ≤ s'.handler.counters.websocketReconnectsTotal
        + mayBeUnpublished s'.phase) : Ledger publisher s' published := by
  have htotal := h.total
  refine ⟨hsent.trans h.sent, fun channel => ?_, ?_⟩
  · rw [hreceived]
    exact h.counted channel
  · rw [hreceived]
    omega

/-- One step of the consumer keeps the ledger. By the kinds of step: a
message adds what `Adds` says, and its connection ends when it raised; a
connection that has ended counts a reconnect; nothing else counts or
publishes. -/
theorem Ledger.moves {publisher : Publisher} {config : Config}
    {s s' : WebSocketConsumer} {e : Event} {acts : List Act}
    {published : List Published} (h : Ledger publisher s published)
    (hm : Moves config s e s' acts) :
    ∃ published', Ledger publisher s' published' := by
  cases hm with
  | handles text now message w after phase going decoded goes =>
      have hadds := adds_handle message now s.handler
      have hends := (Prod.mk.inj (ends_handle message now s.handler)).1
      generalize (handle message now).run s.handler = r at hadds hends goes
      have hmay : mayBeUnpublished s.phase = 0 := by rw [phase]; rfl
      have hsent := h.sent
      have htotal := h.total
      generalize hok : r.isOk = ok at hadds goes
      cases hadds with
      | nothing _ received sent =>
          exact ⟨published, h.of_same sent received (by
            rw [hmay]
            show _ ≤ r.state.counters.websocketReconnectsTotal + _
            omega)⟩
      | counted channel received sent =>
          refine ⟨published, sent.trans hsent, fun key => ?_, ?_⟩
          · have hcounted := h.counted key
            show _ ≤ receivedOn r.state.received key
            rw [received, receivedOn_bump]
            omega
          · show (receivedTotal r.state.received : Int) ≤ published.length
              + r.state.counters.websocketReconnectsTotal
              + mayBeUnpublished after
            rw [received, receivedTotal_bump, goes]
            simp only [Bool.false_eq_true, if_false, mayBeUnpublished]
            omega
      | published m received sent =>
          refine ⟨published ++ [m], ?_, fun key => ?_, ?_⟩
          · show r.state.sent = _
            rw [sent, hsent, List.append_assoc]
          · have hcounted := h.counted key
            show _ ≤ receivedOn r.state.received key
            rw [received, receivedOn_bump, List.countP_append,
              List.countP_singleton]
            by_cases hkey : m.payload.channel = key <;> simp [hkey] <;> omega
          · show (receivedTotal r.state.received : Int)
              ≤ (published ++ [m]).length
              + r.state.counters.websocketReconnectsTotal
              + mayBeUnpublished after
            rw [received, receivedTotal_bump, List.length_append]
            simp only [List.length_singleton]
            omega
  | ends raised w after phase goes =>
      refine ⟨published, h.of_same rfl rfl ?_⟩
      have hmay : mayBeUnpublished s.phase ≤ 1 := by
        rw [phase]
        cases raised <;> simp [mayBeUnpublished]
      show _ ≤ s.handler.counters.websocketReconnectsTotal + 1 + _
      omega
  | breaks raised w phase stopping =>
      refine ⟨published, h.of_same rfl rfl ?_⟩
      rw [phase]
      cases raised <;> simp [mayBeUnpublished]
  | idle e unable => exact ⟨published, h⟩
  | stops => exact ⟨published, h.of_same rfl rfl le_rfl⟩
  | returns phase _ | opens phase _ | connects _ phase _ | refused phase
  | abandons _ _ _ _ phase | checks _ _ _ phase _ | closes _ _ phase
  | wakes phase =>
      exact ⟨published, h.of_same rfl rfl (by simp [phase, mayBeUnpublished])⟩

end WebSocketConsumer

namespace Main

open Counters WebSocketConsumer

/-- After any run of the program every message published has been counted
on its channel, and the messages counted and not published are at most one
for each connection that has ended, and one more while a connection is
ending or `run` has returned. -/
theorem published_ledger (config : Config) (publisher : Publisher)
    (steps : List Step) :
    ∃ published, Ledger publisher
      (run config (new config publisher) steps).consumer published := by
  have hnew : ∃ published, Ledger publisher
      (new config publisher).consumer published :=
    ⟨[], (List.append_nil _).symm, fun _ => Nat.zero_le _, le_rfl⟩
  have hstep : ∀ (m : Main) (step : Step),
      (∃ published, Ledger publisher m.consumer published) →
      ∃ published, Ledger publisher (m.step config step).consumer
        published := by
    intro m step h
    rcases consumer_step config m step with hsame | ⟨e, hmoves⟩
    · rwa [hsame]
    · obtain ⟨published, h⟩ := h
      rw [hmoves]
      exact h.moves (moves_step config m.consumer e)
  generalize new config publisher = m at hnew ⊢
  induction steps generalizing m with
  | nil => exact hnew
  | cons step steps ih => exact ih _ (hstep m step hnew)

end Main

end MarketPlatform.Consumer
