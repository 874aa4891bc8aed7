/-
What one call does to a product's book and to its published l2 events.

The results about the l2 stream are about two things a call can change:
the book of a product, and the events published under that product's
key. Both are changed by the same message, and in a different order in
the two handlers: the book is written first and the event published
last, so that a publisher that refuses leaves a book whose event is
missing.

# The message of a call

`readMessage` is what a call's l2 message says once it is read: a
snapshot or an l2update, with the product, the time and the levels. It
is computed from the message alone, before any state is looked at, with
the parts of the handler that read the message (`snapshotOf`,
`updateOf`). `messageIn p` keeps it when it names `p`.

# One step

`L2Step` says what a call that returns does to a product, in three
cases. It handles an l2 message of the product, which is applied to the
book and whose event is appended; or it disconnects, which resets the
book and publishes nothing; or it leaves both alone, as a message of
another product or of another channel does. The cases say everything
later proofs need, so none of them unfolds a handler again.

A call that raises has published nothing (`commits_call`), though it may
have changed the book. So after any calls, whether or not some of them
raise, the events published under a product's key are those of its l2
messages whose calls returned (`l2_serve`).
-/
import MarketPlatform.Proofs.Feed

namespace MarketPlatform.Consumer

open Lib EStateM MessageHandler OrderBook

-- ============================================================ l2 messages

/-- An l2 message that was read. -/
inductive L2Message where
  | snapshot (s : Snapshot)
  | update (u : Update)

namespace L2Message

/-- What it publishes. -/
def event : L2Message → L2Event
  | .snapshot s => s.event
  | .update u => u.event

/-- What it does to the book. -/
def apply : L2Message → EStateM Exc OrderBook Unit
  | .snapshot s => applySnapshot s.bids s.asks
  | .update u => applyUpdates u.changes

end L2Message

/-- The l2 message a call handles. -/
def readMessage : Call → Option L2Message
  | .handle msg t =>
      match typeOf msg with
      | .snapshot => (snapshotOf msg t).toOption.map .snapshot
      | .l2update => (updateOf msg t).toOption.map .update
      | _ => none
  | .onDisconnect => none

/-- The l2 message of a product that a call handles. -/
def messageIn (p : String) (c : Call) : Option L2Message :=
  (readMessage c).filter fun m => m.event.productId = p

theorem messageIn_eq_some_iff {p : String} {c : Call} {m : L2Message} :
    messageIn p c = some m
      ↔ readMessage c = some m ∧ m.event.productId = p := by
  rw [messageIn, Option.filter_eq_some_iff, decide_eq_true_eq]

theorem messageIn_of_read {p : String} {c : Call} {m : L2Message}
    (h : readMessage c = some m) :
    messageIn p c = if m.event.productId = p then some m else none := by
  rw [messageIn, h]
  by_cases hp : m.event.productId = p
  · rw [if_pos hp, Option.filter_some, if_pos (decide_eq_true hp)]
  · rw [if_neg hp, Option.filter_some, if_neg (by simpa using hp)]

section Read

variable {msg : Json} {t : Int}

theorem readMessage_snapshot {s : Snapshot} (type : typeOf msg = .snapshot)
    (of : snapshotOf msg t = .ok s) :
    readMessage (.handle msg t) = some (.snapshot s) := by
  rw [readMessage, type, of]
  rfl

theorem readMessage_update {u : Update} (type : typeOf msg = .l2update)
    (of : updateOf msg t = .ok u) :
    readMessage (.handle msg t) = some (.update u) := by
  rw [readMessage, type, of]
  rfl

theorem readMessage_other (hsnapshot : typeOf msg ≠ .snapshot)
    (hupdate : typeOf msg ≠ .l2update) :
    readMessage (.handle msg t) = none := by
  rw [readMessage]
  split
  · next htype => exact absurd htype hsnapshot
  · next htype => exact absurd htype hupdate
  · rfl

/-- A message that is read is read from the message handled. -/
theorem of_readMessage {c : Call} {m : L2Message}
    (h : readMessage c = some m) :
    ∃ msg t, c = .handle msg t
      ∧ ((∃ s, m = .snapshot s ∧ typeOf msg = .snapshot
          ∧ snapshotOf msg t = .ok s)
        ∨ ∃ u, m = .update u ∧ typeOf msg = .l2update
          ∧ updateOf msg t = .ok u) := by
  cases c with
  | onDisconnect => cases h
  | handle msg t =>
      refine ⟨msg, t, rfl, ?_⟩
      rw [readMessage] at h
      split at h
      · next htype =>
          left
          obtain ⟨s, hs, rfl⟩ := Option.map_eq_some_iff.mp h
          cases hof : snapshotOf msg t with
          | error e => rw [hof] at hs; cases hs
          | ok s' =>
              rw [hof] at hs
              obtain rfl := Option.some.inj hs
              exact ⟨s', rfl, htype, rfl⟩
      · next htype =>
          right
          obtain ⟨u, hu, rfl⟩ := Option.map_eq_some_iff.mp h
          cases hof : updateOf msg t with
          | error e => rw [hof] at hu; cases hu
          | ok u' =>
              rw [hof] at hu
              obtain rfl := Option.some.inj hu
              exact ⟨u', rfl, htype, rfl⟩
      · cases h

end Read

-- ============================================================== publishing

/-- Publishing an l2 event appends it to its key's events. -/
theorem l2_publish {e : L2Event} {key : String} {h h' : MessageHandler}
    (hrun : (publish ⟨.l2 e, key⟩).run h = .ok () h') (p : String) :
    h'.publisher.l2 p
      = h.publisher.l2 p ++ if key = p then [e] else [] := by
  obtain ⟨-, hmsgs⟩ := run_publish_ok hrun
  rw [Publisher.l2, hmsgs, List.filterMap_append]
  by_cases hp : key = p <;> simp [hp, Publisher.l2]

/-- Publishing on another channel leaves the l2 events. -/
theorem l2_publish_other {m : Published} {h h' : MessageHandler}
    (hrun : (publish m).run h = .ok () h')
    (hm : ∀ e, m.payload ≠ .l2 e) (p : String) :
    h'.publisher.l2 p = h.publisher.l2 p := by
  obtain ⟨-, hmsgs⟩ := run_publish_ok hrun
  rw [Publisher.l2, hmsgs, List.filterMap_append]
  cases hp : m.payload with
  | l2 e => exact absurd hp (hm e)
  | trades t => simp [hp, Publisher.l2]
  | heartbeat t => simp [hp, Publisher.l2]

/-- The book of another product. -/
theorem put_of_ne {books : BookSet} {p q : String} {b : OrderBook}
    (h : q ≠ p) : books.put p b q = books q := if_neg h

-- ================================================================ one call

/-- What a call that returns does, as far as a product's book goes. An
l2 message is applied to a book that is there: a product without a book
makes the call raise. -/
inductive L2Step (p : String) (c : Call) (h h' : MessageHandler) : Prop
  | message (m : L2Message) (b b' : OrderBook)
      (is : messageIn p c = some m)
      (book : h.books p = some b)
      (applied : m.apply.run b = .ok () b')
      (book' : h'.books p = some b')
      (sent : h'.publisher.l2 p = h.publisher.l2 p ++ [m.event])
  | disconnect (is : c = .onDisconnect)
      (book' : h'.books p = (h.books p).map OrderBook.reset)
      (sent : h'.publisher.l2 p = h.publisher.l2 p)
  | other (no : messageIn p c = none) (connected : c ≠ .onDisconnect)
      (book' : h'.books p = h.books p)
      (sent : h'.publisher.l2 p = h.publisher.l2 p)

section Step

variable {p : String} {msg : Json} {t : Int} {h h' : MessageHandler}

/-- An l2 message: it is applied to its own product's book, and
published under that product's key. -/
theorem l2Step_message {m : L2Message} {b b' : OrderBook}
    {g : MessageHandler} (read : readMessage (.handle msg t) = some m)
    (book : h.books m.event.productId = some b)
    (applied : m.apply.run b = .ok () b')
    (run : (publish ⟨.l2 m.event, m.event.productId⟩).run g = .ok () h')
    (hbooks : g.books = h.books.put m.event.productId b')
    (hpub : g.publisher = h.publisher) :
    L2Step p (.handle msg t) h h' := by
  have hsent := l2_publish run p
  have his := messageIn_of_read (p := p) read
  have hbook : h'.books p = h.books.put m.event.productId b' p := by
    obtain ⟨rfl, -⟩ := run_publish_ok run
    exact congrFun hbooks p
  rw [hpub] at hsent
  by_cases hp : m.event.productId = p
  · rw [if_pos hp] at hsent his
    exact .message m b b' his (hp ▸ book) applied
      (hbook.trans (if_pos hp.symm)) hsent
  · rw [if_neg hp] at hsent his
    rw [List.append_nil] at hsent
    exact .other his (by simp) (hbook.trans (put_of_ne (Ne.symm hp))) hsent

/-- A message of another kind. -/
theorem l2Step_other (hsnapshot : typeOf msg ≠ .snapshot)
    (hupdate : typeOf msg ≠ .l2update)
    (hbook : h'.books p = h.books p)
    (hsent : h'.publisher.l2 p = h.publisher.l2 p) :
    L2Step p (.handle msg t) h h' := by
  refine .other ?_ (by simp) hbook hsent
  rw [messageIn, readMessage_other hsnapshot hupdate]
  rfl

/-- A message that is handled is a step of the product. By the type of
the message: the two l2 handlers apply and publish, the others touch
neither the book nor the l2 events. -/
theorem l2Step_handle (p : String)
    (hrun : (handle msg t).run h = .ok () h') :
    L2Step p (.handle msg t) h h' := by
  cases handle_ok hrun with
  | trade trade lag type of run =>
      have hsent := l2_publish_other run (fun e => by simp) p
      obtain ⟨rfl, -⟩ := run_publish_ok run
      exact l2Step_other (by simp [type]) (by simp [type]) rfl hsent
  | snapshot s b b' type of book applied run =>
      exact l2Step_message (readMessage_snapshot type of) book applied run
        rfl rfl
  | update u b b' type of book applied run =>
      obtain ⟨f, hf, -⟩ := crossChecked_eq
        { h.withCounters (·.recordMessage "l2") with
          books := h.books.put u.event.productId b' } u.event.productId
      rw [hf] at run
      exact l2Step_message (readMessage_update type of) book applied run
        rfl rfl
  | heartbeat beat type of run =>
      obtain ⟨hpub, hbooks⟩ := heartbeatTracked_frame
        { h.withCounters (·.recordMessage "heartbeat") with
          lastHeartbeatAt := some t } beat.productId beat.lastTradeId
      have hsent := l2_publish_other run (fun e => by simp) p
      rw [hpub] at hsent
      obtain ⟨rfl, -⟩ := run_publish_ok run
      exact l2Step_other (by simp [type]) (by simp [type])
        (congrFun hbooks p) hsent
  | ignored type same =>
      subst same
      exact l2Step_other (by simp [type]) (by simp [type]) rfl rfl

theorem l2Step_call (p : String) {c : Call}
    (hrun : (call c).run h = .ok () h') : L2Step p c h h' := by
  cases c with
  | handle msg t => exact l2Step_handle p hrun
  | onDisconnect =>
      obtain rfl : h.onDisconnect = h' := congrArg Result.state hrun
      exact .disconnect rfl rfl rfl

/-- What a call that returns publishes under a product's key. -/
theorem L2Step.l2 {c : Call} (hstep : L2Step p c h h') :
    h'.publisher.l2 p = h.publisher.l2 p
      ++ ((messageIn p c).map L2Message.event).toList := by
  cases hstep with
  | message m b b' is _ _ _ sent =>
      rw [is, sent]
      rfl
  | disconnect is _ sent =>
      rw [is, sent]
      exact (List.append_nil _).symm
  | other no _ _ sent =>
      rw [no, sent]
      exact (List.append_nil _).symm

end Step

-- ============================================================= whole runs

/-- The l2 messages of a product among calls. -/
def messagesIn (p : String) (cs : List Call) : List L2Message :=
  cs.filterMap (messageIn p)

/-- After any calls, the events published under a product's key are
those of its l2 messages whose calls returned. By induction on the
calls: one that returns is an `L2Step`, one that raises has published
nothing. -/
theorem l2_serve (p : String) (h : MessageHandler) (cs : List Call) :
    (h.serve cs).publisher.l2 p = h.publisher.l2 p
      ++ (messagesIn p (h.returned cs)).map L2Message.event := by
  induction cs generalizing h with
  | nil => exact (List.append_nil _).symm
  | cons c cs ih =>
      have hstep : h.serve (c :: cs) = ((call c).run h).state.serve cs := rfl
      rw [hstep, ih, returned]
      by_cases hok : ((call c).run h).isOk = true
      · rw [if_pos hok, (l2Step_call p (Result.eq_ok_of_isOk hok)).l2,
          List.append_assoc]
        cases hc : messageIn p c <;> simp [messagesIn, hc]
      · rw [if_neg hok]
        have hsent := commits_call c h (Bool.eq_false_of_not_eq_true hok)
        rw [show ((call c).run h).state.publisher.l2 p
          = h.publisher.l2 p from congrArg (List.filterMap _) hsent]

/-- Calls of which none raises: serving them is running them, and all of
them have returned. -/
theorem serve_of_calls {cs : List Call} {h h' : MessageHandler}
    (hrun : (calls cs).run h = .ok () h') :
    h.serve cs = h' ∧ h.returned cs = cs := by
  induction cs generalizing h with
  | nil =>
      cases hrun
      exact ⟨rfl, rfl⟩
  | cons c cs ih =>
      obtain ⟨h₁, hcall, hrest⟩ := calls_cons_ok hrun
      obtain ⟨hserve, hreturned⟩ := ih hrest
      refine ⟨?_, ?_⟩
      · show ((call c).run h).state.serve cs = h'
        rw [hcall]
        exact hserve
      · rw [returned, hcall]
        exact congrArg (c :: ·) hreturned

theorem l2_calls (p : String) {cs : List Call} {h h' : MessageHandler}
    (hrun : (calls cs).run h = .ok () h') :
    h'.publisher.l2 p = h.publisher.l2 p
      ++ (messagesIn p cs).map L2Message.event := by
  obtain ⟨rfl, hreturned⟩ := serve_of_calls hrun
  rw [l2_serve, hreturned]

end MarketPlatform.Consumer
