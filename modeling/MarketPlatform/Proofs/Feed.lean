/-
The trades the live path publishes.

# A raise publishes nothing

A handler publishes with its last statement, so a call that raises has
published nothing (`commits_call`): every statement before the publish
leaves the publisher alone, and the publish itself, when it raises,
keeps no message. It is the judgment `Commits` of the library, passed
through each handler by `PassesOver`.

# The trades

After any calls, each of which may have raised, the trades published are
the records of the matches whose calls returned (`trades_serve`). What a
record is depends on the message and its time alone (`tradeRecord`), so
this says which trades the warehouse can have from the live path without
following the handler's state. The induction is over the calls; one call
is `trades_call`.
-/
import MarketPlatform.Proofs.Handling

namespace MarketPlatform.Consumer.MessageHandler

open Lib EStateM

-- =================================================== what a raise leaves

/-- What has been published. -/
def sent (h : MessageHandler) : List Published := h.publisher.messages

/-- No statement before the publish sends anything. -/
theorem leaves_sent : Leaves sent where
  received := fun _ => Frame.of_modify fun _ => rfl
  recordLag := fun _ => Frame.of_modify fun _ => rfl
  beat := fun _ => Frame.of_modify fun _ => rfl
  onBook := fun p x h => by
    obtain ⟨books, hbooks⟩ := state_onBook p x h
    rw [hbooks]
    rfl
  trackContinuity := fun p v h => by
    rw [run_trackContinuity]
    rfl
  trackHeartbeat := fun p v h => by
    rw [run_trackHeartbeat]
    exact congrArg Publisher.messages (heartbeatTracked_frame h p v).1
  checkCrossed := fun p h => by
    rw [state_checkCrossed]
    obtain ⟨f, hf, -⟩ := crossChecked_eq h p
    rw [hf]
    rfl

/-- A refused message is not sent. -/
theorem commits_publish (m : Published) : Commits sent (publish m) := by
  intro h
  rw [run_publish]
  cases hr : h.publisher.refuses h.publisher.calls with
  | false =>
      intro herr
      cases herr
  | true =>
      intro _
      show (h.publisher.publish m).messages = h.publisher.messages
      rw [Publisher.publish, hr]
      rfl

/-- So a handler that raises has sent nothing, if its last statement has
not. -/
theorem passesOver_commits : PassesOver sent (Commits sent) where
  bind := Frame.commits_bind
  publish := commits_publish
  frame := fun _ => Frame.commits

/-- A call that raises has published nothing. -/
theorem commits_call (c : Call) : Commits sent (call c) := by
  cases c with
  | handle msg t => exact passesOver_commits.handle leaves_sent msg t
  | onDisconnect =>
      have hreset : Frame sent (modify onDisconnect : Handling) :=
        Frame.of_modify fun _ => rfl
      exact hreset.commits

-- ============================================================= the trades

/-- The record of a match. -/
def tradeRecord : Call → Option Trade
  | .handle msg t =>
      match typeOf msg, tradeOf msg t with
      | .match_, .ok r => some r.1
      | _, _ => none
  | .onDisconnect => none

/-- A record is that of a match which can be read. -/
theorem of_tradeRecord {c : Call} {m : Trade} (h : tradeRecord c = some m) :
    ∃ msg t lag, c = .handle msg t ∧ typeOf msg = .match_
      ∧ tradeOf msg t = .ok (m, lag) := by
  cases c with
  | onDisconnect => cases h
  | handle msg t =>
      rw [tradeRecord] at h
      split at h
      · next r htype hof =>
          obtain rfl := Option.some.inj h
          exact ⟨msg, t, r.2, rfl, htype, hof⟩
      · cases h

/-- Calls one after the other, those that raise included. -/
def serve (h : MessageHandler) (cs : List Call) : MessageHandler :=
  cs.foldl (fun h c => ((call c).run h).state) h

/-- The calls that return. -/
def returned (h : MessageHandler) : List Call → List Call
  | [] => []
  | c :: cs =>
      if ((call c).run h).isOk then c :: returned ((call c).run h).state cs
      else returned ((call c).run h).state cs

/-- A call that returns is one of the calls, and returns from some
handler. -/
theorem of_mem_returned {c : Call} {cs : List Call} {h : MessageHandler}
    (hc : c ∈ h.returned cs) :
    c ∈ cs ∧ ∃ k, ((call c).run k).isOk = true := by
  induction cs generalizing h with
  | nil => cases hc
  | cons d ds ih =>
      rw [returned] at hc
      split at hc
      · next hok =>
          rcases List.mem_cons.mp hc with rfl | hc
          · exact ⟨List.mem_cons_self, h, hok⟩
          · exact (ih hc).imp_left (List.mem_cons_of_mem d)
      · exact (ih hc).imp_left (List.mem_cons_of_mem d)

/-- A publish that returns adds its record, if it is a trade. -/
theorem trades_publish {m : Published} {h h' : MessageHandler}
    (hrun : (publish m).run h = .ok () h') :
    h'.publisher.trades = h.publisher.trades
      ++ match m.payload with
        | .trades t => [t]
        | _ => [] := by
  obtain ⟨-, hmsgs⟩ := run_publish_ok hrun
  rw [Publisher.trades, hmsgs, List.filterMap_append]
  cases hp : m.payload <;> simp [hp, Publisher.trades]

/-- A match whose call returns has a record. -/
theorem tradeRecord_of_isOk {msg : Json} {t : Int} {h : MessageHandler}
    (hok : ((call (.handle msg t)).run h).isOk = true)
    (htype : typeOf msg = .match_) :
    ∃ m lag, tradeOf msg t = .ok (m, lag)
      ∧ tradeRecord (.handle msg t) = some m := by
  have hrun : (handle msg t).run h = .ok () _ := Result.eq_ok_of_isOk hok
  cases handle_ok hrun with
  | trade m lag _ hof _ =>
      refine ⟨m, lag, hof, ?_⟩
      rw [tradeRecord, htype, hof]
  | snapshot _ _ _ htype' => rw [htype] at htype'; cases htype'
  | update _ _ _ htype' => rw [htype] at htype'; cases htype'
  | heartbeat _ htype' => rw [htype] at htype'; cases htype'
  | ignored htype' => rw [htype] at htype'; cases htype'

/-- A message that is handled adds its record, if it is a match. -/
theorem trades_handle {msg : Json} {t : Int} {h h' : MessageHandler}
    (hrun : (handle msg t).run h = .ok () h') :
    h'.publisher.trades
      = h.publisher.trades ++ (tradeRecord (.handle msg t)).toList := by
  cases handle_ok hrun with
  | trade trade lag htype hof hpub =>
      rw [tradeRecord, htype, hof]
      exact trades_publish hpub
  | snapshot s b b' htype hof hbook happly hpub =>
      rw [tradeRecord, htype]
      exact trades_publish hpub
  | update u b b' htype hof hbook happly hpub =>
      obtain ⟨f, hf, -⟩ := crossChecked_eq
        { h.withCounters (·.recordMessage "l2") with
          books := h.books.put u.event.productId b' } u.event.productId
      rw [hf] at hpub
      rw [tradeRecord, htype]
      exact trades_publish hpub
  | heartbeat beat htype hof hpub =>
      have htrades := trades_publish hpub
      rw [(heartbeatTracked_frame _ _ _).1] at htrades
      rw [tradeRecord, htype]
      exact htrades
  | ignored htype hsame =>
      rw [hsame, tradeRecord, htype]
      exact (List.append_nil _).symm

/-- A call adds its record when it returns, and nothing when it
raises. -/
theorem trades_call (c : Call) (h : MessageHandler) :
    ((call c).run h).state.publisher.trades = h.publisher.trades
      ++ if ((call c).run h).isOk then (tradeRecord c).toList else [] := by
  by_cases hok : ((call c).run h).isOk = true
  · rw [if_pos hok]
    cases c with
    | handle msg t => exact trades_handle (Result.eq_ok_of_isOk hok)
    | onDisconnect => exact (List.append_nil _).symm
  · rw [if_neg hok, List.append_nil]
    have hsent := commits_call c h (Bool.eq_false_of_not_eq_true hok)
    exact congrArg (List.filterMap _) hsent

/-- After any calls, the trades published are the records of the matches
whose calls returned. By induction on the calls. -/
theorem trades_serve (h : MessageHandler) (cs : List Call) :
    (h.serve cs).publisher.trades
      = h.publisher.trades ++ (h.returned cs).filterMap tradeRecord := by
  induction cs generalizing h with
  | nil => exact (List.append_nil _).symm
  | cons c cs ih =>
      have hstep : h.serve (c :: cs) = ((call c).run h).state.serve cs := rfl
      rw [hstep, ih, trades_call, returned]
      by_cases hok : ((call c).run h).isOk = true
      · rw [if_pos hok, if_pos hok, List.append_assoc]
        cases hc : tradeRecord c <;> simp [hc]
      · rw [if_neg hok, if_neg hok, List.append_nil]

end MarketPlatform.Consumer.MessageHandler
