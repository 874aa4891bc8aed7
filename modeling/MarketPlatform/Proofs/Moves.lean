/-
What one step of the consumer can do.

# Why it is said once

`step` is a function of the phase and the event, and most of their pairs
leave the consumer alone. An invariant that is proved by going through
the pairs meets every idle one again. `Moves` has instead one
constructor for each thing that a step does, with what must hold for it
and what it is seen to do, and a single constructor for all the pairs
that do nothing. Only `moves_step` goes through the pairs. The sessions
of a run, the way out of the loop, the backoff, what the handler
remembers of the heartbeats and the counts that no step writes are
invariants proved by cases on `Moves`.

# What a constructor carries

Each names the phase it happens in, and its guards: `handles` knows that
the loop is not stopping, that the text decodes to the message and where
the outcome of `handle` leads; `breaks` is the one way out of a
connection that skips `on_disconnect`. What the watchdog finds is left
open in `checks`: it is a fact about `check`, and these invariants hold
whatever it answers.

# Runs

`run_induction` takes a property of the acts so far and the consumer
that every move keeps to the end of a run.
-/
import MarketPlatform.Consumer.WsClient

namespace MarketPlatform.Consumer.WebSocketConsumer

open Lib EStateM MessageHandler

variable (config : Config)

-- ================================================================ the moves

/-- The handler after the end of a connection. -/
def reconnected (h : MessageHandler) : MessageHandler :=
  h.onDisconnect.withCounters fun c =>
    { c with websocketReconnectsTotal := c.websocketReconnectsTotal + 1 }

/-- The events that can happen in a phase. -/
def able : Phase → Event → Bool
  | _, .stop => true
  | .top, .enter => true
  | .connecting, .connected _ => true
  | .consuming _, .raw _ _ => true
  | .consuming w, .tick _ => w = .sleeping
  | .consuming _, .closed _ => true
  | .leaving _ _, .unwind => true
  | .backingOff, .wake => true
  | _, _ => false

/-- A step, what it makes of the consumer, and what it is seen to do. -/
inductive Moves (s : WebSocketConsumer) :
    Event → WebSocketConsumer → List Act → Prop where
  | idle (e : Event) (unable : able s.phase e = false) : Moves s e s []
  | stops : Moves s .stop { s with stopping := true } []
  | returns (phase : s.phase = .top) (stopping : s.stopping = true) :
      Moves s .enter { s with phase := .exited } []
  | opens (phase : s.phase = .top) (going : s.stopping = false) :
      Moves s .enter { s with phase := .connecting } [.opening]
  | connects (w : Watchdog) (phase : s.phase = .connecting)
      (task : w = if s.stopping then .returned else .sleeping) :
      Moves s (.connected true)
        { s with backoff := config.backoffInitialS, phase := .consuming w } []
  | refused (phase : s.phase = .connecting) :
      Moves s (.connected false) { s with phase := .leaving true none } []
  /-- The reader gives up: stopping, or on a text that is not JSON. -/
  | abandons (text : String) (now : Int) (raised : Bool) (w : Watchdog)
      (phase : s.phase = .consuming w) :
      Moves s (.raw text now)
        { s with phase := .leaving raised (some w) } []
  | handles (text : String) (now : Int) (message : Json) (w : Watchdog)
      (after : Phase) (phase : s.phase = .consuming w)
      (going : s.stopping = false) (decoded : Json.loads text = some message)
      (goes : after = if ((handle message now).run s.handler).isOk then
        .consuming w else .leaving true (some w)) :
      Moves s (.raw text now)
        { s with
          handler := ((handle message now).run s.handler).state
          phase := after }
        [.handled message now]
  | checks (now : Int) (w : Watchdog) (acts : List Act)
      (phase : s.phase = .consuming .sleeping)
      (seen : acts = if w = .raised then [.stalled] else []) :
      Moves s (.tick now) { s with phase := .consuming w } acts
  | closes (error : Bool) (w : Watchdog) (phase : s.phase = .consuming w) :
      Moves s (.closed error)
        { s with phase := .leaving error (some w) } []
  /-- An exception while stopping ends `run` on the spot. -/
  | breaks (raised : Bool) (w : Option Watchdog)
      (phase : s.phase = .leaving raised w) (stopping : s.stopping = true) :
      Moves s .unwind { s with phase := .exited } []
  | ends (raised : Bool) (w : Option Watchdog) (after : Phase)
      (phase : s.phase = .leaving raised w)
      (goes : after = if s.stopping then .exited else .backingOff) :
      Moves s .unwind
        { s with handler := reconnected s.handler, phase := after }
        [.disconnected]
  | wakes (phase : s.phase = .backingOff) :
      Moves s .wake
        { s with
          backoff := min (s.backoff * 2) config.backoffMaxS
          phase := .top } []

/-- A step does one of these things. By cases on the event and the
phase; a pair that `step` does not list is idle. -/
theorem moves_step (s : WebSocketConsumer) (e : Event) :
    Moves config s e (step config s e).1 (step config s e).2 := by
  cases e with
  | enter =>
      cases hph : s.phase with
      | top =>
          simp only [step, hph]
          split
          · next hstop => exact .returns hph hstop
          · next hgo => exact .opens hph (eq_false_of_ne_true hgo)
      | _ => simpa only [step, hph] using .idle _ (by rw [hph]; rfl)
  | connected ok =>
      cases hph : s.phase with
      | connecting =>
          cases ok with
          | true => simpa only [step, hph] using .connects _ hph rfl
          | false => simpa only [step, hph] using .refused hph
      | _ =>
          cases ok <;>
            simpa only [step, hph] using .idle _ (by rw [hph]; rfl)
  | raw text now =>
      cases hph : s.phase with
      | consuming w =>
          simp only [step, hph, receive]
          split
          · exact .abandons text now false w hph
          · next hgo =>
              split
              · exact .abandons text now true w hph
              · next message hloads =>
                  exact .handles text now message w _ hph
                    (eq_false_of_ne_true hgo) hloads rfl
      | _ => simpa only [step, hph] using .idle _ (by rw [hph]; rfl)
  | tick now =>
      cases hph : s.phase with
      | consuming w =>
          cases w with
          | sleeping => simpa only [step, hph] using .checks now _ _ hph rfl
          | _ => simpa only [step, hph] using .idle _ (by rw [hph]; rfl)
      | _ => simpa only [step, hph] using .idle _ (by rw [hph]; rfl)
  | closed error =>
      cases hph : s.phase with
      | consuming w => simpa only [step, hph] using .closes error w hph
      | _ => simpa only [step, hph] using .idle _ (by rw [hph]; rfl)
  | unwind =>
      cases hph : s.phase with
      | leaving raised w =>
          simp only [step, hph, unwind]
          split
          · next hstop =>
              simp only [Bool.and_eq_true] at hstop
              exact .breaks raised w hph hstop.2
          · exact .ends raised w _ hph rfl
      | _ => simpa only [step, hph] using .idle _ (by rw [hph]; rfl)
  | wake =>
      cases hph : s.phase with
      | backingOff => simpa only [step, hph] using .wakes hph
      | _ => simpa only [step, hph] using .idle _ (by rw [hph]; rfl)
  | stop => exact .stops

/-- An invariant of the acts so far and the consumer that every step
keeps holds of the acts and the consumer of a run. By induction on the
events. -/
theorem run_induction {I : List Act → WebSocketConsumer → Prop}
    (hstep : ∀ s e s' acts seen, Moves config s e s' acts →
      I seen s → I (seen ++ acts) s')
    (es : List Event) {s : WebSocketConsumer} {seen : List Act}
    (h : I seen s) : I (seen ++ trace config s es) (run config s es) := by
  induction es generalizing s seen with
  | nil => simpa only [trace, run, List.append_nil] using h
  | cons e es ih =>
      rw [trace, run, ← List.append_assoc]
      exact ih (hstep _ _ _ _ _ (moves_step config s e) h)

end MarketPlatform.Consumer.WebSocketConsumer
