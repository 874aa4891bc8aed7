/-
Stall enforcement: what the watchdog's exception stops, and when.

The consumer runs two tasks on a connection. The reader handles messages
until the socket ends; the watchdog wakes every few seconds and raises
when no heartbeat has come for the timeout. It is there to force a
reconnect when heartbeats stop. Its exception, though, is stored in its
task, and the reader loop goes on until the socket ends: a message the
socket yields after the stall is still handled.
`stalled_feed_keeps_flowing` runs the two tasks together on a feed whose
heartbeats stop while trades continue.

# The monitor

`StallEnforced` reads the acts of a run and keeps one flag, that a stall
is outstanding. It allows no message to be handled while the flag is
set, until the connection is given up. The flag is not part of the
consumer, but it can be read off the consumer's phase (`Armed`): a stall
is outstanding while the watchdog has raised and the connection has not
been left.

# When it holds

`stall_enforced_iff` says exactly when the intent holds: in the runs in
which the socket yields no decodable message between the raise and the
end of the connection, unless the consumer is stopping
(`SilentAfterStall`). The condition is on the events and the state each
of them finds, not on what the consumer does with them.

The proof is one lemma for a step and one induction. A step is allowed
by the monitor exactly when it is not `Late`, and the flag follows the
phase (`stallEnforced_step`); so the monitor of a run from any state
agrees with the condition (`stallEnforced_trace`). Once `run` has
returned nothing more is seen, and the flag no longer matters.
-/
import MarketPlatform.Consumer.WsClient

namespace MarketPlatform.Consumer.WebSocketConsumer

open Lib EStateM MessageHandler

variable (config : Config)

-- =========================================================== the monitor

/-- No message is handled between a stall and the next `on_disconnect`
of the same connection. The flag says a stall is outstanding. -/
def StallEnforced : Bool → List Act → Prop
  | _, [] => True
  | _, .stalled :: as => StallEnforced true as
  | outstanding, .handled _ _ :: as =>
      outstanding = false ∧ StallEnforced outstanding as
  | _, .disconnected :: as => StallEnforced false as
  | _, .opening :: as => StallEnforced false as

instance decidableStallEnforced :
    (outstanding : Bool) → (as : List Act) →
      Decidable (StallEnforced outstanding as)
  | _, [] => isTrue trivial
  | _, .stalled :: as => decidableStallEnforced true as
  | outstanding, .handled _ _ :: as =>
      have := decidableStallEnforced outstanding as
      inferInstanceAs (Decidable (outstanding = false ∧ _))
  | _, .disconnected :: as => decidableStallEnforced false as
  | _, .opening :: as => decidableStallEnforced false as

/-- The socket yields a message the reader will decode although the
watchdog has raised. -/
def Late (s : WebSocketConsumer) : Event → Prop
  | .raw text _ =>
      s.phase = .consuming .raised ∧ s.stopping = false
        ∧ (Json.loads text).isSome
  | _ => False

/-- The socket is silent after every stall of the run. -/
def SilentAfterStall : WebSocketConsumer → List Event → Prop
  | _, [] => True
  | s, e :: es => ¬Late s e ∧ SilentAfterStall (step config s e).1 es

/-- A stall is outstanding: the watchdog has raised and the connection
has not been left. -/
def Armed : Phase → Bool
  | .consuming .raised => true
  | .leaving _ (some .raised) => true
  | _ => false

-- ========================================================= step by step

/-- A message read while no stall is outstanding, or while stopping, is
no breach; one read while a stall is outstanding is. -/
theorem stallEnforced_receive (s : WebSocketConsumer) (w : Watchdog)
    (text : String) (now : Int) (hw : s.phase = .consuming w)
    (as : List Act) :
    StallEnforced (Armed s.phase) ((receive s w text now).2 ++ as)
      ↔ ¬Late s (.raw text now)
        ∧ StallEnforced (Armed (receive s w text now).1.phase) as := by
  unfold receive Late
  cases hstop : s.stopping with
  | true => cases w <;> simp [hw, Armed]
  | false =>
      cases htext : Json.loads text with
      | none => cases w <;> simp [hw, htext, Armed]
      | some message =>
          have hphase : Armed (if ((handle message now).run
              s.handler).isOk then .consuming w
              else .leaving true (some w)) = Armed (.consuming w) := by
            cases w <;> split <;> rfl
          simp only [Bool.false_eq_true, if_false, hphase, hw]
          cases w <;> simp [htext, Armed, StallEnforced]

/-- Leaving a connection breaches nothing, and settles the stall unless
`run` returns. -/
theorem stallEnforced_unwind (s : WebSocketConsumer) (raised : Bool)
    (w : Option Watchdog) (outstanding : Bool) :
    (unwind s raised w).1.phase = .exited ∧ (unwind s raised w).2 = []
      ∨ Armed (unwind s raised w).1.phase = false
        ∧ ∀ as, StallEnforced outstanding ((unwind s raised w).2 ++ as)
          ↔ StallEnforced false as := by
  unfold unwind
  split
  · exact Or.inl ⟨rfl, rfl⟩
  · refine Or.inr ⟨?_, fun as => Iff.rfl⟩
    cases s.stopping <;> rfl

/-- What one step does to the monitor: the step is allowed exactly when
it is not late, and the flag follows the phase until `run` returns. By
cases on the event and the phase; only a message that is read can be a
breach. -/
theorem stallEnforced_step (s : WebSocketConsumer) (e : Event) :
    ∃ outstanding,
      (outstanding = Armed (step config s e).1.phase
        ∨ (step config s e).1.phase = .exited)
      ∧ ∀ as, StallEnforced (Armed s.phase) ((step config s e).2 ++ as)
        ↔ ¬Late s e ∧ StallEnforced outstanding as := by
  cases e with
  | raw text now =>
      cases hph : s.phase with
      | consuming w =>
          refine ⟨_, Or.inl rfl, fun as => ?_⟩
          have h := stallEnforced_receive s w text now hph as
          rw [hph] at h
          simpa only [step, hph] using h
      | _ => exact ⟨_, Or.inl rfl, by simp [step, hph, Late]⟩
  | unwind =>
      cases hph : s.phase with
      | leaving raised w =>
          have hstep : step config s .unwind = unwind s raised w := by
            simp only [step, hph]
          rw [hstep]
          rcases stallEnforced_unwind s raised w
            (Armed (.leaving raised w)) with ⟨hexit, hacts⟩ | ⟨harm, has⟩
          · exact ⟨Armed (.leaving raised w), Or.inr hexit,
              by simp [hacts, Late]⟩
          · exact ⟨false, Or.inl harm.symm, by simp [has, Late]⟩
      | _ => exact ⟨_, Or.inl rfl, by simp [step, hph, Late]⟩
  | tick now =>
      cases hph : s.phase with
      | consuming w =>
          cases w with
          | sleeping =>
              refine ⟨_, Or.inl rfl, fun as => ?_⟩
              simp only [step, hph]
              cases check config s now <;>
                simp [Armed, StallEnforced, Late]
          | _ => exact ⟨_, Or.inl rfl, by simp [step, hph, Late]⟩
      | _ => exact ⟨_, Or.inl rfl, by simp [step, hph, Late]⟩
  | enter =>
      cases hph : s.phase with
      | top =>
          refine ⟨_, Or.inl rfl, fun as => ?_⟩
          simp only [step, hph]
          cases s.stopping <;> simp [Armed, StallEnforced, Late]
      | _ => exact ⟨_, Or.inl rfl, by simp [step, hph, Late]⟩
  | connected ok =>
      cases hph : s.phase with
      | connecting =>
          refine ⟨_, Or.inl rfl, fun as => ?_⟩
          cases ok <;> cases hstop : s.stopping <;>
            simp [step, hph, hstop, Armed, Late]
      | _ => exact ⟨_, Or.inl rfl, by cases ok <;> simp [step, hph, Late]⟩
  | closed error =>
      cases hph : s.phase with
      | consuming w =>
          refine ⟨_, Or.inl rfl, fun as => ?_⟩
          cases w <;> simp [step, hph, Armed, Late]
      | _ => exact ⟨_, Or.inl rfl, by simp [step, hph, Late]⟩
  | wake =>
      cases hph : s.phase with
      | backingOff => exact ⟨_, Or.inl rfl, by simp [step, hph, Armed, Late]⟩
      | _ => exact ⟨_, Or.inl rfl, by simp [step, hph, Late]⟩
  | stop => exact ⟨_, Or.inl rfl, by simp [step, Late]⟩

-- ============================================================= whole runs

/-- Once `run` has returned, nothing more is seen. -/
theorem exited_run : ∀ (es : List Event) (s : WebSocketConsumer),
    s.phase = .exited →
      trace config s es = [] ∧ SilentAfterStall config s es := by
  intro es
  induction es with
  | nil => exact fun s _ => ⟨rfl, trivial⟩
  | cons e es ih =>
      intro s hs
      have hlate : ¬Late s e := by
        cases e <;> simp [Late, hs]
      have hstep : (step config s e).2 = []
          ∧ (step config s e).1.phase = .exited := by
        cases e <;> simp [step, hs]
      obtain ⟨htrace, hsilent⟩ := ih _ hstep.2
      refine ⟨?_, hlate, hsilent⟩
      rw [trace, hstep.1, htrace]
      rfl

/-- The monitor of a run from any state, its flag read off the phase. By
induction on the events, each by its step lemma. -/
theorem stallEnforced_trace : ∀ (es : List Event) (s : WebSocketConsumer),
    StallEnforced (Armed s.phase) (trace config s es)
      ↔ SilentAfterStall config s es := by
  intro es
  induction es with
  | nil => exact fun s => Iff.rfl
  | cons e es ih =>
      intro s
      obtain ⟨outstanding, hflag, hstep⟩ := stallEnforced_step config s e
      rw [trace, hstep, SilentAfterStall]
      refine and_congr_right fun _ => ?_
      rcases hflag with rfl | hexit
      · exact ih _
      · obtain ⟨htrace, hsilent⟩ := exited_run config es _ hexit
        rw [htrace]
        exact iff_of_true trivial hsilent

/-- Stalls are enforced in exactly the runs in which the socket yields
no decodable message after the watchdog has raised. -/
theorem stall_enforced_iff (publisher : Publisher) (es : List Event) :
    StallEnforced false (trace config (new config publisher) es)
      ↔ SilentAfterStall config (new config publisher) es :=
  stallEnforced_trace config es (new config publisher)

-- ======================================================= a stalled feed

/-- A heartbeat of BTC-USD. -/
def heartbeatText : String :=
  "\x7b\"type\":\"heartbeat\",\"product_id\":\"BTC-USD\","
    ++ "\"sequence\":1,\"last_trade_id\":7,"
    ++ "\"time\":\"1970-01-01T00:00:00Z\"\x7d"

/-- A trade of BTC-USD, twelve seconds later. -/
def matchText : String :=
  "\x7b\"type\":\"match\",\"product_id\":\"BTC-USD\","
    ++ "\"sequence\":2,\"trade_id\":8,\"price\":\"100.5\","
    ++ "\"size\":\"0.1\",\"side\":\"buy\","
    ++ "\"time\":\"1970-01-01T00:00:12Z\"\x7d"

/-- Heartbeats stop while trades go on: a heartbeat received at the
epoch, a check eleven seconds later, then a trade. -/
def stalledFeed : List Event :=
  [.enter, .connected true, .raw heartbeatText 0, .tick 11000000,
    .raw matchText 12000000]

/-- The trade after the stall is handled: the watchdog's exception does
not end the reader loop. -/
theorem stalled_feed_keeps_flowing :
    ¬StallEnforced false (trace { products := ["BTC-USD"] }
      (new { products := ["BTC-USD"] } RecordingPublisher)
      stalledFeed) := by
  decide +kernel

end MarketPlatform.Consumer.WebSocketConsumer
