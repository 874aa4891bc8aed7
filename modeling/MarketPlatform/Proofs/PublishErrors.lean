/-
Publish failures: what the reported count says of them.

`publish` hands a message to the Pub/Sub client and returns at once;
whether the message was taken is known when the client's future
completes, in the callback `_on_done`. The callback counts a failure in
`PubSubPublisher.errors_total` and logs it. The count that is reported
as a metric is another one, `Counters.publish_errors_total`, and nothing
in the program adds to it.

# What leaves it alone

No statement of a handler touches the reported count, raise or not
(`errors_handle`), which follows from the general lemma about what the
handlers leave in place (`PassesOver` in `Proofs/Handling`). No step of
the consumer touches it, and no callback. So after any run it is what a
new program has, zero, while the publisher's own is the number of
failures (`Counted`): an invariant of each step of the program, in
whatever order messages, callbacks and flushes come.

The reported count is therefore the number of failures exactly when
there were none (`publish_errors_reported_iff`).
-/
import MarketPlatform.Consumer.Main
import MarketPlatform.Proofs.Handling
import MarketPlatform.Proofs.Moves

namespace MarketPlatform.Consumer

open Lib EStateM

-- ============================================================ the handlers

namespace MessageHandler

/-- The reported count of publish errors. -/
def publishErrors (h : MessageHandler) : Int :=
  h.counters.publishErrorsTotal

theorem leaves_publishErrors : Leaves publishErrors where
  received := fun _ => Frame.of_modify fun _ => rfl
  recordLag := fun _ => Frame.of_modify fun _ => rfl
  beat := fun _ => Frame.of_modify fun _ => rfl
  onBook := fun p x h => by
    obtain ⟨books, hbooks⟩ := state_onBook p x h
    rw [hbooks]
    rfl
  trackContinuity := fun p v h => by
    rw [run_trackContinuity]
    unfold publishErrors tracked countObservation
    simp only [Result.state_ok]
    split <;> rfl
  trackHeartbeat := fun p v h => by
    rw [run_trackHeartbeat]
    unfold publishErrors heartbeatTracked
    simp only [Result.state_ok]
    split
    · rfl
    · split <;> rfl
  checkCrossed := fun p h => by
    rw [state_checkCrossed]
    unfold publishErrors crossChecked
    split <;> rfl

theorem errors_publish (m : Published) : Frame publishErrors (publish m) := by
  intro h
  rw [run_publish]
  split <;> rfl

theorem passesOver_frame : PassesOver publishErrors (Frame publishErrors) where
  bind := Frame.bind
  publish := errors_publish
  frame := fun _ h => h

/-- A message, raise or not, leaves the count of publish errors. -/
theorem errors_handle (msg : Json) (t : Int) :
    Frame publishErrors (handle msg t) :=
  passesOver_frame.handle leaves_publishErrors msg t

end MessageHandler

-- ============================================================ the consumer

/-- No step of the consumer touches the count of publish errors. The
one move that needs an argument is a message; `on_disconnect` keeps the
counters. -/
theorem WebSocketConsumer.errors_step (config : Config)
    (s : WebSocketConsumer) (e : Event) :
    (step config s e).1.handler.publishErrors = s.handler.publishErrors := by
  have hmoves := moves_step config s e
  generalize (step config s e).2 = acts at hmoves
  generalize (step config s e).1 = s' at hmoves ⊢
  cases hmoves with
  | handles text now message w after phase going decoded goes =>
      exact MessageHandler.errors_handle message now s.handler
  | _ => rfl

-- =============================================================== the program

namespace Main

/-- The futures that have completed with an exception so far. -/
def failures (m : Main) : Nat := m.completed.countP fun c => c.2.isSome

/-- The reported count is what it was for a new program, and the
publisher's own is the number of failures. -/
structure Counted (m : Main) : Prop where
  reported : m.consumer.handler.publishErrors = 0
  errorsTotal : m.errorsTotal = m.failures

theorem counted_step {config : Config} {m : Main} (h : Counted m)
    (s : Step) : Counted (step config m s) := by
  cases s with
  | consumer e =>
      refine ⟨?_, h.errorsTotal⟩
      exact (WebSocketConsumer.errors_step config m.consumer e).trans
        h.reported
  | done future exception =>
      cases hf : m.futures[future]? with
      | none => simpa only [step, hf] using h
      | some p =>
          by_cases hmem : future ∈ m.completed.map Prod.fst
          · simpa only [step, hf, if_pos hmem] using h
          · simp only [step, hf, if_neg hmem]
            have herrors := h.errorsTotal
            cases exception with
            | none =>
                refine ⟨h.reported, ?_⟩
                simpa [failures, onDone] using herrors
            | some exception =>
                refine ⟨h.reported, ?_⟩
                simpa [failures, onDone] using herrors
  | flush => exact h

theorem counted_run (config : Config) (steps : List Step) :
    ∀ m : Main, Counted m → Counted (run config m steps) := by
  induction steps with
  | nil => exact fun _ h => h
  | cons s steps ih => exact fun m h => ih _ (counted_step h s)

/-- After any run, the reported count of publish errors is the number of
publish futures that have failed exactly when none has. The invariant of
the run gives both counts; the snapshot is looked up by its name. -/
theorem publish_errors_reported_iff (config : Config)
    (publisher : Publisher) (steps : List Step) :
    (run config (new config publisher) steps).snapshot.lookup
        "publish_errors_total"
        = some ((run config (new config publisher) steps).failures : ℚ)
      ↔ (run config (new config publisher) steps).failures = 0 := by
  have hnew : Counted (new config publisher) := ⟨rfl, rfl⟩
  have h := counted_run config steps _ hnew
  generalize run config (new config publisher) steps = m at h ⊢
  have hlookup : m.snapshot.lookup "publish_errors_total"
      = some ((m.consumer.handler.publishErrors : Int) : ℚ) := rfl
  rw [hlookup, h.reported, Option.some.injEq]
  exact ⟨fun hz => by exact_mod_cast hz.symm, fun hz => by rw [hz]; rfl⟩

/-- A heartbeat is handled, and its publish fails. -/
def failedPublish : List Step :=
  [.consumer .enter, .consumer (.connected true),
    .consumer (.raw ("\x7b\"type\":\"heartbeat\","
      ++ "\"product_id\":\"BTC-USD\",\"sequence\":1,"
      ++ "\"last_trade_id\":7,\"time\":\"1970-01-01T00:00:00Z\"\x7d") 0),
    .done 0 (some "INVALID_JSON_AVRO_MESSAGE"), .flush]

/-- The failure is counted in the publisher and not reported. -/
theorem failed_publish_is_not_reported :
    (run { products := ["BTC-USD"] }
        (new { products := ["BTC-USD"] } RecordingPublisher)
        failedPublish).snapshot.lookup "publish_errors_total" = some 0
      ∧ (run { products := ["BTC-USD"] }
        (new { products := ["BTC-USD"] } RecordingPublisher)
        failedPublish).failures = 1 := by
  decide +kernel

end Main

end MarketPlatform.Consumer
