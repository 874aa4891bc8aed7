/-
Messages that carry no data.

Five types of message carry data. The feed sends others: an
acknowledgement of the subscription, a status, an error, and whatever
the exchange adds later. `handle` passes over every message of a type it
does not know, and over one without a type.

# The feed error

The one message without data that `handle` does know is the feed error.
It logs it with the whole message as `extra` under the key `message`,
which is an attribute every log record has, so the log call raises a
`KeyError` before anything is logged. The exception leaves `handle`, and
in the consumer it ends the connection and with it the books and the
baselines. A message without data therefore leaves the handler and the
connection as they were if and only if it is not a feed error
(`other_message_ignored_iff`).

# How it is stated

A message is the members of any JSON object whose `type` is missing or
not one of the five (`NoData`). The condition speaks of that member
alone. The first half is about the handler in any state, the second
about a consumer that is reading and receives any text that parses to
the object.
-/
import MarketPlatform.Lib.JsonText
import MarketPlatform.Proofs.Stall

namespace MarketPlatform.Consumer

open Lib EStateM MessageHandler

/-- The types of the messages that carry data. -/
def dataTypes : List String :=
  ["match", "last_match", "snapshot", "l2update", "heartbeat"]

/-- The type is missing, or none of these. -/
def NoData (members : List (String × Json)) : Prop :=
  ∀ type ∈ dataTypes, Json.lookup "type" members ≠ some (.str type)

/-- The type of a feed error. -/
def IsError (members : List (String × Json)) : Prop :=
  Json.lookup "type" members = some (.str "error")

theorem msgType_of_isError {members : List (String × Json)}
    (h : IsError members) :
    msgType (Json.lookup "type" members) = .error := by
  unfold IsError at h
  rw [h]
  rfl

/-- Without data, only a feed error is known. -/
theorem msgType_of_not_isError {members : List (String × Json)}
    (hdata : NoData members) (h : ¬ IsError members) :
    msgType (Json.lookup "type" members) = .other := by
  unfold NoData at hdata
  unfold IsError at h
  cases htype : Json.lookup "type" members with
  | none => rfl
  | some v =>
      cases v with
      | str s =>
          rw [htype] at h hdata
          have hne : ∀ type ∈ "error" :: dataTypes, s ≠ type := by
            intro type hmem heq
            subst heq
            rcases List.mem_cons.mp hmem with rfl | hmem
            · exact h rfl
            · exact hdata s hmem rfl
          simp only [dataTypes, List.forall_mem_cons] at hne
          obtain ⟨herror, hmatch, hlast, hsnap, hl2, hbeat, -⟩ := hne
          simp [msgType, hmatch, hlast, hsnap, hl2, hbeat, herror]
      | _ => rfl

/-- The handler passes over a message that it does not know. -/
theorem handle_of_other {members : List (String × Json)}
    (h : msgType (Json.lookup "type" members) = .other) (t : Int) :
    handle (.obj members) t = pure () := by
  unfold handle
  show (pure (Json.lookup "type" members) >>= _ : Handling) = pure ()
  rw [pure_bind, h]

/-- Logging a feed error raises. -/
theorem handle_of_error {members : List (String × Json)}
    (h : msgType (Json.lookup "type" members) = .error) (t : Int) :
    handle (.obj members) t = throw .keyError := by
  unfold handle
  show (pure (Json.lookup "type" members) >>= _ : Handling) = throw .keyError
  rw [pure_bind, h]
  rfl

/-- The message raises nothing and leaves the handler as it is. -/
def Ignored (message : Json) (t : Int) (h : MessageHandler) : Prop :=
  (handle message t).run h = .ok () h

/-- A consumer that reads a message: the state keeps everything but the
handler, and goes on to consume or to unwind by whether the message was
handled. -/
theorem step_raw {config : Config} {s : WebSocketConsumer} {w : Watchdog}
    {text : String} {message : Json} (hphase : s.phase = .consuming w)
    (hrunning : s.stopping = false) (htext : Json.loads text = some message)
    (t : Int) :
    (WebSocketConsumer.step config s (.raw text t)).1
      = { s with
          handler := ((handle message t).run s.handler).state
          phase := if ((handle message t).run s.handler).isOk
            then .consuming w else .leaving true (some w) } := by
  have hreceive : WebSocketConsumer.step config s (.raw text t)
      = WebSocketConsumer.receive s w text t := by
    unfold WebSocketConsumer.step
    rw [hphase]
  rw [hreceive, WebSocketConsumer.receive, hrunning, htext]
  rfl

/-- In any state the handler ignores a message without data, and a
consumer that reads its text stays connected as it was, if and only if
the message is not a feed error. -/
theorem other_message_ignored_iff {members : List (String × Json)}
    (hdata : NoData members) (t : Int) :
    (∀ h : MessageHandler, Ignored (.obj members) t h ↔ ¬ IsError members)
      ∧ ∀ (config : Config) (s : WebSocketConsumer) (w : Watchdog)
        (text : String), s.phase = .consuming w → s.stopping = false →
        Json.loads text = some (.obj members) →
        ((WebSocketConsumer.step config s (.raw text t)).1 = s
          ↔ ¬ IsError members) := by
  by_cases herror : IsError members
  · have hraise := handle_of_error (msgType_of_isError herror) t
    refine ⟨fun h => iff_of_false (fun hig => ?_) (not_not.mpr herror),
      fun config s w text hphase hrunning htext =>
        iff_of_false (fun hsame => ?_) (not_not.mpr herror)⟩
    · unfold Ignored at hig
      rw [hraise] at hig
      cases hig
    · have hleaving := congrArg WebSocketConsumer.phase hsame
      rw [step_raw hphase hrunning htext, hraise, hphase] at hleaving
      cases hleaving
  · have hpass := handle_of_other (msgType_of_not_isError hdata herror) t
    refine ⟨fun h => iff_of_true ?_ herror,
      fun config s w text hphase hrunning htext =>
        iff_of_true ?_ herror⟩
    · unfold Ignored
      rw [hpass]
      rfl
    · rw [step_raw hphase hrunning htext, hpass]
      show { s with phase := Phase.consuming w } = s
      rw [← hphase]

-- ========================================================== a feed error

/-- A message with a type and a text. -/
def note (type text : String) : List (String × Json) :=
  [("type", .str type), ("message", .str text)]

theorem noData_note {type text : String} (h : type ∉ dataTypes) :
    NoData (note type text) := by
  intro known hknown heq
  obtain rfl : type = known := Json.str.inj (Option.some.inj heq)
  exact h hknown

/-- The trade 8 and then a message. -/
def feedThen (members : List (String × Json)) : WebSocketConsumer :=
  let config : Config := { products := ["BTC-USD"] }
  .run config (.new config RecordingPublisher)
    [.enter, .connected true, .raw WebSocketConsumer.matchText 12000000,
      .raw (Json.dumps (.obj members)) 13000000, .unwind]

def lastTrade (s : WebSocketConsumer) : Option Int :=
  s.handler.continuity.lastSeen "BTC-USD"

/-- The consumer drops the connection because of a feed error, and forgets
the last trade. -/
theorem error_ends_the_connection :
    NoData (note "error" "Failed to subscribe")
      ∧ ¬ Ignored (.obj (note "error" "Failed to subscribe")) 0
        (MessageHandler.new ["BTC-USD"] RecordingPublisher)
      ∧ (feedThen (note "error" "Failed to subscribe")).phase = .backingOff
      ∧ lastTrade (feedThen (note "error" "Failed to subscribe")) = none
      ∧ lastTrade (feedThen (note "status" "")) = some 8 := by
  have hlost : (feedThen (note "error" "Failed to subscribe")).phase
        = .backingOff
      ∧ lastTrade (feedThen (note "error" "Failed to subscribe")) = none := by
    decide +kernel
  refine ⟨noData_note (by decide), fun h => ?_, hlost.1, hlost.2,
    by decide +kernel⟩
  unfold Ignored at h
  rw [handle_of_error rfl] at h
  cases h

/-- A status leaves it as it was. -/
theorem other_message_ignored_iff_status :
    Ignored (.obj (note "status" "")) 0
        (MessageHandler.new ["BTC-USD"] RecordingPublisher)
      ∧ (WebSocketConsumer.step { products := ["BTC-USD"] }
          { handler := .new ["BTC-USD"] RecordingPublisher
            backoff := 1
            phase := .consuming .sleeping }
          (.raw (Json.dumps (.obj (note "status" ""))) 0)).1
        = { handler := .new ["BTC-USD"] RecordingPublisher
            backoff := 1
            phase := .consuming .sleeping } := by
  have hdata : NoData (note "status" "") := noData_note (by decide)
  have herror : ¬ IsError (note "status" "") := by
    intro h
    exact absurd (Json.str.inj (Option.some.inj h)) (by decide)
  obtain ⟨hignored, hstep⟩ := other_message_ignored_iff hdata 0
  exact ⟨(hignored _).mpr herror, (hstep _ _ _ _ rfl rfl
    (Json.loads_dumps rfl)).mpr herror⟩

end MarketPlatform.Consumer
