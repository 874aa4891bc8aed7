/-
The socket owner (`WebSocketConsumer` in `consumer/ws_client.py`).

`run` connects, consumes and backs off in a loop; `_consume` reads raw
messages while the task `_watchdog` checks for heartbeat silence. The
two tasks share one event loop, so a run is an interleaving of steps:
`step` makes the next step of one task, or takes in one event of the
environment, and an event that cannot happen in a phase leaves the
consumer as it is. What a step does is reported as a list of `Act`s.

# The watchdog task

An exception inside a task made by `create_task` is stored in the task.
`_consume` awaits the task only in its `finally`, that is on the way
out: `Watchdog.raised` holds the stored exception until `unwind`.

# Leaving a connection

`leaving raised watchdog` is the control on its way out of a connection
attempt: `raised` says an exception is under way, `watchdog` is the task
to await (none when the connection was never made). `unwind` is the
`finally` of `_consume`, the `except` of `run` and what follows it, up
to the backoff sleep.
-/
import MarketPlatform.Consumer.Handler

namespace MarketPlatform.Consumer

open Lib EStateM MessageHandler

/-- The configuration the consumer reads. -/
structure Config where
  products : List String
  heartbeatTimeoutS : ℚ := 10
  backoffInitialS : ℚ := 1
  backoffMaxS : ℚ := 60

/-- The task `_watchdog`, from its creation to the point where it is
awaited. -/
inductive Watchdog where
  /-- Waiting for its next check. -/
  | sleeping
  /-- The loop ended because the consumer is stopping. -/
  | returned
  /-- The stored `ConnectionError`. -/
  | raised
  deriving DecidableEq, Repr

/-- Where the control of `run` and `_consume` stands between two
steps. -/
inductive Phase where
  /-- At the test of the `while` of `run`. -/
  | top
  /-- Opening the socket and sending the subscription. -/
  | connecting
  /-- In the `async for` of `_consume`. -/
  | consuming (watchdog : Watchdog)
  | leaving (raised : Bool) (watchdog : Option Watchdog)
  /-- In the backoff sleep. -/
  | backingOff
  /-- `run` has returned. -/
  | exited
  deriving DecidableEq, Repr

/-- The attributes of the source's class, with the place that its
control has reached. -/
structure WebSocketConsumer where
  handler : MessageHandler
  stopping : Bool := false
  backoff : ℚ
  phase : Phase := .top

/-- One step of a task, or one event of the environment. Their order is
free: the two tasks share one event loop, and neither the exchange nor a
signal waits for them. -/
inductive Event where
  /-- `run` tests `_stopping`. -/
  | enter
  /-- The socket is open and subscribed, or the attempt raised. -/
  | connected (ok : Bool)
  /-- The socket yields a raw message, handled at `now`. -/
  | raw (text : String) (now : Int)
  /-- The watchdog's sleep ends at `now`. -/
  | tick (now : Int)
  /-- The socket's iteration ends, or raises. -/
  | closed (error : Bool)
  /-- The `finally` and `except` on the way out. -/
  | unwind
  /-- The backoff sleep ends. -/
  | wake
  /-- `stop()`. -/
  | stop

/-- What a step is seen to do. It is what the theorems about runs speak
of. -/
inductive Act where
  /-- A connection attempt begins. -/
  | opening
  /-- A message is passed to `MessageHandler.handle`. -/
  | handled (message : Json) (receivedAt : Int)
  /-- The watchdog raises. -/
  | stalled
  /-- `MessageHandler.on_disconnect` is called. -/
  | disconnected

namespace WebSocketConsumer

/-- `WebSocketConsumer(config, handler)`, with a new handler. -/
def new (config : Config) (publisher : Publisher) : WebSocketConsumer :=
  { handler := MessageHandler.new config.products publisher
    backoff := config.backoffInitialS }

/-- The check of `_watchdog`: silence longer than the timeout. -/
def silent (config : Config) (last now : Int) : Bool :=
  config.heartbeatTimeoutS < ((now - last : Int) : ℚ) / 1000000

/-- One round of the watchdog's loop, from the end of its sleep. Before
the first heartbeat there is nothing to compare the clock with. -/
def check (config : Config) (s : WebSocketConsumer) (now : Int) :
    Watchdog :=
  match s.handler.lastHeartbeatAt with
  | none => if s.stopping then .returned else .sleeping
  | some last =>
      if silent config last now then .raised
      else if s.stopping then .returned else .sleeping

/-- The reader takes one raw message. `stop` is looked at after the
message has come and before it is decoded, so the message that makes it
notice is dropped; an undecodable text, like a raise of the handler,
ends the connection. -/
def receive (s : WebSocketConsumer) (w : Watchdog) (text : String)
    (now : Int) : WebSocketConsumer × List Act :=
  if s.stopping then ({ s with phase := .leaving false (some w) }, [])
  else
    match Json.loads text with
    | none => ({ s with phase := .leaving true (some w) }, [])
    | some message =>
        let r := (handle message now).run s.handler
        ({ s with
            handler := r.state
            phase := if r.isOk then .consuming w
              else .leaving true (some w) },
          [.handled message now])

/-- The way out of a connection. An exception the watchdog stored is
raised where the task is awaited. While stopping, an exception ends
`run` at once; otherwise the handler is reset. -/
def unwind (s : WebSocketConsumer) (raised : Bool)
    (w : Option Watchdog) : WebSocketConsumer × List Act :=
  if (raised || w = some .raised) && s.stopping then
    ({ s with phase := .exited }, [])
  else
    ({ s with
        handler := s.handler.onDisconnect.withCounters fun c =>
          { c with
            websocketReconnectsTotal := c.websocketReconnectsTotal + 1 }
        phase := if s.stopping then .exited else .backingOff },
      [.disconnected])

/-- One step of the consumer and what it is seen to do. An event that
does not fit the phase is no step of any task. -/
def step (config : Config) (s : WebSocketConsumer) (e : Event) :
    WebSocketConsumer × List Act :=
  match e, s.phase with
  | .stop, _ => ({ s with stopping := true }, [])
  | .enter, .top =>
      if s.stopping then ({ s with phase := .exited }, [])
      else ({ s with phase := .connecting }, [.opening])
  | .connected true, .connecting =>
      ({ s with
          backoff := config.backoffInitialS
          phase := .consuming
            (if s.stopping then .returned else .sleeping) }, [])
  | .connected false, .connecting =>
      ({ s with phase := .leaving true none }, [])
  | .raw text now, .consuming w => receive s w text now
  | .tick now, .consuming .sleeping =>
      let w := check config s now
      ({ s with phase := .consuming w },
        if w = .raised then [.stalled] else [])
  | .closed error, .consuming w =>
      ({ s with phase := .leaving error (some w) }, [])
  | .unwind, .leaving raised w => unwind s raised w
  | .wake, .backingOff =>
      ({ s with
          backoff := min (s.backoff * 2) config.backoffMaxS
          phase := .top }, [])
  | _, _ => (s, [])

/-- The consumer after a run. -/
def run (config : Config) (s : WebSocketConsumer) :
    List Event → WebSocketConsumer
  | [] => s
  | e :: es => run config (step config s e).1 es

/-- What a run is seen to do. -/
def trace (config : Config) (s : WebSocketConsumer) :
    List Event → List Act
  | [] => []
  | e :: es =>
      (step config s e).2 ++ trace config (step config s e).1 es

end WebSocketConsumer

end MarketPlatform.Consumer
