/-
The program as `main` wires it (`consumer/__main__.py`), publishing
enabled.

# Futures

`PubSubPublisher.publish` (`consumer/publisher.py`) hands a message to
the client, gets a future and returns. The future completes later, on a
thread of the client, and its done callback `_on_done` runs then: a run
is an interleaving of the consumer's steps, completions and flushes. The
messages of the handler's publisher are the futures, in the order of the
calls; `completed` says which callbacks have run, and whether their
future held an exception. A future completes once, at any time after its
call and in any order, or never.

# Two tallies of errors

A failed publish is counted by the publisher itself (`errorsTotal`) and
its ordering key is resumed (`resumed`). The counters that the reporter
writes have a tally of their own, `publishErrorsTotal`, and what happens
to it is read off the steps of this module: the program has one handler,
one publisher and one reporter, and `onDone` is the only place that
knows of a failure.

# What is reported

`snapshot` is what a flush writes, at any point of a run, and what the
last statement of `main` logs (`drained`). The reporter's own decisions,
whether a flush is written at all, are those of `Metrics`.
-/
import MarketPlatform.Consumer.Logs
import MarketPlatform.Consumer.WsClient

namespace MarketPlatform.Consumer

/-- The channel a payload is published on, as the callback names it. -/
def Payload.channel : Payload → String
  | .trades _ => "trades"
  | .l2 _ => "l2"
  | .heartbeat _ => "heartbeat"

/-- The objects `main` makes: the consumer, which holds the handler and
by it the publisher's messages, and what the publisher keeps of its
futures. -/
structure Main where
  consumer : WebSocketConsumer
  /-- The futures that have completed, with their exceptions. -/
  completed : List (Nat × Option String) := []
  /-- `PubSubPublisher.errors_total`. -/
  errorsTotal : Nat := 0
  /-- The calls of `resume_publish`: a channel and an ordering key. -/
  resumed : List (String × String) := []

namespace Main

/-- The objects `main` makes, before the first step. -/
def new (config : Config) (publisher : Publisher) : Main :=
  { consumer := WebSocketConsumer.new config publisher }

/-- The futures of the publishes made so far, in the order of the calls.
A call that raised has none. -/
def futures (m : Main) : List Published :=
  m.consumer.handler.publisher.messages

/-- `_on_done`. A future without an exception changes nothing; otherwise
the failure is counted and the ordering key resumed. -/
def onDone (m : Main) (exception : Option String) (channel : String)
    (orderingKey : String) : Main :=
  match exception with
  | none => m
  | some _ =>
      { m with
        errorsTotal := m.errorsTotal + 1
        resumed := m.resumed ++ [(channel, orderingKey)] }

/-- What can happen next, at any point of a run. -/
inductive Step where
  /-- A step of the consumer. -/
  | consumer (e : Event)
  /-- A future completes, with or without an exception. -/
  | done (future : Nat) (exception : Option String)
  /-- The metrics are flushed. -/
  | flush

/-- One step. A future that does not exist, or has completed, does not
complete. -/
def step (config : Config) (m : Main) : Step → Main
  | .consumer e =>
      { m with consumer := (WebSocketConsumer.step config m.consumer e).1 }
  | .done future exception =>
      match m.futures[future]? with
      | none => m
      | some p =>
          if future ∈ m.completed.map Prod.fst then m
          else
            { m.onDone exception p.payload.channel p.orderingKey with
              completed := m.completed ++ [(future, exception)] }
  | .flush => m

/-- The steps in order. -/
def run (config : Config) (m : Main) (steps : List Step) : Main :=
  steps.foldl (step config) m

/-- What `Counters.snapshot()` reports, at a flush or at the end. -/
def snapshot (m : Main) : List (String × ℚ) :=
  m.consumer.handler.counters.snapshot

/-- `log.info("drained", extra=metrics.counters.snapshot())`: `own` are
the record's own attributes, and `written` the metrics as Python has
them. -/
def drained (own : String → LogValue) (written : String × ℚ → LogValue)
    (m : Main) : Py LogRecord :=
  makeRecord "INFO" "consumer" "drained" none own
    (m.snapshot.map fun x => (x.1, written x))

end Main

end MarketPlatform.Consumer
