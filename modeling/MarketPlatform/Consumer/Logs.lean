/-
The log lines (`consumer/logs.py`).

# A record

`Logger.makeRecord` makes a record of its own attributes and those of
`extra`, unless a name of these is taken: then it raises `KeyError`, at
the log call and before anything is written. What a record holds besides
(its severity, message and logger) is given to the formatter as it is.
`getMessage()` and `formatException(exc_info)` are texts of the record,
since how they come about has no part in what is written.

# A line

The formatter writes one JSON object a record: its severity, message and
logger, then the attributes that are not standard and do not begin with
an underscore, then the exception if there is one. A name written twice
keeps its first place and takes its last value, as in a Python dict; so
an attribute called `severity` would replace the record's own. The
object is written by `json.dumps` with the separators of the default,
which is `Json.dumpsLine`, and a value that is neither a text, a number
nor a truth value is written as its `str`.
-/
import MarketPlatform.Consumer.Handler
import MarketPlatform.Lib.JsonLine

namespace MarketPlatform.Consumer

open Lib

/-- A value in `record.__dict__`, told apart as far as the formatter
tells them apart. -/
inductive LogValue where
  | str (s : String)
  | int (n : Int)
  | float (literal : String) (value : Option ℚ)
  | bool (b : Bool)
  /-- Any other object, by its `str(value)`. -/
  | other (text : String)

/-- `value if isinstance(value, str | int | float | bool) else
str(value)`. -/
def LogValue.json : LogValue → Json
  | .str s => .str s
  | .int n => .int n
  | .float literal value => .float literal value
  | .bool b => .bool b
  | .other text => .str text

/-- A record as the formatter sees it. -/
structure LogRecord where
  levelname : String
  name : String
  /-- `getMessage()`. -/
  message : String
  /-- `formatException(exc_info)`, when there is one. -/
  exception : Option String
  /-- `__dict__`. -/
  attributes : List (String × LogValue)

/-- The attributes of a new record, in the order in which it gets
them. -/
def recordAttributes : List String :=
  ["name", "msg", "args", "levelname", "levelno", "pathname", "filename",
    "module", "exc_info", "exc_text", "stack_info", "lineno", "funcName",
    "created", "msecs", "relativeCreated", "thread", "threadName",
    "processName", "process", "taskName"]

/-- `Logger.makeRecord`: `own` are the values of the record's own
attributes. The attributes of `extra` come after them. -/
def makeRecord (levelname name message : String) (exception : Option String)
    (own : String → LogValue) (extra : List (String × LogValue)) :
    Py LogRecord :=
  if extra.any fun x => x.1 ∈ MessageHandler.reservedKeys then
    .error .keyError
  else
    .ok ⟨levelname, name, message, exception,
      recordAttributes.map (fun a => (a, own a)) ++ extra⟩

namespace CloudLoggingFormatter

/-- `_STANDARD`, the names that are left out of the line. They are the
record's own and the two that formatting adds. -/
def standard : List String :=
  ["args", "asctime", "created", "exc_info", "exc_text", "filename",
    "funcName", "levelname", "levelno", "lineno", "module", "msecs",
    "message", "msg", "name", "pathname", "process", "processName",
    "relativeCreated", "stack_info", "thread", "threadName", "taskName"]

/-- `key.startswith("_")`. -/
def hidden (key : String) : Bool := key.toList.head? = some '_'

/-- The attributes that are written, in the order of `__dict__`. -/
def shown (r : LogRecord) : List (String × Json) :=
  (r.attributes.filter fun x => x.1 ∉ standard && !hidden x.1).map
    fun x => (x.1, x.2.json)

/-- `payload["exception"]`, if the record has one. It is set last, over
an attribute of that name. -/
def withException :
    Option String → List (String × Json) → List (String × Json)
  | some text, payload => Json.setMember "exception" (.str text) payload
  | none, payload => payload

/-- The members of the object, in the order in which they are
written. -/
def payload (r : LogRecord) : List (String × Json) :=
  withException r.exception (Json.update
    [("severity", .str r.levelname), ("message", .str r.message),
      ("logger", .str r.name)] (shown r))

/-- `CloudLoggingFormatter.format`. -/
def format (r : LogRecord) : String := Json.dumpsLine (payload r)

end CloudLoggingFormatter

end MarketPlatform.Consumer
