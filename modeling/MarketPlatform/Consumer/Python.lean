/-
The parts of Python's own behaviour the consumer relies on.

# Operations that raise

A decoded message is a JSON value; the handlers index it, convert its
fields and iterate over its lists, and each of these operations can
raise. They are modelled here under their Python names, each as an
`Except` whose error is the exception class; which class it is matters
in one place only, where the handler of an l2update catches the error of
a crossed book and no other. An operation on a value of a type it is not
made for raises as Python does: subscripting a list with a text raises
`TypeError`, asking it for `get` raises `AttributeError`.

# Numbers

`int` reads a text of digits in ASCII, with a sign, single underscores
between digits and white space around. A number of the JSON text carries
both its literal and the value `float` has, or none where it is an
infinity or a NaN; `int` truncates the value, and a `Decimal` made of it
(in `Book`) is the value's exact decimal. How `Decimal` reads a text,
and the bounds of its exponent, are in `Book` as well.

# Times

`datetime.fromisoformat` is modelled on RFC 3339 texts, the ones the
feed and the API send. A `DateTime` may carry no zone, as Python's may:
the subtraction of such a time from one with a zone raises `TypeError`,
and this is what a time without a zone does to a match.
-/
import MarketPlatform.Lib.Json
import MarketPlatform.Lib.Rfc3339

namespace MarketPlatform.Consumer

open Lib Lib.Numeral

-- ============================================================ exceptions

/-- The exception classes the consumer's code can raise. -/
inductive Exc where
  | keyError
  | valueError
  | typeError
  | attributeError
  | overflowError
  | invalidOperation
  | decimalOverflow
  | divisionByZero
  | crossedBookError
  | connectionError
  | publishError
  deriving DecidableEq, Repr

/-- What a Python expression gives: a value, or the class of an
exception. -/
abbrev Py (α : Type) := Except Exc α

/-- Going on after what did not raise. -/
theorem ok_bind {α β : Type} (a : α) (f : α → Py β) :
    ((Except.ok a : Py α) >>= f) = f a := rfl

-- ================================================================= dicts

/-- `message[key]`, where the key is a text. -/
def item (message : Json) (key : String) : Py Json :=
  match message with
  | .obj ms =>
      match Json.lookup key ms with
      | some v => .ok v
      | none => .error .keyError
  | _ => .error .typeError

/-- `message.get(key)`: nothing for a key that is missing, which a null
under the key is not. -/
def get? (message : Json) (key : String) : Py (Option Json) :=
  match message with
  | .obj ms => .ok (Json.lookup key ms)
  | _ => .error .attributeError

/-- `message.get(key, default)`. -/
def getD (message : Json) (key : String) (default : Json) : Py Json :=
  (get? message key).map fun v => v.getD default

-- ============================================================ conversion

/-- A digit string in which single underscores may stand between
digits. -/
def groupedDigits : List Char → Option (List Nat)
  | [] => none
  | [c] => (digit? c).map fun d => [d]
  | c :: '_' :: cs =>
      match digit? c, groupedDigits cs with
      | some d, some ds => some (d :: ds)
      | _, _ => none
  | c :: cs =>
      match digit? c, groupedDigits cs with
      | some d, some ds => some (d :: ds)
      | _, _ => none

/-- Truncation towards zero. -/
def truncInt (q : ℚ) : Int := if 0 ≤ q then ⌊q⌋ else -⌊-q⌋

/-- `int(value)`. A truth value is an integer, and a text is read in
base ten. -/
def pyInt : Json → Py Int
  | .int n => .ok n
  | .bool b => .ok (if b then 1 else 0)
  | .float _ (some q) => .ok (truncInt q)
  | .float _ none => .error .overflowError
  | .str s =>
      match groupedDigits (spanSign (strip s.toList)).2 with
      | some ds => .ok ((spanSign (strip s.toList)).1 * ofDigits ds)
      | none => .error .valueError
  | .null | .arr _ | .obj _ => .error .typeError

mutual

/-- `repr(value)`, strings in plain single quotes. It is what a
container shows of its parts. -/
def repr : Json → String
  | .null => "None"
  | .bool true => "True"
  | .bool false => "False"
  | .int n => toString n
  | .float literal _ => literal
  | .str s => "'" ++ s ++ "'"
  | .arr xs => "[" ++ reprElems xs ++ "]"
  | .obj ms => "\x7b" ++ reprMembers ms ++ "\x7d"

/-- The elements of a list, between its brackets. -/
def reprElems : List Json → String
  | [] => ""
  | [x] => repr x
  | x :: y :: xs => repr x ++ ", " ++ reprElems (y :: xs)

/-- The members of a dict, between its braces. -/
def reprMembers : List (String × Json) → String
  | [] => ""
  | [(k, v)] => "'" ++ k ++ "': " ++ repr v
  | (k, v) :: m :: ms =>
      "'" ++ k ++ "': " ++ repr v ++ ", " ++ reprMembers (m :: ms)

end

/-- `str(value)`: a text is itself, anything else shows as its
`repr`. -/
def pyStr : Json → String
  | .str s => s
  | j => repr j

/-- Truth value, as `value or ""` tests it. -/
def truthy : Json → Bool
  | .null => false
  | .bool b => b
  | .int n => n ≠ 0
  | .float _ v => v ≠ some 0
  | .str s => s ≠ ""
  | .arr xs => !xs.isEmpty
  | .obj ms => !ms.isEmpty

/-- A field annotated `str` and used as a key. A value that is no text
is refused where it is read. -/
def asKey : Json → Py String
  | .str s => .ok s
  | _ => .error .typeError

-- ============================================================= iteration

/-- `for x in value`. A text gives its characters and a dict its
keys. -/
def iterate : Json → Py (List Json)
  | .arr xs => .ok xs
  | .str s => .ok (s.toList.map fun c => .str (String.ofList [c]))
  | .obj ms => .ok (ms.map fun m => .str m.1)
  | _ => .error .typeError

/-- `a, b = value`, for any value that can be iterated over. -/
def unpack2 (value : Json) : Py (Json × Json) :=
  match iterate value with
  | .ok [a, b] => .ok (a, b)
  | .ok _ => .error .valueError
  | .error e => .error e

/-- `a, b, c = value`. -/
def unpack3 (value : Json) : Py (Json × Json × Json) :=
  match iterate value with
  | .ok [a, b, c] => .ok (a, b, c)
  | .ok _ => .error .valueError
  | .error e => .error e

-- ================================================================= times

/-- A `datetime`: microseconds since the epoch (of the local clock when
it carries no zone) and whether it carries one. -/
structure DateTime where
  micros : Int
  aware : Bool
  deriving DecidableEq

/-- `datetime.fromisoformat`, on RFC 3339 texts. Digits of the fraction
past the sixth are dropped, and an offset of a day or more cannot be
read. -/
def fromisoformat (cs : List Char) : Py DateTime :=
  match Rfc3339.scan cs with
  | none => .error .valueError
  | some t =>
      if t.zone = [] then
        .ok ⟨t.seconds * Rfc3339.second + Rfc3339.micros t.fraction, false⟩
      else
        match Rfc3339.offset t.zone with
        | none => .error .valueError
        | some o =>
            .ok ⟨(t.seconds - o) * Rfc3339.second
              + Rfc3339.micros t.fraction, true⟩

/-- `value.replace("Z", "+00:00")`. -/
def replaceZ (cs : List Char) : List Char :=
  cs.flatMap fun c =>
    if c = 'Z' then ['+', '0', '0', ':', '0', '0'] else [c]

/-- The replacement goes character by character. -/
theorem replaceZ_append (cs ds : List Char) :
    replaceZ (cs ++ ds) = replaceZ cs ++ replaceZ ds :=
  List.flatMap_append

/-- A text without the letter is left as it is. -/
theorem replaceZ_of_ne {cs : List Char} (h : ∀ c ∈ cs, c ≠ 'Z') :
    replaceZ cs = cs := by
  induction cs with
  | nil => rfl
  | cons c cs ih =>
      obtain ⟨hc, hcs⟩ := List.forall_mem_cons.mp h
      have hcons : replaceZ (c :: cs) = replaceZ [c] ++ replaceZ cs :=
        replaceZ_append [c] cs
      rw [hcons, ih hcs]
      simp [replaceZ, hc]

/-- `parse_time`. A value that is no text has no `replace`. -/
def parseTime : Json → Py DateTime
  | .str s => fromisoformat (replaceZ s.toList)
  | _ => .error .attributeError

/-- `now - time`, in microseconds, for an aware `now`: subtracting a
naive time from it raises. -/
def since (now : Int) (time : DateTime) : Py Int :=
  if time.aware then .ok (now - time.micros) else .error .typeError

/-- `_iso`: the rendering at millisecond precision, in UTC. The fraction
is cut off, not rounded. -/
def iso (micros : Int) : Rfc3339.Text :=
  .millis (micros / Rfc3339.millisecond)

end MarketPlatform.Consumer
