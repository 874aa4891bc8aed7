/-
JSON values, their compact text, and the reader that inverts it.

# Values

A number with a fraction or an exponent is kept as its literal together
with the value it denotes (`float`; no value for the infinities and
not-a-number), so that no binary rounding is modelled here. An object is
the list of its members in order; `lookup` gives a repeated name its
last value, as a dict that is filled in this order does.

# Texts

`dumps` writes the text of a value with no white space and with every
character outside printable ASCII escaped (`\uXXXX`, surrogate pairs
above the basic plane). `loads` reads JSON text: white space between
tokens, the usual escapes, raw control characters refused. What a reader
may take beyond the standard, the words for infinities and not-a-number
and a surrogate that stands alone, is refused as well: no string here
has such a character.

The reader recurses on a fuel. It takes at least one character for each
unit of it, so the length of the text and one more is fuel enough, and
`loads` gives it that.

# The round trip

`loads_dumps`, in `JsonText`: reading the text of a textual value —
built from strings, arrays and objects — gives the value back.
`JsonRecord` adds the integers, for objects of scalars, and `JsonLine`
numbers with a fraction and the text with blanks.
-/
import MarketPlatform.Lib.Numeral
import Mathlib.Data.Char

namespace MarketPlatform.Lib

open Numeral

/-- A JSON value. -/
inductive Json where
  | null
  | bool (b : Bool)
  | int (n : Int)
  | float (literal : String) (value : Option ℚ)
  | str (s : String)
  | arr (xs : List Json)
  | obj (members : List (String × Json))

namespace Json

/-- The last value given to a member of an object. -/
def lookup (key : String) (members : List (String × Json)) : Option Json :=
  (members.reverse.find? fun m => m.1 = key).map Prod.snd

-- ============================================================== writing

/-- A hexadecimal digit, lower case. -/
def hexDigit (n : Nat) : Char :=
  if n < 10 then Char.ofNat (48 + n) else Char.ofNat (87 + n)

/-- `\uXXXX`. -/
def escapeUnit (n : Nat) : List Char :=
  ['\\', 'u', hexDigit (n / 4096 % 16), hexDigit (n / 256 % 16),
    hexDigit (n / 16 % 16), hexDigit (n % 16)]

/-- The text of one character inside a string. -/
def escape (c : Char) : List Char :=
  if c = '"' then ['\\', '"']
  else if c = '\\' then ['\\', '\\']
  else if c = '\n' then ['\\', 'n']
  else if c = '\r' then ['\\', 'r']
  else if c = '\t' then ['\\', 't']
  else if c.toNat = 8 then ['\\', 'b']
  else if c.toNat = 12 then ['\\', 'f']
  else if 32 ≤ c.toNat ∧ c.toNat ≤ 126 then [c]
  else if c.toNat < 65536 then escapeUnit c.toNat
  else escapeUnit (55296 + (c.toNat - 65536) / 1024)
    ++ escapeUnit (56320 + (c.toNat - 65536) % 1024)

/-- A string with its quotes. -/
def quote (s : String) : List Char :=
  '"' :: s.toList.flatMap escape ++ ['"']

mutual

/-- The text of a value, by recursion on it. -/
def write : Json → List Char
  | .null => ['n', 'u', 'l', 'l']
  | .bool true => ['t', 'r', 'u', 'e']
  | .bool false => ['f', 'a', 'l', 's', 'e']
  | .int n => (toString n).toList
  | .float literal _ => literal.toList
  | .str s => quote s
  | .arr xs => '[' :: writeElems xs ++ [']']
  | .obj ms => '{' :: writeMembers ms ++ ['}']

/-- Array elements, separated by commas. -/
def writeElems : List Json → List Char
  | [] => []
  | [x] => write x
  | x :: y :: xs => write x ++ ',' :: writeElems (y :: xs)

/-- Object members, separated by commas. -/
def writeMembers : List (String × Json) → List Char
  | [] => []
  | [(k, v)] => quote k ++ ':' :: write v
  | (k, v) :: m :: ms =>
      quote k ++ ':' :: write v ++ ',' :: writeMembers (m :: ms)

end

/-- The compact text of a value. -/
def dumps (j : Json) : String := String.ofList (write j)

-- ============================================================== reading

/-- The value of a hexadecimal digit. -/
def hexVal (c : Char) : Option Nat :=
  if 48 ≤ c.toNat ∧ c.toNat ≤ 57 then some (c.toNat - 48)
  else if 97 ≤ c.toNat ∧ c.toNat ≤ 102 then some (c.toNat - 87)
  else if 65 ≤ c.toNat ∧ c.toNat ≤ 70 then some (c.toNat - 55)
  else none

/-- Four hexadecimal digits. -/
def scanUnit : List Char → Option (Nat × List Char)
  | a :: b :: c :: d :: rest =>
      match hexVal a, hexVal b, hexVal c, hexVal d with
      | some a, some b, some c, some d =>
          some (4096 * a + 256 * b + 16 * c + d, rest)
      | _, _, _, _ => none
  | _ => none

/-- The character after `\u`: one unit, or a surrogate pair. A lone
surrogate denotes no character. -/
def scanUnicode (cs : List Char) : Option (Char × List Char) :=
  match scanUnit cs with
  | none => none
  | some (hi, rest) =>
      if 55296 ≤ hi ∧ hi < 56320 then
        match rest with
        | '\\' :: 'u' :: rest' =>
            match scanUnit rest' with
            | some (lo, rest'') =>
                if 56320 ≤ lo ∧ lo < 57344 then
                  some (Char.ofNat
                    (65536 + 1024 * (hi - 55296) + (lo - 56320)), rest'')
                else none
            | none => none
        | _ => none
      else if 56320 ≤ hi ∧ hi < 57344 then none
      else some (Char.ofNat hi, rest)

/-- The character after a backslash. -/
def scanEscape : List Char → Option (Char × List Char)
  | [] => none
  | e :: rest =>
      if e = '"' then some ('"', rest)
      else if e = '\\' then some ('\\', rest)
      else if e = '/' then some ('/', rest)
      else if e = 'n' then some ('\n', rest)
      else if e = 'r' then some ('\r', rest)
      else if e = 't' then some ('\t', rest)
      else if e = 'b' then some (Char.ofNat 8, rest)
      else if e = 'f' then some (Char.ofNat 12, rest)
      else if e = 'u' then scanUnicode rest
      else none

/-- One character of a string body. -/
def scanChar : List Char → Option (Char × List Char)
  | [] => none
  | c :: rest =>
      if c = '\\' then scanEscape rest
      else if c.toNat < 32 then none
      else some (c, rest)

/-- A string body up to its closing quote. -/
def scanBody : Nat → List Char → Option (List Char × List Char)
  | 0, _ => none
  | _, [] => none
  | fuel + 1, c :: cs =>
      if c = '"' then some ([], cs)
      else
        match scanChar (c :: cs) with
        | none => none
        | some (x, rest) =>
            (scanBody fuel rest).map fun r => (x :: r.1, r.2)

/-- JSON white space. -/
def isSpace (c : Char) : Bool :=
  c = ' ' || c = '\n' || c = '\r' || c = '\t'

/-- What follows the white space. -/
def skip (cs : List Char) : List Char := cs.dropWhile isSpace

/-- The characters a number literal may contain. -/
def isNumeralChar (c : Char) : Bool :=
  c.isDigit || c = '-' || c = '+' || c = '.' || c = 'e' || c = 'E'

/-- The shape of a number literal: no plus sign in front, no leading
zero, digits on both sides of a point. -/
def validNumber (cs : List Char) : Bool :=
  let body := if cs.head? = some '-' then cs.tail else cs
  let whole := (spanDigits body).1
  let rest := (spanDigits body).2
  !whole.isEmpty && (whole.length = 1 || whole.head? ≠ some 0)
    && (rest.head? ≠ some '.' || !(spanFraction rest).1.isEmpty)

/-- A number: an integer literal, or one with a fraction or exponent.
The literal is as long as its characters allow; what it says is left to
`parse`. -/
def scanNumber (cs : List Char) : Option (Json × List Char) :=
  let literal := cs.takeWhile isNumeralChar
  let rest := cs.dropWhile isNumeralChar
  if !validNumber literal then none
  else
    (parse literal).map fun q =>
      if literal.any fun c => c = '.' || c = 'e' || c = 'E' then
        (.float (String.ofList literal) (some q), rest)
      else (.int q.num, rest)

mutual

/-- Read one value, and give back what follows it. The first character
decides which kind of value it is. -/
def read : Nat → List Char → Option (Json × List Char)
  | 0, _ => none
  | _, [] => none
  | fuel + 1, c :: cs =>
      if c = '"' then
        (scanBody fuel cs).map fun r => (.str (String.ofList r.1), r.2)
      else if c = '[' then
        match skip cs with
        | [] => none
        | d :: ds =>
            if d = ']' then some (.arr [], ds)
            else (readElems fuel (d :: ds)).map fun r => (.arr r.1, r.2)
      else if c = '{' then
        match skip cs with
        | [] => none
        | d :: ds =>
            if d = '}' then some (.obj [], ds)
            else (readMembers fuel (d :: ds)).map fun r => (.obj r.1, r.2)
      else if ['n', 'u', 'l', 'l'].isPrefixOf (c :: cs) then
        some (.null, cs.drop 3)
      else if ['t', 'r', 'u', 'e'].isPrefixOf (c :: cs) then
        some (.bool true, cs.drop 3)
      else if ['f', 'a', 'l', 's', 'e'].isPrefixOf (c :: cs) then
        some (.bool false, cs.drop 4)
      else scanNumber (c :: cs)

/-- Read array elements up to the closing bracket. -/
def readElems : Nat → List Char → Option (List Json × List Char)
  | 0, _ => none
  | fuel + 1, cs =>
      match read fuel cs with
      | none => none
      | some (x, rest) =>
          match skip rest with
          | [] => none
          | d :: ds =>
              if d = ']' then some ([x], ds)
              else if d = ',' then
                (readElems fuel (skip ds)).map fun r => (x :: r.1, r.2)
              else none

/-- Read object members up to the closing brace. -/
def readMembers : Nat → List Char → Option (List (String × Json) × List Char)
  | 0, _ => none
  | _, [] => none
  | fuel + 1, q :: cs =>
      if q ≠ '"' then none
      else
        match scanBody fuel cs with
        | none => none
        | some (k, rest) =>
            match skip rest with
            | [] => none
            | s :: ss =>
                if s ≠ ':' then none
                else
                  match read fuel (skip ss) with
                  | none => none
                  | some (v, rest') =>
                      match skip rest' with
                      | [] => none
                      | d :: ds =>
                          if d = '}' then
                            some ([(String.ofList k, v)], ds)
                          else if d = ',' then
                            (readMembers fuel (skip ds)).map fun r =>
                              ((String.ofList k, v) :: r.1, r.2)
                          else none

end

/-- Read a whole text: one value and white space around it. -/
def loads (s : String) : Option Json :=
  let cs := s.toList
  match read (cs.length + 1) (skip cs) with
  | none => none
  | some (j, rest) => if skip rest = [] then some j else none

end Json

end MarketPlatform.Lib
