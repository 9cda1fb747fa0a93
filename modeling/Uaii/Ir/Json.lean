/-
  Uaii.Ir.Json — JSON values, `stringify` and `parse` (`include/uaii/ir/json.hpp`,
  `libs/uaii-ir/src/json_util.cpp`).

  A `std::string` is its bytes, one character each. A number is the value of a finite
  double, so the two zeros are one. Integers below `10 ^ 15` are printed as such, other
  numbers with six significant digits (`numberLiteral`); `stod` takes the nearest double
  and throws when it overflows, or is subnormal and not exact.

  The recursion of `parse` takes fuel, by the text's length.
-/

import Mathlib.Data.String.Basic
import Uaii.Core.Error
import Uaii.Lib.Codec
import Uaii.Lib.Decimal

namespace Uaii.Ir.Json

open Codec Decimal Rounding

/-! ## Numbers -/

/-- The nearest double, for numbers below `2 ^ 1024`. -/
def toDouble (q : ℚ) : ℚ := roundAt 2 (max (lastDigit 2 53 q) (-1074)) q

/-- `std::stod` of a decimal, none when it throws. -/
def stod (q : ℚ) : Option ℚ :=
  if 2 ^ 1024 ≤ |toDouble q| ∨ (|toDouble q| < (2 : ℚ) ^ (-1022 : ℤ) ∧ toDouble q ≠ q) then none else some (toDouble q)

/-- How `dump` prints a number. -/
def numberLiteral (x : ℚ) : Literal := if (⌊x⌋ : ℚ) = x ∧ |x| < 10 ^ 15 then intLiteral ⌊x⌋ else formatG 6 x

/-! ## Values -/

inductive Value where
  | null
  | bool (b : Bool)
  | num (x : ℚ)
  | str (s : String)
  | arr (items : List Value)
  /-- A map, in the order of its keys. -/
  | obj (fields : List (String × Value))

abbrev Object := List (String × Value)

namespace Object

/-- `obj[key] = value`. -/
def set : Object → String → Value → Object
  | [], key, v => [(key, v)]
  | (key', v') :: o, key, v =>
    if key < key' then (key, v) :: (key', v') :: o
    else if key' < key then (key', v') :: set o key v
    else (key, v) :: o

/-- `get`. -/
def get (o : Object) (key : String) : Option Value := (o.find? (·.1 == key)).map (·.2)

end Object

/-! ## `dump` -/

def hexDigit (n : Nat) : Char := Nat.digitChar n

def escape (c : Char) : List Char :=
  if c = '"' then ['\\', '"']
  else if c = '\\' then ['\\', '\\']
  else if c = Char.ofNat 8 then ['\\', 'b']
  else if c = Char.ofNat 12 then ['\\', 'f']
  else if c = '\n' then ['\\', 'n']
  else if c = '\r' then ['\\', 'r']
  else if c = '\t' then ['\\', 't']
  else if c.toNat < 0x20 then ['\\', 'u', '0', '0', hexDigit (c.toNat / 16), hexDigit (c.toNat % 16)]
  else [c]

def writeEscaped (s : String) : List Char := '"' :: s.toList.flatMap escape ++ ['"']

section Dump

variable (pretty : Bool)

def pad (n : Nat) : List Char := if pretty then List.replicate (2 * n) ' ' else []

def newline : List Char := if pretty then ['\n'] else []

/-- Between a key and its value. -/
def colon : List Char := if pretty then [':', ' '] else [':']

/-- After an item: a comma when there are more. -/
def comma {α : Type} (rest : List α) : List Char := if rest.isEmpty then [] else [',']

mutual

def dump (indent : Nat) : Value → List Char
  | .null => ['n', 'u', 'l', 'l']
  | .bool b => if b then ['t', 'r', 'u', 'e'] else ['f', 'a', 'l', 's', 'e']
  | .num x => (numberLiteral x).text
  | .str s => writeEscaped s
  | .arr [] => ['[', ']']
  | .arr (v :: vs) => ['['] ++ newline pretty ++ dumpItems (indent + 1) (v :: vs) ++ pad pretty indent ++ [']']
  | .obj [] => ['\x7b', '\x7d']
  | .obj (kv :: kvs) => ['\x7b'] ++ newline pretty ++ dumpFields (indent + 1) (kv :: kvs) ++ pad pretty indent ++ ['\x7d']

def dumpItems (indent : Nat) : List Value → List Char
  | [] => []
  | v :: vs => pad pretty indent ++ dump indent v ++ comma vs ++ newline pretty ++ dumpItems indent vs

def dumpFields (indent : Nat) : List (String × Value) → List Char
  | [] => []
  | (key, v) :: kvs =>
    pad pretty indent ++ writeEscaped key ++ colon pretty ++ dump indent v ++ comma kvs ++
      newline pretty ++ dumpFields indent kvs

end

def stringify (v : Value) : String := String.ofList (dump pretty 0 v ++ newline pretty)

end Dump

/-! ## `Parser` -/

abbrev Parser (α : Type) := Codec.Reader Char Fault α

/-- `std::isspace`. -/
def isSpace (c : Char) : Bool := c = ' ' || (9 ≤ c.toNat && c.toNat ≤ 13)

section Parser

-- the size of the text
variable (size : Nat)

/-- `fail`, where `rest` is left. -/
def failAt {α : Type} (rest : List Char) (msg : String) : Result α :=
  fail .invalidArgument ("json@" ++ Nat.repr (size - rest.length) ++ ": " ++ msg)

def failHere {α : Type} (msg : String) : Parser α := fun s => failAt size s msg

def skipWs : Parser Unit := fun s => .ok ((), s.dropWhile isSpace)

def consume (c : Char) : Parser Bool := fun s =>
  match s.dropWhile isSpace with
  | [] => .ok (false, [])
  | d :: rest => if d = c then .ok (true, rest) else .ok (false, d :: rest)

/-- `consume`, or fail. -/
def expect (c : Char) (msg : String) : Parser Unit := do
  let found ← consume c
  if found then pure () else failHere size msg

/-- `text_.compare(pos_, n, word) == 0`, and past the word. -/
def word (w : List Char) (v : Value) (orElse : Parser Value) : Parser Value := fun s =>
  if s.take w.length = w then .ok (v, s.drop w.length) else orElse s

def parseNull : Parser Value := word ['n', 'u', 'l', 'l'] .null (failHere size "expected null")

def parseBool : Parser Value :=
  word ['t', 'r', 'u', 'e'] (.bool true) (word ['f', 'a', 'l', 's', 'e'] (.bool false) (failHere size "expected boolean"))

/-! ### Numbers -/

def scanSign : Parser Bool := fun s =>
  match s with
  | '-' :: rest => .ok (true, rest)
  | _ => .ok (false, s)

/-- One digit at least. -/
def scanDigits (msg : String) : Parser (List Char) := fun s =>
  if s.takeWhile Char.isDigit = [] then failAt size s msg else .ok (s.takeWhile Char.isDigit, s.dropWhile Char.isDigit)

/-- Nothing more after a leading zero. -/
def scanInt : Parser (List Char) := fun s =>
  match s with
  | '0' :: rest => .ok (['0'], rest)
  | _ => scanDigits size "invalid number" s

def scanFrac : Parser (List Char) := fun s =>
  match s with
  | '.' :: rest => scanDigits size "invalid fraction" rest
  | _ => .ok ([], s)

def scanExpSign : Parser Bool := fun s =>
  match s with
  | '+' :: rest => .ok (false, rest)
  | '-' :: rest => .ok (true, rest)
  | _ => .ok (false, s)

def scanExp : Parser (Option (Bool × List Char)) := fun s =>
  match s with
  | [] => .ok (none, s)
  | c :: rest =>
    if c = 'e' ∨ c = 'E' then
      (do
        let neg ← scanExpSign
        let ds ← scanDigits size "invalid exponent"
        pure (some (neg, ds)) : Parser (Option (Bool × List Char))) rest
    else .ok (none, s)

def scanLiteral : Parser Literal := do
  let neg ← scanSign
  let int ← scanInt size
  let frac ← scanFrac size
  let exp ← scanExp size
  pure ⟨neg, int, frac, exp⟩

/-- `std::stod` takes all of what was scanned. -/
def parseNumber : Parser Value := do
  let l ← scanLiteral size
  match stod l.value with
  | some x => pure (.num x)
  | none => failHere size "number parse failed"

/-! ### Strings -/

def hexValue (h : Char) : Option Nat :=
  if '0' ≤ h ∧ h ≤ '9' then some (h.toNat - 48)
  else if 'a' ≤ h ∧ h ≤ 'f' then some (h.toNat - 97 + 10)
  else if 'A' ≤ h ∧ h ≤ 'F' then some (h.toNat - 65 + 10)
  else none

/-- One digit of a code, `rest` after it. -/
def hexAt (h : Char) (rest : List Char) : Result Nat :=
  match hexValue h with
  | some v => .ok v
  | none => failAt size rest "invalid unicode escape"

/-- The bytes of a code. -/
def codeBytes (code : Nat) : List Char :=
  if code < 0x80 then [Char.ofNat code]
  else if code < 0x800 then [Char.ofNat (0xC0 + code / 64), Char.ofNat (0x80 + code % 64)]
  else [Char.ofNat (0xE0 + code / 4096), Char.ofNat (0x80 + code / 64 % 64), Char.ofNat (0x80 + code % 64)]

def escaped : Char → Option Char
  | '"' => some '"'
  | '\\' => some '\\'
  | '/' => some '/'
  | 'b' => some (Char.ofNat 8)
  | 'f' => some (Char.ofNat 12)
  | 'n' => some '\n'
  | 'r' => some '\r'
  | 't' => some '\t'
  | _ => none

/-- Before more of the string. -/
def andThen (cs : List Char) (r : Result (List Char × List Char)) : Result (List Char × List Char) :=
  r.map fun p => (cs ++ p.1, p.2)

/-- After the opening quote. -/
def stringBody : List Char → Result (List Char × List Char)
  | [] => failAt size [] "unterminated string"
  | '"' :: s => .ok ([], s)
  | ['\\'] => failAt size [] "unterminated escape"
  | '\\' :: 'u' :: a :: b :: c :: d :: s => do
    let w ← hexAt size a (b :: c :: d :: s)
    let x ← hexAt size b (c :: d :: s)
    let y ← hexAt size c (d :: s)
    let z ← hexAt size d s
    andThen (codeBytes (((w * 16 + x) * 16 + y) * 16 + z)) (stringBody s)
  | '\\' :: 'u' :: s => failAt size s "invalid unicode escape"
  | '\\' :: e :: s =>
    match escaped e with
    | some c => andThen [c] (stringBody s)
    | none => failAt size s "invalid escape"
  | c :: s => andThen [c] (stringBody s)

def parseString : Parser Value := do
  expect size '"' "expected string"
  let cs ← (stringBody size : Parser (List Char))
  pure (.str (String.ofList cs))

/-! ### Arrays and objects -/

/-- The items of an array, of which there is one. -/
def parseItems (item : Parser Value) : Nat → Parser (List Value)
  | 0 => throw (.undefined "out of fuel")
  | fuel + 1 => do
    let v ← item
    skipWs
    let closed ← consume ']'
    if closed then pure [v]
    else do
      expect size ',' "expected ',' or ']' in array"
      let vs ← parseItems item fuel
      pure (v :: vs)

def fieldKey : Value → Parser String
  | .str key => pure key
  | _ => failHere size "object key must be string"

/-- `obj[key] = val`, field by field. -/
def parseFields (item : Parser Value) : Nat → Object → Parser Object
  | 0, _ => throw (.undefined "out of fuel")
  | fuel + 1, obj => do
    let keyV ← item
    let key ← fieldKey size keyV
    expect size ':' "expected ':'"
    let v ← item
    skipWs
    let closed ← consume '\x7d'
    if closed then pure (obj.set key v)
    else do
      expect size ',' "expected ',' or '\x7d' in object"
      parseFields item fuel (obj.set key v)

def parseArray (item : Parser Value) (fuel : Nat) : Parser Value := do
  expect size '[' "expected '['"
  skipWs
  let closed ← consume ']'
  if closed then pure (.arr [])
  else do
    let vs ← parseItems size item fuel
    pure (.arr vs)

def parseObject (item : Parser Value) (fuel : Nat) : Parser Value := do
  expect size '\x7b' "expected '\x7b'"
  skipWs
  let closed ← consume '\x7d'
  if closed then pure (.obj [])
  else do
    let obj ← parseFields size item fuel []
    pure (.obj obj)

def parseValue : Nat → Parser Value
  | 0 => throw (.undefined "out of fuel")
  | fuel + 1 => do
    skipWs
    let s ← get
    match s with
    | [] => failHere size "unexpected end of input"
    | c :: _ =>
      if c = 'n' then parseNull size
      else if c = 't' ∨ c = 'f' then parseBool size
      else if c = '"' then parseString size
      else if c = '[' then parseArray size (parseValue fuel) fuel
      else if c = '\x7b' then parseObject size (parseValue fuel) fuel
      else if c = '-' ∨ c.isDigit then parseNumber size
      else failHere size ("unexpected character '" ++ String.singleton c ++ "'")

end Parser

def parse (text : String) : Result Value := do
  let (v, rest) ← (parseValue text.length (text.length + 1)).run text.toList
  if rest.dropWhile isSpace = [] then .ok v
  else failAt text.length (rest.dropWhile isSpace) "trailing characters after JSON value"

end Uaii.Ir.Json

namespace Uaii.Ir

/-! ## Casts of doubles -/

/-- Toward zero. -/
def trunc (x : ℚ) : Int := if 0 ≤ x then ⌊x⌋ else ⌈x⌉

/-- `static_cast<std::int64_t>`. -/
def castI64 (x : ℚ) : Result Int :=
  if -2 ^ 63 - 1 < x ∧ x < 2 ^ 63 then .ok (trunc x) else .error (.undefined "double out of range")

/-- `static_cast<std::uint64_t>` and `static_cast<std::uint32_t>`. -/
def castUnsigned (bits : Nat) (x : ℚ) : Result Nat :=
  if -1 < x ∧ x < 2 ^ bits then .ok (trunc x).toNat else .error (.undefined "double out of range")

end Uaii.Ir
