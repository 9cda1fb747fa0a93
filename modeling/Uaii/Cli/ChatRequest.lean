/-
  Uaii.Cli.ChatRequest — what `cmd_chat` reads of a line of its `--jsonl` protocol
  (`libs/uaii-cli/src/commands/generate.cpp`).

  Each reader searches the line for the key in quotes and for the next colon, wherever they
  are, and reads what follows: a string from the next quote, with escapes of its own; a word;
  or a number as `strtoll` and `strtod` do. A line is its bytes, one character each; the
  sample's numbers are those before their casts.
-/

import Uaii.Ir.JsonAccepted

namespace Uaii.Cli

open Decimal
open Uaii.Ir (trunc)
open Uaii.Ir.Json (Value Object isSpace toDouble hexValue)

/-! ## Finding -/

/-- `line.find(pat)`: what follows it. -/
def findAfter (pat : List Char) : List Char → Option (List Char)
  | [] => none
  | c :: s => if pat.isPrefixOf (c :: s) then some ((c :: s).drop pat.length) else findAfter pat s

/-- `line.find(c, pos)`: what follows it. -/
def afterChar (c : Char) (s : List Char) : Option (List Char) :=
  match s.dropWhile (· != c) with
  | [] => none
  | _ :: t => some t

def quotedKey (key : String) : List Char := '"' :: (key.toList ++ ['"'])

def jsonHasKey (line : List Char) (key : String) : Bool := (findAfter (quotedKey key) line).isSome

/-- What follows the first colon after the key. -/
def afterColon (line : List Char) (key : String) : Option (List Char) :=
  (findAfter (quotedKey key) line).bind (afterChar ':')

/-! ## `strtoll` and `strtod` -/

/-- The limits of `std::int64_t`. -/
def clampI64 (n : Int) : Int := max (-2 ^ 63) (min n (2 ^ 63 - 1))

/-- A sign, and what follows it. -/
def signed (s : List Char) : Bool × List Char :=
  (s.head? = some '-', if s.head? = some '-' ∨ s.head? = some '+' then s.tail else s)

def withSign (neg : Bool) (n : Nat) : Int := if neg then -(n : Int) else n

def strtoll (s : List Char) : Int :=
  let (neg, s) := signed (s.dropWhile isSpace)
  clampI64 (withSign neg (digits (s.takeWhile Char.isDigit)))

inductive Double where
  | finite (x : ℚ)
  | inf (neg : Bool)
  | nan
  deriving DecidableEq, Repr

def Double.ofRat (q : ℚ) : Double := if 2 ^ 1024 ≤ |toDouble q| then .inf (q < 0) else .finite (toDouble q)

/-- An exponent after its mark, if it has a digit. -/
def scanExponent (lower upper : Char) : List Char → Option (Bool × List Char)
  | [] => none
  | c :: s =>
    if (c = lower ∨ c = upper) ∧ (signed s).2.takeWhile Char.isDigit ≠ [] then
      some ((signed s).1, (signed s).2.takeWhile Char.isDigit)
    else none

/-- What follows a point. -/
def pastPoint (s : List Char) : Option (List Char) := if s.head? = some '.' then some s.tail else none

/-- Digits, a point and digits, and what follows. -/
def scanMantissa (digit : Char → Bool) (s : List Char) : List Char × List Char × List Char :=
  match pastPoint (s.dropWhile digit) with
  | none => (s.takeWhile digit, [], s.dropWhile digit)
  | some t => (s.takeWhile digit, t.takeWhile digit, t.dropWhile digit)

def strtodDecimal (neg : Bool) (s : List Char) : Double :=
  let (int, frac, rest) := scanMantissa Char.isDigit s
  if int = [] ∧ frac = [] then .finite 0 else .ofRat (Literal.value ⟨neg, int, frac, scanExponent 'e' 'E' rest⟩)

def isHex (c : Char) : Bool := (hexValue c).isSome

def hexNumber (cs : List Char) : Nat := cs.foldl (fun n c => n * 16 + (hexValue c).getD 0) 0

/-- After `0x`; none without a digit. -/
def strtodHex (neg : Bool) (s : List Char) : Option Double :=
  let (int, frac, rest) := scanMantissa isHex s
  if int = [] ∧ frac = [] then none
  else some (.ofRat ((if neg then -1 else 1) * hexNumber (int ++ frac) *
    (2 : ℚ) ^ (exponent (scanExponent 'p' 'P' rest) - 4 * frac.length)))

/-- What follows `0x`. -/
def hexPrefix (s : List Char) : Option (List Char) :=
  if s.head? = some '0' ∧ (s.tail.head? = some 'x' ∨ s.tail.head? = some 'X') then some (s.drop 2) else none

def strtod (s : List Char) : Double :=
  let (neg, s) := signed (s.dropWhile isSpace)
  if (s.take 3).map Char.toLower = ['i', 'n', 'f'] then .inf neg
  else if (s.take 3).map Char.toLower = ['n', 'a', 'n'] then .nan
  else ((hexPrefix s).bind (strtodHex neg)).getD (strtodDecimal neg s)

/-! ## The readers -/

section

variable {α : Type}

/-- What all of them do: the default where the key or a colon after it is missing. -/
def extractJson (line : List Char) (key : String) (dflt : α) (read : List Char → α) : α :=
  (afterColon line key).elim dflt read

end

def unescapeChar (c : Char) : Char := if c = 'n' then '\n' else if c = 'r' then '\r' else if c = 't' then '\t' else c

/-- Up to a quote. -/
def unescape : List Char → List Char
  | [] => []
  | [c] => if c = '"' then [] else [c]
  | c :: n :: s =>
    if c = '\\' then unescapeChar n :: unescape s else if c = '"' then [] else c :: unescape (n :: s)

def readString (s : List Char) : String := String.ofList ((afterChar '"' s).elim [] unescape)

def extractJsonString (line : List Char) (key : String) : String := extractJson line key "" readString

def isBlank (c : Char) : Bool := c = ' ' || c = '\t'

def readBool (dflt : Bool) (s : List Char) : Bool :=
  let t := s.dropWhile isBlank
  if t.take 4 = ['t', 'r', 'u', 'e'] then true else if t.take 5 = ['f', 'a', 'l', 's', 'e'] then false else dflt

def extractJsonBool (line : List Char) (key : String) (dflt : Bool) : Bool := extractJson line key dflt (readBool dflt)

def extractJsonI64 (line : List Char) (key : String) (dflt : Int) : Int := extractJson line key dflt strtoll

def extractJsonF64 (line : List Char) (key : String) (dflt : Double) : Double := extractJson line key dflt strtod

/-! ## A line -/

structure JsonlSample where
  temperature : Double
  topP : Double
  topK : Int
  repetitionPenalty : Double
  seed : Int
  hasSeed : Bool
  deriving DecidableEq, Repr

structure ChatRequest where
  cmd : String
  id : String
  prompt : String
  system : String
  maxNew : Int
  stream : Bool
  sample : JsonlSample
  deriving DecidableEq, Repr

/-- `sample_from_jsonl`; `SampleParams{}` where a key is missing. -/
def sampleFromJsonl (line : List Char) : JsonlSample where
  temperature := if jsonHasKey line "temperature" then extractJsonF64 line "temperature" (.finite 0) else .finite 0
  topP := if jsonHasKey line "top_p" then extractJsonF64 line "top_p" (.finite 1) else .finite 1
  topK := if jsonHasKey line "top_k" then extractJsonI64 line "top_k" 0 else 0
  repetitionPenalty :=
    if jsonHasKey line "repetition_penalty" then extractJsonF64 line "repetition_penalty" (.finite 1) else .finite 1
  seed := if jsonHasKey line "seed" then extractJsonI64 line "seed" 0 else 0
  hasSeed := jsonHasKey line "seed"

def readRequest (line : List Char) : ChatRequest where
  cmd := extractJsonString line "cmd"
  id := extractJsonString line "id"
  prompt := extractJsonString line "prompt"
  system := extractJsonString line "system"
  maxNew := extractJsonI64 line "max_new_tokens" 64
  stream := extractJsonBool line "stream" true
  sample := sampleFromJsonl line

/-! ## The same from the parser's object -/

def stringOf : Value → Option String
  | .str s => some s
  | _ => none

def boolOf : Value → Option Bool
  | .bool b => some b
  | _ => none

/-- Toward zero. -/
def intOf : Value → Option Int
  | .num x => some (trunc x)
  | _ => none

def doubleOf : Value → Option Double
  | .num x => some (.finite x)
  | _ => none

/-- The default where the key is missing or its value is of another type. -/
def valueOr {α : Type} (o : Object) (key : String) (dflt : α) (ofValue : Value → Option α) : α :=
  ((o.get key).bind ofValue).getD dflt

def requestOf (o : Object) : ChatRequest where
  cmd := valueOr o "cmd" "" stringOf
  id := valueOr o "id" "" stringOf
  prompt := valueOr o "prompt" "" stringOf
  system := valueOr o "system" "" stringOf
  maxNew := valueOr o "max_new_tokens" 64 intOf
  stream := valueOr o "stream" true boolOf
  sample := {
    temperature := valueOr o "temperature" (.finite 0) doubleOf
    topP := valueOr o "top_p" (.finite 1) doubleOf
    topK := valueOr o "top_k" 0 intOf
    repetitionPenalty := valueOr o "repetition_penalty" (.finite 1) doubleOf
    seed := valueOr o "seed" 0 intOf
    hasSeed := ((o.get "seed").bind doubleOf).isSome }

end Uaii.Cli
