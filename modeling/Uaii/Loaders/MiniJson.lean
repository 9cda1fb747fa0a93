/-
  Uaii.Loaders.MiniJson — the JSON of safetensors headers
  (`libs/uaii-loaders/src/safetensors.cpp`: `json_escape`, `MiniJson`).

  A `std::string` is its bytes, one character each. A backslash takes the next character
  as it stands; a number is digits and points, of which `stod` reads a prefix. An object
  keeps the first of two fields with one key, and what follows the value is not looked at.

  The recursion of `parse` takes fuel, by the text's length.

  Proved: strings, numbers, arrays and objects are read back from what the writer prints
  for them, before anything that does not go on with a number (`Spells`).
-/

import Uaii.Ir.JsonRoundTrip

namespace Uaii.Loaders.MiniJson

open Codec Decimal TextStream
open Uaii.Ir.Json (Parser isSpace isSpace_number stod bind_run)

def jsonEscape (s : List Char) : List Char :=
  s.flatMap fun c =>
    if c = '"' then ['\\', '"']
    else if c = '\\' then ['\\', '\\']
    else [c]

/-! ## Values -/

inductive Value where
  | null
  | number (x : ℚ)
  | string (s : String)
  | array (items : List Value)
  /-- A map, in the order of insertion. -/
  | object (fields : List (String × Value))

/-- The field `number`, which is 0 unless the value is one. -/
def Value.num : Value → ℚ
  | .number x => x
  | _ => 0

/-- `obj.emplace(key, val)`. -/
def emplace (fields : List (String × Value)) (key : String) (v : Value) : List (String × Value) :=
  if fields.any (·.1 == key) then fields else fields ++ [(key, v)]

/-- `obj.find(key)`. -/
def findField (fields : List (String × Value)) (key : String) : Option Value := (fields.find? (·.1 == key)).map (·.2)

/-! ## `MiniJson` -/

def failWith {α : Type} (m : String) : Parser α := fun _ => fail .invalidArgument ("safetensors json: " ++ m)

def skip : Parser Unit := fun s => .ok ((), s.dropWhile isSpace)

/-- `text_[pos_] == c`, and past it. -/
def next (c : Char) : Parser Bool := fun s =>
  match s with
  | [] => .ok (false, [])
  | d :: rest => if d = c then .ok (true, rest) else .ok (false, d :: rest)

/-- After the opening quote. -/
def stringBody : List Char → Result (List Char × List Char)
  | [] => fail .invalidArgument "safetensors json: unterminated string"
  | '"' :: s => .ok ([], s)
  | '\\' :: e :: s => (stringBody s).map fun p => (e :: p.1, p.2)
  | c :: s => (stringBody s).map fun p => (c :: p.1, p.2)

def parseString : Parser Value := do
  let _ ← next '"'
  let cs ← (stringBody : Parser (List Char))
  pure (.string (String.ofList cs))

/-- `std::stod` of digits and points: nothing is read from a second point on. -/
def stodText (neg : Bool) (cs : List Char) : Result ℚ :=
  let int := cs.takeWhile Char.isDigit
  let frac := (cs.dropWhile Char.isDigit).tail.takeWhile Char.isDigit
  if int = [] ∧ frac = [] then .error (.thrown "std::invalid_argument")
  else
    match stod (Literal.value ⟨neg, int, frac, none⟩) with
    | some x => .ok x
    | none => .error (.thrown "std::out_of_range")

/-- What a number is made of, after its sign. -/
def numberChar (c : Char) : Bool := c.isDigit || c == '.'

def parseNumber : Parser Value := do
  let neg ← next '-'
  let s ← get
  set (s.dropWhile numberChar)
  let x ← (stodText neg (s.takeWhile numberChar) : Result ℚ)
  pure (.number x)

/-- The items of an array, of which there is one. -/
def parseItems (item : Parser Value) : Nat → Parser (List Value)
  | 0 => throw (.undefined "out of fuel")
  | fuel + 1 => do
    let v ← item
    skip
    let closed ← next ']'
    if closed then pure [v]
    else do
      let comma ← next ','
      if comma then do
        let vs ← parseItems item fuel
        pure (v :: vs)
      else failWith "array comma"

def parseArray (item : Parser Value) (fuel : Nat) : Parser Value := do
  let _ ← next '['
  skip
  let closed ← next ']'
  if closed then pure (.array [])
  else do
    let vs ← parseItems item fuel
    pure (.array vs)

def fieldKey : Value → Parser String
  | .string key => pure key
  | _ => failWith "key"

def parseFields (item : Parser Value) : Nat → List (String × Value) → Parser (List (String × Value))
  | 0, _ => throw (.undefined "out of fuel")
  | fuel + 1, fields => do
    let keyV ← item
    let key ← fieldKey keyV
    skip
    let colon ← next ':'
    if colon then do
      let v ← item
      skip
      let closed ← next '\x7d'
      if closed then pure (emplace fields key v)
      else do
        let comma ← next ','
        if comma then parseFields item fuel (emplace fields key v) else failWith "object comma"
    else failWith "colon"

def parseObject (item : Parser Value) (fuel : Nat) : Parser Value := do
  let _ ← next '\x7b'
  skip
  let closed ← next '\x7d'
  if closed then pure (.object [])
  else do
    let fields ← parseFields item fuel []
    pure (.object fields)

/-- `text_.compare(pos_, 4, "null") == 0`, and past it. -/
def parseNull : Parser Value := fun s =>
  if s.take 4 = ['n', 'u', 'l', 'l'] then .ok (.null, s.drop 4) else (failWith "bad token" : Parser Value) s

def parseValue : Nat → Parser Value
  | 0 => throw (.undefined "out of fuel")
  | fuel + 1 => do
    skip
    let s ← get
    match s with
    | [] => failWith "eof"
    | c :: _ =>
      if c = '\x7b' then parseObject (parseValue fuel) fuel
      else if c = '[' then parseArray (parseValue fuel) fuel
      else if c = '"' then parseString
      else if c = '-' ∨ c.isDigit then parseNumber
      else parseNull

def parse (text : List Char) : Result Value := ((parseValue (text.length + 1)).run text).map (·.1)

/-! ## What the writer prints -/

def quoted (s : String) : List Char := '"' :: (jsonEscape s.toList ++ ['"'])

/-- With a comma between two. -/
def commas : List (List Char) → List Char
  | [] => []
  | [t] => t
  | t :: ts => t ++ ',' :: commas ts

def field (key : String) (value : List Char) : List Char := quoted key ++ ':' :: value

def arrayText (items : List (List Char)) : List Char := '[' :: (commas items ++ [']'])

def objectText (fields : List (List Char)) : List Char := '\x7b' :: (commas fields ++ ['\x7d'])

theorem commas_count (ts : List (List Char)) : ts.length ≤ (commas ts).length + 1 := by
  induction ts with
  | nil => simp
  | cons t ts ih =>
    cases ts with
    | nil => simp
    | cons u us =>
      simp only [commas, List.length_append, List.length_cons] at ih ⊢
      omega

theorem length_le_commas {t : List Char} {ts : List (List Char)} (h : t ∈ ts) : t.length ≤ (commas ts).length := by
  induction ts with
  | nil => cases h
  | cons u us ih =>
    cases us with
    | nil =>
      obtain rfl := List.mem_singleton.mp h
      exact le_rfl
    | cons w ws =>
      simp only [commas, List.length_append, List.length_cons]
      rcases List.mem_cons.mp h with rfl | h
      · omega
      · have hle := ih h
        omega

/-! ## Reading it back -/

section Steps

variable {n : Nat} {c : Char} {rest s : List Char} {v : Value} {item : Parser Value}

theorem next_hit (c : Char) (rest : List Char) : next c (c :: rest) = .ok (true, rest) := by simp [next]

theorem next_miss {d : Char} (h : d ≠ c) (rest : List Char) : next c (d :: rest) = .ok (false, d :: rest) := by simp [next, h]

theorem skip_run (hc : isSpace c = false) (rest : List Char) : skip (c :: rest) = .ok ((), c :: rest) := by simp [skip, hc]

theorem get_run (s : List Char) : (get : Parser (List Char)) s = .ok (s, s) := rfl

theorem parseValue_dispatch (hc : isSpace c = false) :
    parseValue (n + 1) (c :: rest) =
      (if c = '\x7b' then parseObject (parseValue n) n
      else if c = '[' then parseArray (parseValue n) n
      else if c = '"' then parseString
      else if c = '-' ∨ c.isDigit then parseNumber
      else parseNull) (c :: rest) := by
  refine (bind_run (skip_run hc rest)).trans ?_
  exact bind_run (get_run _)

theorem parseItems_last (h : item s = .ok (v, ']' :: rest)) : parseItems item (n + 1) s = .ok ([v], rest) := by
  refine (bind_run h).trans ?_
  refine (bind_run (skip_run rfl rest)).trans ?_
  exact bind_run (next_hit ']' rest)

theorem parseItems_more (h : item s = .ok (v, ',' :: rest)) :
    parseItems item (n + 1) s = (parseItems item n rest).bind fun t => .ok (v :: t.1, t.2) := by
  refine (bind_run h).trans ?_
  refine (bind_run (skip_run rfl rest)).trans ?_
  refine (bind_run (next_miss (by decide) rest)).trans ?_
  exact bind_run (next_hit ',' rest)

variable {fields : List (String × Value)} {key : String} {s' : List Char}

theorem parseFields_last (hkey : item s = .ok (.string key, ':' :: s')) (h : item s' = .ok (v, '\x7d' :: rest)) :
    parseFields item (n + 1) fields s = .ok (emplace fields key v, rest) := by
  refine (bind_run hkey).trans ?_
  refine (bind_run (show fieldKey (.string key) (':' :: s') = .ok (key, ':' :: s') from rfl)).trans ?_
  refine (bind_run (skip_run rfl s')).trans ?_
  refine (bind_run (next_hit ':' s')).trans ?_
  refine (bind_run h).trans ?_
  refine (bind_run (skip_run rfl rest)).trans ?_
  exact bind_run (next_hit '\x7d' rest)

theorem parseFields_more (hkey : item s = .ok (.string key, ':' :: s')) (h : item s' = .ok (v, ',' :: rest)) :
    parseFields item (n + 1) fields s = parseFields item n (emplace fields key v) rest := by
  refine (bind_run hkey).trans ?_
  refine (bind_run (show fieldKey (.string key) (':' :: s') = .ok (key, ':' :: s') from rfl)).trans ?_
  refine (bind_run (skip_run rfl s')).trans ?_
  refine (bind_run (next_hit ':' s')).trans ?_
  refine (bind_run h).trans ?_
  refine (bind_run (skip_run rfl rest)).trans ?_
  refine (bind_run (next_miss (by decide) rest)).trans ?_
  exact bind_run (next_hit ',' rest)

end Steps

/-- `t` is read as `v`, before what does not go on with a number. -/
structure Spells (t : List Char) (v : Value) : Prop where
  head : ∃ c s, t = c :: s ∧ isSpace c = false ∧ c ≠ ']'
  run : ∀ fuel rest, t.length ≤ fuel → Ends numberChar rest → parseValue (fuel + 1) (t ++ rest) = .ok (v, rest)

theorem stringBody_run (cs rest : List Char) : stringBody (jsonEscape cs ++ '"' :: rest) = .ok (cs, rest) := by
  induction cs with
  | nil => rfl
  | cons c cs ih =>
    have hcons : jsonEscape (c :: cs) = jsonEscape [c] ++ jsonEscape cs := by simp [jsonEscape]
    rw [hcons, List.append_assoc]
    generalize jsonEscape cs ++ '"' :: rest = t at ih ⊢
    by_cases hquote : c = '"'
    · subst hquote
      simp [jsonEscape, stringBody, ih, Except.map]
    · by_cases hback : c = '\\'
      · subst hback
        simp [jsonEscape, stringBody, ih, Except.map]
      · have hone : jsonEscape [c] = [c] := by simp [jsonEscape, hquote, hback]
        rw [hone, List.singleton_append, stringBody.eq_def]
        split <;> simp_all [Except.map]

theorem string_spells (s : String) : Spells (quoted s) (.string s) where
  head := ⟨'"', _, rfl, rfl, by decide⟩
  run fuel rest _ _ := by
    have hbody := stringBody_run s.toList rest
    have htext : quoted s ++ rest = '"' :: (jsonEscape s.toList ++ '"' :: rest) := by simp [quoted]
    rw [htext, parseValue_dispatch rfl]
    show parseString _ = _
    refine (bind_run (next_hit '"' _)).trans ?_
    refine (bind_run hbody).trans ?_
    rw [String.ofList_toList]
    rfl

theorem ends_comma (rest : List Char) : Ends numberChar (',' :: rest) := fun c hc => by cases hc; rfl

theorem ends_bracket (rest : List Char) : Ends numberChar (']' :: rest) := fun c hc => by cases hc; rfl

theorem ends_brace (rest : List Char) : Ends numberChar ('\x7d' :: rest) := fun c hc => by cases hc; rfl

theorem stodText_decimal (i : Int) {x : ℚ} (h : stod i = some x) : stodText (decide (i < 0)) (decimal i.natAbs) = .ok x := by
  have hdigits : ∀ c ∈ decimal i.natAbs, c.isDigit = true := fun c hc => toDigits_isDigit hc
  obtain ⟨htake, hdrop⟩ := scan_while hdigits (show Ends Char.isDigit [] from fun c hc => by cases hc)
  rw [List.append_nil] at htake hdrop
  have hne : decimal i.natAbs ≠ [] := Nat.toDigits_ne_nil
  have hvalue : Literal.value ⟨decide (i < 0), decimal i.natAbs, [], none⟩ = i := intLiteral_value i
  unfold stodText
  simp only [htake, hdrop, List.tail_nil, List.takeWhile_nil, hne, false_and, if_false, hvalue, h]

/-- A number is read as one. -/
theorem parseValue_number {n : Nat} {c : Char} {rest : List Char} (hc : c = '-' ∨ c.isDigit = true) :
    parseValue (n + 1) (c :: rest) = parseNumber (c :: rest) := by
  have hne : ∀ d : Char, ¬ (d = '-' ∨ d.isDigit = true) → c ≠ d := fun d hd h => hd (h ▸ hc)
  rw [parseValue_dispatch (isSpace_number hc), if_neg (hne '\x7b' (by decide)), if_neg (hne '[' (by decide)),
    if_neg (hne '"' (by decide)), if_pos hc]

theorem integer_head (i : Int) : ∃ c s, integer i = c :: s ∧ (c = '-' ∨ c.isDigit = true) := by
  obtain ⟨d, ds, hds, hd⟩ := decimal_head i.natAbs
  unfold integer
  split
  · exact ⟨'-', _, rfl, .inl rfl⟩
  · exact ⟨d, ds, by rw [hds]; rfl, .inr hd⟩

theorem sign_run (i : Int) (rest : List Char) :
    next '-' (integer i ++ rest) = .ok (decide (i < 0), decimal i.natAbs ++ rest) := by
  by_cases hneg : i < 0
  · have htext : integer i ++ rest = '-' :: (decimal i.natAbs ++ rest) := by simp [integer, hneg]
    rw [htext, next_hit, decide_eq_true hneg]
  · obtain ⟨d, ds, hds, hd⟩ := decimal_head i.natAbs
    have hminus : d ≠ '-' := by
      rintro rfl
      cases hd
    have htext : integer i ++ rest = d :: (ds ++ rest) := by simp [integer, hneg, hds]
    rw [htext, next_miss hminus, decide_eq_false hneg, hds]
    rfl

theorem number_spells {i : Int} {x : ℚ} (h : stod i = some x) : Spells (integer i) (.number x) where
  head := by
    obtain ⟨c, s, htext, hc⟩ := integer_head i
    refine ⟨c, s, htext, isSpace_number hc, ?_⟩
    rintro rfl
    exact absurd hc (by decide)
  run fuel rest _ hrest := by
    have hnum : ∀ c ∈ decimal i.natAbs, numberChar c = true := by
      intro c hc
      have hdigit := toDigits_isDigit hc
      simp [numberChar, hdigit]
    obtain ⟨htake, hdrop⟩ := scan_while hnum hrest
    obtain ⟨c, s, htext, hc⟩ := integer_head i
    have hparse : parseValue (fuel + 1) (integer i ++ rest) = parseNumber (integer i ++ rest) := by
      rw [htext]
      exact parseValue_number hc
    rw [hparse]
    refine (bind_run (sign_run i rest)).trans ?_
    refine (bind_run (get_run _)).trans ?_
    rw [htake, hdrop, stodText_decimal i h]
    rfl

/-! ### Arrays and objects -/

section Brackets

variable {n fuel : Nat} {rest : List Char}

theorem items_run (rest : List Char) : ∀ {n : Nat} {tvs : List (List Char × Value)}, tvs ≠ [] → tvs.length ≤ n →
    (∀ tv ∈ tvs, Spells tv.1 tv.2 ∧ tv.1.length ≤ fuel) →
    parseItems (parseValue (fuel + 1)) n (commas (tvs.map (·.1)) ++ ']' :: rest) = .ok (tvs.map (·.2), rest)
  | _, [], hne, _, _ => absurd rfl hne
  | 0, _ :: _, _, hn, _ => absurd hn (by simp)
  | n + 1, [tv], _, _, h =>
    have htv := h tv List.mem_cons_self
    parseItems_last (htv.1.run fuel _ htv.2 (ends_bracket rest))
  | n + 1, tv :: tv' :: tvs, _, hn, h => by
    obtain ⟨hspells, hlen⟩ := h tv List.mem_cons_self
    have ih := items_run rest (n := n) (List.cons_ne_nil tv' tvs) (by simpa using hn) fun e he => h e (List.mem_cons_of_mem _ he)
    have htext : commas ((tv :: tv' :: tvs).map (·.1)) ++ ']' :: rest =
        tv.1 ++ ',' :: (commas ((tv' :: tvs).map (·.1)) ++ ']' :: rest) := by simp [commas]
    rw [htext, parseItems_more (hspells.run fuel _ hlen (ends_comma _)), ih]
    rfl

/-- The text of a list that is not empty begins as its first item does. -/
theorem commas_head {t : List Char} (ts : List (List Char)) (rest : List Char) {c : Char} {s : List Char} (h : t = c :: s) :
    ∃ s', commas (t :: ts) ++ rest = c :: s' := by
  subst h
  cases ts with
  | nil => exact ⟨s ++ rest, rfl⟩
  | cons u us => exact ⟨s ++ ',' :: commas (u :: us) ++ rest, rfl⟩

theorem array_spells (tvs : List (List Char × Value)) (h : ∀ tv ∈ tvs, Spells tv.1 tv.2) :
    Spells (arrayText (tvs.map (·.1))) (.array (tvs.map (·.2))) where
  head := ⟨'[', _, rfl, rfl, by decide⟩
  run fuel rest hfuel hrest := by
    have hcount := commas_count (tvs.map (·.1))
    simp only [arrayText, List.length_cons, List.length_append, List.length_nil, List.length_map] at hfuel hcount
    have htext : arrayText (tvs.map (·.1)) ++ rest = '[' :: (commas (tvs.map (·.1)) ++ ']' :: rest) := by simp [arrayText]
    rw [htext, parseValue_dispatch rfl]
    show parseArray (parseValue fuel) fuel _ = _
    refine (bind_run (next_hit '[' _)).trans ?_
    cases tvs with
    | nil =>
      refine (bind_run (skip_run rfl rest)).trans ?_
      exact bind_run (next_hit ']' rest)
    | cons tv tvs =>
      obtain ⟨m, rfl⟩ := Nat.exists_eq_add_of_le' (show 1 ≤ fuel by omega)
      have hlen : ∀ e ∈ tv :: tvs, e.1.length ≤ m := by
        intro e he
        have hle := length_le_commas (List.mem_map_of_mem (f := (·.1)) he)
        omega
      have hitems := items_run rest (n := m + 1) (List.cons_ne_nil tv tvs) (by omega) fun e he => ⟨h e he, hlen e he⟩
      obtain ⟨c, s, hhead, hspace, hne⟩ := (h tv List.mem_cons_self).head
      obtain ⟨s', hs'⟩ := commas_head (tvs.map (·.1)) (']' :: rest) hhead
      rw [List.map_cons, hs'] at hitems ⊢
      refine (bind_run (skip_run hspace s')).trans ?_
      refine (bind_run (next_miss hne s')).trans ?_
      exact bind_run hitems

theorem emplace_new {fields : List (String × Value)} {key : String} (h : key ∉ fields.map (·.1)) (v : Value) :
    emplace fields key v = fields ++ [(key, v)] := by
  rw [emplace, if_neg]
  simpa using h

/-- A key, the text of its value and the value. -/
abbrev Entry := String × List Char × Value

def Entry.text (e : Entry) : List Char := field e.1 e.2.1

def Entry.pair (e : Entry) : String × Value := (e.1, e.2.2)

theorem fields_run (rest : List Char) : ∀ {n : Nat} {es : List Entry} (fields : List (String × Value)), es ≠ [] → es.length ≤ n →
    ((fields ++ es.map Entry.pair).map (·.1)).Nodup → (∀ e ∈ es, Spells e.2.1 e.2.2 ∧ e.text.length ≤ fuel) →
    parseFields (parseValue (fuel + 1)) n fields (commas (es.map Entry.text) ++ '\x7d' :: rest) =
      .ok (fields ++ es.map Entry.pair, rest) := by
  intro n
  induction n with
  | zero =>
    intro es fields hne hn
    cases es with
    | nil => exact absurd rfl hne
    | cons e es => simp at hn
  | succ n ih =>
    intro es fields hne hn hkeys h
    cases es with
    | nil => exact absurd rfl hne
    | cons e es =>
      obtain ⟨hspells, hlen⟩ := h e List.mem_cons_self
      have hlen' : (quoted e.1).length ≤ fuel ∧ e.2.1.length ≤ fuel := by
        simp only [Entry.text, field, List.length_append, List.length_cons] at hlen
        omega
      have hkey : ∀ t, parseValue (fuel + 1) (quoted e.1 ++ ':' :: t) = .ok (.string e.1, ':' :: t) := fun t =>
        (string_spells e.1).run fuel _ hlen'.1 fun c hc => by cases hc; rfl
      have hnew : e.1 ∉ fields.map (·.1) := by
        rw [List.map_append] at hkeys
        intro hmem
        exact (List.nodup_append.mp hkeys).2.2 _ hmem _ (by simp [Entry.pair]) rfl
      have hset : emplace fields e.1 e.2.2 = fields ++ [e.pair] := emplace_new hnew _
      cases es with
      | nil =>
        have htext : commas ([e].map Entry.text) ++ '\x7d' :: rest = quoted e.1 ++ ':' :: (e.2.1 ++ '\x7d' :: rest) := by
          simp [commas, Entry.text, field]
        rw [htext, parseFields_last (hkey _) (hspells.run fuel _ hlen'.2 (ends_brace rest)), hset]
        rfl
      | cons e' es =>
        have htext : commas ((e :: e' :: es).map Entry.text) ++ '\x7d' :: rest =
            quoted e.1 ++ ':' :: (e.2.1 ++ ',' :: (commas ((e' :: es).map Entry.text) ++ '\x7d' :: rest)) := by
          simp [commas, Entry.text, field]
        have hrest := ih (fields ++ [e.pair]) (List.cons_ne_nil e' es) (by simpa using hn)
          (by simpa using hkeys) fun d hd => h d (List.mem_cons_of_mem _ hd)
        rw [htext, parseFields_more (hkey _) (hspells.run fuel _ hlen'.2 (ends_comma _)), hset, hrest]
        simp

theorem object_spells (es : List Entry) (hkeys : (es.map (·.1)).Nodup) (h : ∀ e ∈ es, Spells e.2.1 e.2.2) :
    Spells (objectText (es.map Entry.text)) (.object (es.map Entry.pair)) where
  head := ⟨'\x7b', _, rfl, rfl, by decide⟩
  run fuel rest hfuel hrest := by
    have hcount := commas_count (es.map Entry.text)
    simp only [objectText, List.length_cons, List.length_append, List.length_nil, List.length_map] at hfuel hcount
    have htext : objectText (es.map Entry.text) ++ rest = '\x7b' :: (commas (es.map Entry.text) ++ '\x7d' :: rest) := by
      simp [objectText]
    rw [htext, parseValue_dispatch rfl]
    show parseObject (parseValue fuel) fuel _ = _
    refine (bind_run (next_hit '\x7b' _)).trans ?_
    cases es with
    | nil =>
      refine (bind_run (skip_run rfl rest)).trans ?_
      exact bind_run (next_hit '\x7d' rest)
    | cons e es =>
      obtain ⟨m, rfl⟩ := Nat.exists_eq_add_of_le' (show 1 ≤ fuel by omega)
      have hlen : ∀ d ∈ e :: es, d.text.length ≤ m := by
        intro d hd
        have hle := length_le_commas (List.mem_map_of_mem (f := Entry.text) hd)
        omega
      have hfields := fields_run rest (n := m + 1) [] (List.cons_ne_nil e es) (by omega)
        (by simpa [Entry.pair, Function.comp_def] using hkeys) fun d hd => ⟨h d hd, hlen d hd⟩
      obtain ⟨s', hs'⟩ := commas_head (es.map Entry.text) ('\x7d' :: rest)
        (show e.text = '"' :: _ from rfl)
      rw [List.map_cons, hs'] at hfields ⊢
      refine (bind_run (skip_run rfl s')).trans ?_
      refine (bind_run (next_miss (by decide) s')).trans ?_
      exact bind_run hfields

end Brackets

/-- What is printed is read back, whatever follows an object. -/
theorem Spells.parse {t : List Char} {v : Value} (h : Spells t v) : MiniJson.parse t = .ok v := by
  have hrun := h.run t.length [] le_rfl fun c hc => by cases hc
  rw [List.append_nil] at hrun
  show Except.map _ (parseValue (t.length + 1) t) = _
  rw [hrun]
  rfl

end Uaii.Loaders.MiniJson
