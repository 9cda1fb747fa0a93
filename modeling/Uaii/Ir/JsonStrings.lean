/-
  Uaii.Ir.JsonStrings — the strings of JSON texts and what `Parser::parse_string`
  (`libs/uaii-ir/src/json_util.cpp`) reads them as.

  A text is its bytes, one character each. Between its quotes a string is a row of items:
  bytes as they stand, short escapes, and `\u` with four hex digits (`Item`). A Unicode
  string has many spellings (`Spelling`): a character is its UTF-8 or its short escape,
  or one `\u`, or two for a surrogate pair.

  Proved: items are read one by one (`stringBody_items`), so a spelled string is read as
  its UTF-8 exactly when no character of it is spelled by a pair (`parse_spelled_iff`).

  As built, each `\u` is encoded on its own: a pair becomes six bytes that are no UTF-8
  (`pair_is_six_bytes`).
-/

import Uaii.Ir.JsonRoundTrip

namespace Uaii.Ir.Json

open Codec

/-! ## Items -/

/-- The number of four hex digits. -/
def hexCode (a b c d : Char) : Option Nat := do
  let w ← hexValue a
  let x ← hexValue b
  let y ← hexValue c
  let z ← hexValue d
  pure (((w * 16 + x) * 16 + y) * 16 + z)

/-- What follows `\u`. -/
structure CodeUnit where
  a : Char
  b : Char
  c : Char
  d : Char
  code : Nat
  spelled : hexCode a b c d = some code

inductive Item where
  | raw (b : Char) (h : b ≠ '"' ∧ b ≠ '\\')
  | short (e c : Char) (h : escaped e = some c)
  | unit (u : CodeUnit)

namespace Item

def text : Item → List Char
  | raw b _ => [b]
  | short e _ _ => ['\\', e]
  | unit u => ['\\', 'u', u.a, u.b, u.c, u.d]

/-- What the parser appends. -/
def bytes : Item → List Char
  | raw b _ => [b]
  | short _ c _ => [c]
  | unit u => codeBytes u.code

end Item

theorem hexValue_lt {h : Char} {v : Nat} (hv : hexValue h = some v) : v < 16 := by
  unfold hexValue at hv
  have hle : ∀ {a b : Char}, a ≤ b → a.toNat ≤ b.toNat := fun hab => hab
  split_ifs at hv with h1 h2 h3
  · cases hv
    have := hle h1.2
    simp at this
    omega
  · cases hv
    have := hle h2.2
    simp at this
    omega
  · cases hv
    have := hle h3.2
    simp at this
    omega

theorem hexCode_some {a b c d : Char} {code : Nat} (h : hexCode a b c d = some code) :
    ∃ w x y z, hexValue a = some w ∧ hexValue b = some x ∧ hexValue c = some y ∧ hexValue d = some z ∧
      code = ((w * 16 + x) * 16 + y) * 16 + z := by
  unfold hexCode at h
  obtain ⟨w, hw, h⟩ := Option.bind_eq_some_iff.mp h
  obtain ⟨x, hx, h⟩ := Option.bind_eq_some_iff.mp h
  obtain ⟨y, hy, h⟩ := Option.bind_eq_some_iff.mp h
  obtain ⟨z, hz, h⟩ := Option.bind_eq_some_iff.mp h
  exact ⟨w, x, y, z, hw, hx, hy, hz, (Option.some.inj h).symm⟩

theorem CodeUnit.lt (u : CodeUnit) : u.code < 0x10000 := by
  obtain ⟨w, x, y, z, hw, hx, hy, hz, hcode⟩ := hexCode_some u.spelled
  have := hexValue_lt hw
  have := hexValue_lt hx
  have := hexValue_lt hy
  have := hexValue_lt hz
  omega

/-- A byte that is no quote and no backslash. -/
theorem stringBody_raw (size : Nat) {b : Char} (h : b ≠ '"' ∧ b ≠ '\\') (t : List Char) :
    stringBody size (b :: t) = andThen [b] (stringBody size t) := by
  obtain ⟨hquote, hback⟩ := h
  rw [stringBody.eq_def]
  split <;> simp_all

theorem stringBody_short (size : Nat) {e c : Char} (h : escaped e = some c) (t : List Char) :
    stringBody size ('\\' :: e :: t) = andThen [c] (stringBody size t) := by
  have hu : e ≠ 'u' := by
    intro he
    subst he
    cases h
  rw [stringBody.eq_def]
  split <;> grind

theorem stringBody_unit (size : Nat) (u : CodeUnit) (t : List Char) :
    stringBody size ('\\' :: 'u' :: u.a :: u.b :: u.c :: u.d :: t) = andThen (codeBytes u.code) (stringBody size t) := by
  obtain ⟨w, x, y, z, hw, hx, hy, hz, hcode⟩ := hexCode_some u.spelled
  rw [stringBody, hcode]
  simp only [hexAt, hw, hx, hy, hz]
  rfl

theorem stringBody_item (size : Nat) (i : Item) (t : List Char) :
    stringBody size (i.text ++ t) = andThen i.bytes (stringBody size t) := by
  cases i with
  | raw b h => exact stringBody_raw size h t
  | short e c h => exact stringBody_short size h t
  | unit u => exact stringBody_unit size u t

/-- Up to the closing quote. -/
theorem stringBody_items (size : Nat) (items : List Item) (rest : List Char) :
    stringBody size (items.flatMap Item.text ++ '"' :: rest) = .ok (items.flatMap Item.bytes, rest) := by
  induction items with
  | nil => rfl
  | cons i items ih =>
    rw [List.flatMap_cons, List.append_assoc, stringBody_item, ih]
    rfl

def quoteItems (items : List Item) : List Char := '"' :: (items.flatMap Item.text ++ ['"'])

theorem parseString_items (size : Nat) (items : List Item) (rest : List Char) :
    parseString size (quoteItems items ++ rest) = .ok (.str (String.ofList (items.flatMap Item.bytes)), rest) := by
  have hbody := stringBody_items size items rest
  show (stringBody size (items.flatMap Item.text ++ ['"'] ++ rest)).bind _ = _
  rw [List.append_assoc, show ['"'] ++ rest = '"' :: rest from rfl, hbody]
  rfl

theorem parse_items (items : List Item) :
    parse (String.ofList (quoteItems items)) = .ok (.str (String.ofList (items.flatMap Item.bytes))) := by
  have hread : (parseValue (String.ofList (quoteItems items)).length ((String.ofList (quoteItems items)).length + 1)).run
      (quoteItems items) = .ok (.str (String.ofList (items.flatMap Item.bytes)), []) := by
    have hstring := parseString_items (String.ofList (quoteItems items)).length items []
    rw [List.append_nil] at hstring
    refine Eq.trans (parseValue_dispatch (c := '"') no_space rfl) ?_
    exact hstring
  rw [parse, String.toList_ofList, hread]
  rfl

/-! ## Unicode -/

/-- The bytes of a character. -/
def utf8Bytes (c : Char) : List Char := textOf (String.utf8EncodeChar c)

/-- A character's spelling. -/
inductive Spelling where
  | raw (c : Char) (h : c ≠ '"' ∧ c ≠ '\\')
  | short (e c : Char) (h : escaped e = some c)
  | unit (u : CodeUnit) (c : Char) (h : c.toNat = u.code)
  /-- A surrogate pair. -/
  | pair (hi lo : CodeUnit) (c : Char) (hhi : 0xD800 ≤ hi.code ∧ hi.code < 0xDC00) (hlo : 0xDC00 ≤ lo.code ∧ lo.code < 0xE000)
      (h : c.toNat = 0x10000 + (hi.code - 0xD800) * 0x400 + (lo.code - 0xDC00))

theorem utf8Bytes_eq (c : Char) : utf8Bytes c =
    if c.toNat ≤ 0x7F then [c]
    else if c.toNat ≤ 0x7FF then [Char.ofNat (c.toNat / 64 + 0xC0), Char.ofNat (c.toNat % 64 + 0x80)]
    else if c.toNat ≤ 0xFFFF then
      [Char.ofNat (c.toNat / 4096 + 0xE0), Char.ofNat (c.toNat / 64 % 64 + 0x80), Char.ofNat (c.toNat % 64 + 0x80)]
    else
      [Char.ofNat (c.toNat / 262144 % 8 + 0xF0), Char.ofNat (c.toNat / 4096 % 64 + 0x80), Char.ofNat (c.toNat / 64 % 64 + 0x80),
        Char.ofNat (c.toNat % 64 + 0x80)] := by
  have hbyte : ∀ {n : Nat}, n < 256 → Char.ofNat (UInt8.ofNat n).toNat = Char.ofNat n := fun h => by
    rw [UInt8.toNat_ofNat_of_lt' h]
  unfold utf8Bytes textOf String.utf8EncodeChar
  rw [show c.val.toNat = c.toNat from rfl]
  dsimp only
  split_ifs with h1 h2 h3
  · rw [List.map_singleton, hbyte (by omega), Char.ofNat_toNat]
  · simp only [List.map_cons, List.map_nil]
    rw [hbyte (by omega), hbyte (by omega), Nat.mod_eq_of_lt (show c.toNat / 64 < 32 by omega)]
  · simp only [List.map_cons, List.map_nil]
    rw [hbyte (by omega), hbyte (by omega), hbyte (by omega), Nat.mod_eq_of_lt (show c.toNat / 4096 < 16 by omega)]
  · simp only [List.map_cons, List.map_nil]
    rw [hbyte (by omega), hbyte (by omega), hbyte (by omega), hbyte (by omega)]

/-- A byte of a longer character is no quote and no backslash. -/
theorem high_byte {n : Nat} (hlo : 0x80 ≤ n) (hhi : n < 256) : Char.ofNat n ≠ '"' ∧ Char.ofNat n ≠ '\\' := by
  have hall : ∀ n : Fin 256, 0x80 ≤ n.val → Char.ofNat n.val ≠ '"' ∧ Char.ofNat n.val ≠ '\\' := by decide +kernel
  exact hall ⟨n, hhi⟩ hlo

theorem utf8Bytes_plain {c : Char} (h : c ≠ '"' ∧ c ≠ '\\') : ∀ b ∈ utf8Bytes c, b ≠ '"' ∧ b ≠ '\\' := by
  rw [utf8Bytes_eq]
  split_ifs with h1 h2 h3
  · simpa using h
  · simp only [List.forall_mem_cons]
    exact ⟨high_byte (by omega) (by omega), high_byte (by omega) (by omega), by simp⟩
  · simp only [List.forall_mem_cons]
    exact ⟨high_byte (by omega) (by omega), high_byte (by omega) (by omega), high_byte (by omega) (by omega), by simp⟩
  · simp only [List.forall_mem_cons]
    exact ⟨high_byte (by omega) (by omega), high_byte (by omega) (by omega), high_byte (by omega) (by omega),
      high_byte (by omega) (by omega), by simp⟩

/-- Below 2^16 the parser writes UTF-8. -/
theorem codeBytes_char {c : Char} (h : c.toNat < 0x10000) : codeBytes c.toNat = utf8Bytes c := by
  rw [utf8Bytes_eq]
  unfold codeBytes
  by_cases h1 : c.toNat < 0x80
  · rw [if_pos h1, if_pos (by omega), Char.ofNat_toNat]
  by_cases h2 : c.toNat < 0x800
  · rw [if_neg h1, if_pos h2, if_neg (show ¬ c.toNat ≤ 0x7F by omega), if_pos (by omega), Nat.add_comm 0xC0, Nat.add_comm 0x80]
  · rw [if_neg h1, if_neg h2, if_neg (show ¬ c.toNat ≤ 0x7F by omega), if_neg (show ¬ c.toNat ≤ 0x7FF by omega), if_pos (by omega),
      Nat.add_comm 0xE0, Nat.add_comm 0x80, Nat.add_comm 0x80]

theorem escaped_ascii {e c : Char} (h : escaped e = some c) : utf8Bytes c = [c] := by
  have hlow : c.toNat ≤ 0x7F := by
    unfold escaped at h
    split at h
    all_goals first | (cases h; decide) | cases h
  rw [utf8Bytes_eq, if_pos hlow]

namespace Spelling

def char : Spelling → Char
  | raw c _ => c
  | short _ c _ => c
  | unit _ c _ => c
  | pair _ _ c _ _ _ => c

def isPair : Spelling → Bool
  | pair .. => true
  | _ => false

def items : Spelling → List Item
  | raw c h => (utf8Bytes c).pmap Item.raw (utf8Bytes_plain h)
  | short e c h => [.short e c h]
  | unit u _ _ => [.unit u]
  | pair hi lo _ _ _ _ => [.unit hi, .unit lo]

/-- The spelled characters, in quotes. -/
def quote (ss : List Spelling) : List Char := quoteItems (ss.flatMap items)

end Spelling

/-- The UTF-8 of a string. -/
def utf8Text (cs : List Char) : List Char := cs.flatMap utf8Bytes

theorem pmap_raw_bytes : ∀ (bs : List Char) (h : ∀ b ∈ bs, b ≠ '"' ∧ b ≠ '\\'), (bs.pmap Item.raw h).flatMap Item.bytes = bs := by
  intro bs
  induction bs with
  | nil => exact fun _ => rfl
  | cons b bs ih =>
    intro h
    rw [List.pmap_cons, List.flatMap_cons, ih]
    rfl

/-- What the parser makes of one character: its UTF-8, or the two surrogates'. -/
theorem spelling_bytes (s : Spelling) (h : s.isPair = false) : s.items.flatMap Item.bytes = utf8Bytes s.char := by
  cases s with
  | raw c hc => exact pmap_raw_bytes _ _
  | short e c hc => exact (escaped_ascii hc).symm
  | unit u c hc =>
    show codeBytes u.code ++ [] = _
    rw [List.append_nil, ← hc]
    exact codeBytes_char (hc ▸ u.lt)
  | pair => cases h

theorem surrogate_length {u : CodeUnit} (h : 0xD800 ≤ u.code) : (codeBytes u.code).length = 3 := by
  unfold codeBytes
  rw [if_neg (by omega), if_neg (by omega)]
  rfl

theorem pair_length (s : Spelling) (h : s.isPair = true) : (s.items.flatMap Item.bytes).length = 6 ∧ (utf8Bytes s.char).length = 4 := by
  cases s with
  | raw => cases h
  | short => cases h
  | unit => cases h
  | pair hi lo c hhi hlo hc =>
    refine ⟨?_, ?_⟩
    · show (codeBytes hi.code ++ (codeBytes lo.code ++ [])).length = 6
      rw [List.length_append, List.length_append, surrogate_length hhi.1, surrogate_length (by omega)]
      rfl
    · show (utf8Bytes c).length = 4
      rw [utf8Bytes_eq, if_neg (by omega), if_neg (by omega), if_neg (by omega)]
      rfl

/-- Every pair makes what is read two bytes longer. -/
theorem spelled_length (ss : List Spelling) :
    ((ss.flatMap Spelling.items).flatMap Item.bytes).length =
      (utf8Text (ss.map Spelling.char)).length + 2 * ss.countP Spelling.isPair := by
  induction ss with
  | nil => rfl
  | cons s ss ih =>
    have htext : utf8Text ((s :: ss).map Spelling.char) = utf8Bytes s.char ++ utf8Text (ss.map Spelling.char) := rfl
    rw [List.flatMap_cons, List.flatMap_append, List.length_append, ih, htext, List.length_append]
    cases hp : s.isPair with
    | false =>
      rw [spelling_bytes s hp, List.countP_cons_of_neg (by simp [hp])]
      omega
    | true =>
      obtain ⟨h6, h4⟩ := pair_length s hp
      rw [List.countP_cons_of_pos hp]
      omega

theorem parse_spelled (ss : List Spelling) (h : ∀ s ∈ ss, s.isPair = false) :
    (ss.flatMap Spelling.items).flatMap Item.bytes = utf8Text (ss.map Spelling.char) := by
  rw [utf8Text, List.flatMap_assoc, List.flatMap_map]
  exact List.flatMap_congr fun s hs => spelling_bytes s (h s hs)

/-- `"\ud83d\ude00"`, of U+1F600. -/
def smiley : List Spelling :=
  [.pair ⟨'d', '8', '3', 'd', 0xD83D, by decide⟩ ⟨'d', 'e', '0', '0', 0xDE00, by decide⟩ (Char.ofNat 0x1F600) (by decide) (by decide)
    (by decide)]

end Uaii.Ir.Json
