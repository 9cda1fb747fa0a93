/-
  Uaii.Cli.RequestRead — the `--jsonl` readers against `json::parse`
  (`libs/uaii-cli/src/commands/generate.cpp`, `libs/uaii-ir/src/json_util.cpp`).

  A line is settled for a key where the first colon after the first mention of the key, if
  there is one, stands before the value that the parsed object has for it. A mention is the
  key in quotes anywhere: a value, or the end of a text that quotes it.

  Proved: where the request that is read is the parsed one, no string of it that stands there
  is spelled with `\b`, `\f` or `\u`, its integers are written out, and what has another type
  is read as the default; and on a line that is settled for the keys of the protocol this is
  enough (`request_read_kept`).

  As built, a text that is a key is taken for it (`prompt_taken_for_id`), and a `\u` escape is
  read as its letters (`spelledAs`).
-/

import Uaii.Cli.ChatRequest
import Uaii.Ir.JsonRoundTrip
import Uaii.Lib.Lists

namespace Uaii.Cli

open Decimal
open TextStream (Ends scan_while)
open Uaii.Ir (trunc)
open Uaii.Ir.Json
open Codec (bind_taken)

/-! ## What stands after a colon -/

/-- After a value: a space, a comma or a brace. -/
def Delimited (rest : List Char) : Prop := ∃ c t, rest = c :: t ∧ (isSpace c = true ∨ c = ',' ∨ c = '\x7d')

/-- The parser reads a value here, up to the end of a field. -/
def ValueAt (s : List Char) (v : Value) : Prop :=
  ∃ size n rest, parseValue size (n + 1) s = .ok (v, rest) ∧ Delimited rest

/-- How the text of a value starts, after spaces. -/
inductive Starts (rest : List Char) : List Char → Value → Prop
  | null : Starts rest ('n' :: 'u' :: 'l' :: 'l' :: rest) .null
  | bool (b : Bool) : Starts rest ((if b then ['t', 'r', 'u', 'e'] else ['f', 'a', 'l', 's', 'e']) ++ rest) (.bool b)
  | str (items : List Item) : Starts rest (quoteItems items ++ rest) (.str (String.ofList (items.flatMap Item.bytes)))
  | num (t : NumberText) {x : ℚ} (hx : t.value = some x) : Starts rest (t.text ++ rest) (.num x)
  | arr (s : List Char) (vs : List Value) : Starts rest ('[' :: s) (.arr vs)
  | obj (s : List Char) (o : Object) : Starts rest ('\x7b' :: s) (.obj o)

theorem word_text {w s rest : List Char} {v v' : Value} {orElse : Parser Value} (h : word w v' orElse s = .ok (v, rest)) :
    (v = v' ∧ s = w ++ rest) ∨ orElse s = .ok (v, rest) := by
  unfold word at h
  split at h
  · next htake =>
    cases h
    exact .inl ⟨rfl, by conv_lhs => rw [← List.take_append_drop w.length s, htake]⟩
  · exact .inr h

theorem parseValue_starts {size n : Nat} {s rest : List Char} {v : Value} (h : parseValue size (n + 1) s = .ok (v, rest)) :
    ∃ (ws : Spaces) (u : List Char), s = ws.val ++ u ∧ Starts rest u v := by
  obtain ⟨_, s₁, hskip, hrun⟩ := bind_taken h
  obtain ⟨s₂, s₃, hget, hrun⟩ := bind_taken hrun
  cases hget
  obtain ⟨ws, rfl⟩ := skipWs_taken hskip
  clear h hskip
  cases s₁ with
  | nil => exact absurd hrun (fail_ne_ok _ _ _)
  | cons c cs =>
    dsimp only at hrun
    split_ifs at hrun with hn htf hquote hbracket hbrace hnum
    · rcases word_text hrun with ⟨rfl, hs⟩ | hrun
      · exact ⟨ws, _, by rw [hs]; rfl, .null⟩
      · exact absurd hrun (fail_ne_ok _ _ _)
    · rcases word_text hrun with ⟨rfl, hs⟩ | hrun
      · exact ⟨ws, _, by rw [hs]; rfl, .bool true⟩
      · rcases word_text hrun with ⟨rfl, hs⟩ | hrun
        · exact ⟨ws, _, by rw [hs]; rfl, .bool false⟩
        · exact absurd hrun (fail_ne_ok _ _ _)
    · obtain ⟨ws', items, rfl, hs⟩ := parseString_taken hrun
      exact ⟨⟨ws.val ++ ws'.val, space_append ws.property ws'.property⟩, _, by rw [hs, List.append_assoc], .str items⟩
    · obtain ⟨vs, rfl⟩ := parseArray_taken hrun
      exact ⟨ws, _, by rw [hbracket], .arr cs vs⟩
    · obtain ⟨o, rfl, -⟩ := parseObject_taken hrun
      exact ⟨ws, _, by rw [hbrace], .obj cs o⟩
    · obtain ⟨t, x, hx, rfl, hs⟩ := parseNumber_taken hrun
      exact ⟨ws, _, by rw [hs], .num t hx⟩
    · exact absurd hrun (fail_ne_ok _ _ _)

/-- No value starts with a space. -/
theorem Starts.head {rest u : List Char} {v : Value} (h : Starts rest u v) : ∃ c t, u = c :: t ∧ isSpace c = false := by
  cases h with
  | null => exact ⟨_, _, rfl, rfl⟩
  | bool b =>
    cases b with
    | true => exact ⟨_, _, rfl, rfl⟩
    | false => exact ⟨_, _, rfl, rfl⟩
  | str items => exact ⟨_, _, rfl, rfl⟩
  | num t hx =>
    obtain ⟨c, cs, htext, hc⟩ := t.head
    exact ⟨c, cs ++ rest, by rw [htext]; rfl, isSpace_number hc⟩
  | arr s vs => exact ⟨_, _, rfl, rfl⟩
  | obj s o => exact ⟨_, _, rfl, rfl⟩

theorem Starts.ends {rest u : List Char} {v : Value} (h : Starts rest u v) : Ends isSpace u := by
  obtain ⟨c, t, rfl, hc⟩ := h.head
  intro d hd
  cases hd
  exact hc

theorem ValueAt.starts {s : List Char} {v : Value} (h : ValueAt s v) :
    ∃ (ws : Spaces) (u rest : List Char), s = ws.val ++ u ∧ Starts rest u v ∧ Delimited rest ∧ s.dropWhile isSpace = u ∧
      s.takeWhile isSpace = ws.val := by
  obtain ⟨size, n, rest, hparse, hrest⟩ := h
  obtain ⟨ws, u, rfl, hstarts⟩ := parseValue_starts hparse
  obtain ⟨htake, hdrop⟩ := scan_while ws.property hstarts.ends
  exact ⟨ws, u, rest, rfl, hstarts, hrest, hdrop, htake⟩

/-! ## Strings -/

/-- What the reader makes of an item: a letter of its own for every escape but `\\n`, `\\r` and `\\t`. -/
def spelledAs : Item → List Char
  | .raw b _ => [b]
  | .short e _ _ => [unescapeChar e]
  | .unit u => ['u', u.a, u.b, u.c, u.d]

/-- No `\\b`, `\\f` or `\\u`. -/
def Plain : Item → Prop
  | .raw _ _ => True
  | .short e _ _ => e ≠ 'b' ∧ e ≠ 'f'
  | .unit _ => False

theorem unescape_raw {c : Char} (h : c ≠ '"' ∧ c ≠ '\\') (s : List Char) : unescape (c :: s) = c :: unescape s := by
  cases s with
  | nil =>
    show (if c = '"' then [] else [c]) = [c]
    rw [if_neg h.1]
  | cons n s => rw [unescape, if_neg h.2, if_neg h.1]

theorem unescape_escape (n : Char) (s : List Char) : unescape ('\\' :: n :: s) = unescapeChar n :: unescape s := by
  rw [unescape, if_pos rfl]

theorem unescape_quote (s : List Char) : unescape ('"' :: s) = [] := by
  cases s with
  | nil => rfl
  | cons n s => rw [unescape, if_neg (by decide), if_pos rfl]

theorem hexValue_raw {c : Char} {v : Nat} (h : hexValue c = some v) : c ≠ '"' ∧ c ≠ '\\' := by
  constructor
  · intro hsame
    subst hsame
    cases (show hexValue '"' = none by decide).symm.trans h
  · intro hsame
    subst hsame
    cases (show hexValue '\\' = none by decide).symm.trans h

theorem CodeUnit.hexValues (u : CodeUnit) :
    (∃ v, hexValue u.a = some v) ∧ (∃ v, hexValue u.b = some v) ∧ (∃ v, hexValue u.c = some v) ∧ ∃ v, hexValue u.d = some v := by
  have h := u.spelled
  unfold hexCode at h
  cases ha : hexValue u.a <;> cases hb : hexValue u.b <;> cases hc : hexValue u.c <;> cases hd : hexValue u.d <;>
    simp [ha, hb, hc, hd] at h ⊢

/-- Item by item, up to the quote. -/
theorem unescape_items (items : List Item) (rest : List Char) :
    unescape (items.flatMap Item.text ++ '"' :: rest) = items.flatMap spelledAs := by
  induction items with
  | nil => exact unescape_quote rest
  | cons i items ih =>
    rw [List.flatMap_cons, List.append_assoc, List.flatMap_cons, ← ih]
    cases i with
    | raw b h => exact unescape_raw h _
    | short e c h => exact unescape_escape e _
    | unit u =>
      obtain ⟨⟨_, ha⟩, ⟨_, hb⟩, ⟨_, hc⟩, ⟨_, hd⟩⟩ := CodeUnit.hexValues u
      show unescape ('\\' :: 'u' :: u.a :: u.b :: u.c :: u.d :: _) = 'u' :: u.a :: u.b :: u.c :: u.d :: unescape _
      rw [unescape_escape, unescape_raw (hexValue_raw ha), unescape_raw (hexValue_raw hb), unescape_raw (hexValue_raw hc),
        unescape_raw (hexValue_raw hd)]
      rfl

/-- A plain item is read as the parser reads it. -/
theorem spelledAs_plain {i : Item} (h : Plain i) : spelledAs i = i.bytes := by
  cases i with
  | raw b _ => rfl
  | short e c he =>
    unfold escaped at he
    split at he
    all_goals first | (cases he; rfl) | exact absurd rfl h.1 | exact absurd rfl h.2 | cases he
  | unit u => exact h.elim

theorem codeBytes_length (code : Nat) : 0 < (codeBytes code).length ∧ (codeBytes code).length ≤ 3 := by
  unfold codeBytes
  split_ifs <;> simp

theorem bytes_length_le (i : Item) : i.bytes.length ≤ (spelledAs i).length := by
  cases i with
  | raw b _ => exact Nat.le_refl _
  | short e c _ => exact Nat.le_refl _
  | unit u => exact Nat.le_trans (codeBytes_length u.code).2 (by decide : 3 ≤ 5)

theorem plain_of_eq {i : Item} (h : i.bytes = spelledAs i) : Plain i := by
  cases i with
  | raw b _ => exact True.intro
  | short e c he =>
    refine ⟨?_, ?_⟩
    · intro hsame
      subst hsame
      cases he
      exact absurd h (by decide)
    · intro hsame
      subst hsame
      cases he
      exact absurd h (by decide)
  | unit u =>
    have hlen := congrArg List.length h
    have hle : (codeBytes u.code).length ≤ 3 := (codeBytes_length u.code).2
    have hfive : (spelledAs (.unit u)).length = 5 := rfl
    rw [hfive] at hlen
    exact absurd (hlen ▸ hle : 5 ≤ 3) (by decide)

/-- The items are read as the parser reads them exactly when they are plain. -/
theorem spelled_iff (items : List Item) : items.flatMap spelledAs = items.flatMap Item.bytes ↔ ∀ i ∈ items, Plain i := by
  rw [eq_comm, Lists.flatMap_eq_of_length_le fun i _ => bytes_length_le i]
  exact forall₂_congr fun i _ => ⟨plain_of_eq, fun h => (spelledAs_plain h).symm⟩

/-! ## Numbers -/

/-- What stops the scan of a number. -/
def stops (c : Char) : Bool := isSpace c || c == ',' || c == '\x7d'

theorem Delimited.head {rest : List Char} (h : Delimited rest) : ∀ c, rest.head? = some c → stops c = true := by
  obtain ⟨c, t, rfl, hc⟩ := h
  intro d hd
  cases hd
  simpa [stops, or_assoc] using hc

theorem Delimited.ends {rest : List Char} (h : Delimited rest) {p : Char → Bool} (hp : ∀ c, stops c = true → p c = false) :
    Ends p rest := fun c hc => hp c (h.head c hc)

theorem stops_code {c : Char} (h : stops c = true) : c.toNat < 48 ∧ c.toNat ≠ 46 ∨ c.toNat = 125 := by
  simp only [stops, isSpace, Bool.or_eq_true, beq_iff_eq, decide_eq_true_eq, Bool.and_eq_true] at h
  rcases h with ((rfl | h) | rfl) | rfl
  · exact .inl ⟨by decide, by decide⟩
  · exact .inl ⟨by omega, by omega⟩
  · exact .inl ⟨by decide, by decide⟩
  · exact .inr rfl

theorem isDigit_code {c : Char} : c.isDigit = true ↔ 48 ≤ c.toNat ∧ c.toNat ≤ 57 := by
  simp only [Char.isDigit, Bool.and_eq_true, decide_eq_true_eq]
  exact Iff.rfl

theorem stops_digit {c : Char} (h : stops c = true) : c.isDigit = false := by
  have hcode := stops_code h
  rw [← Bool.not_eq_true, isDigit_code]
  omega

/-- Not one of these. -/
theorem stops_ne {c d : Char} (h : stops c = true) (hd : 48 ≤ d.toNat ∧ d.toNat ≠ 125 ∨ d.toNat = 46) : c ≠ d := by
  have hcode := stops_code h
  intro hsame
  subst hsame
  omega

/-- The parts of a number's text. -/
def fracText (t : NumberText) : List Char := if t.literal.frac = [] then [] else '.' :: t.literal.frac

def body (t : NumberText) (rest : List Char) : List Char := t.literal.int ++ (fracText t ++ (t.expText ++ rest))

theorem text_body (t : NumberText) (rest : List Char) :
    t.text ++ rest = (if t.literal.neg then ['-'] else []) ++ body t rest := by
  simp [NumberText.text, body, fracText]

theorem body_head (t : NumberText) (rest : List Char) : ∃ d s, body t rest = d :: s ∧ d.isDigit = true := by
  obtain ⟨d, ds, hds⟩ := List.exists_cons_of_ne_nil t.ok.nonempty
  refine ⟨d, ds ++ (fracText t ++ (t.expText ++ rest)), by rw [body, hds]; rfl, t.ok.int d ?_⟩
  rw [hds]
  exact List.mem_cons_self

theorem digit_ne {d c : Char} (hd : d.isDigit = true) (hc : c.toNat < 48 ∨ 57 < c.toNat) : d ≠ c := by
  have hcode := isDigit_code.mp hd
  intro hsame
  subst hsame
  omega

theorem signed_digit {d : Char} (hd : d.isDigit = true) (s : List Char) : signed (d :: s) = (false, d :: s) := by
  have hminus : d ≠ '-' := digit_ne hd (.inl (by decide))
  have hplus : d ≠ '+' := digit_ne hd (.inl (by decide))
  simp [signed, hminus, hplus]

/-- The sign. -/
theorem signed_text (t : NumberText) (rest : List Char) : signed (t.text ++ rest) = (t.literal.neg, body t rest) := by
  rw [text_body]
  cases t.literal.neg with
  | true => rfl
  | false =>
    obtain ⟨d, s, hbody, hd⟩ := body_head t rest
    rw [hbody]
    exact signed_digit hd s

variable {rest : List Char}

theorem expText_ends (t : NumberText) (hrest : Delimited rest) {p : Char → Bool} (hp : ∀ c, stops c = true → p c = false)
    (hmark : p 'e' = false ∧ p 'E' = false) : Ends p (t.expText ++ rest) := by
  unfold NumberText.expText
  cases t.literal.exp with
  | none => exact hrest.ends hp
  | some e =>
    intro c hc
    cases hc
    cases t.upper with
    | true => exact hmark.2
    | false => exact hmark.1

theorem fracText_ends (t : NumberText) (hrest : Delimited rest) {p : Char → Bool} (hp : ∀ c, stops c = true → p c = false)
    (hmark : p 'e' = false ∧ p 'E' = false) (hpoint : p '.' = false) : Ends p (fracText t ++ (t.expText ++ rest)) := by
  refine Ends.append ?_ (expText_ends t hrest hp hmark)
  unfold fracText
  split
  · exact fun c hc => by cases hc
  · intro c hc
    cases hc
    exact hpoint

theorem takeWhile_body (t : NumberText) (hrest : Delimited rest) :
    (body t rest).takeWhile Char.isDigit = t.literal.int ∧ (body t rest).dropWhile Char.isDigit = fracText t ++ (t.expText ++ rest) :=
  scan_while t.ok.int (fracText_ends t hrest (fun _ => stops_digit) ⟨by decide, by decide⟩ (by decide))

/-- The integer part, with its sign. -/
def whole (t : NumberText) : Int := withSign t.literal.neg (digits t.literal.int)

theorem skip_spaces (ws : Spaces) (t : NumberText) (rest : List Char) :
    (ws.val ++ (t.text ++ rest)).dropWhile isSpace = t.text ++ rest := by
  refine dropWhile_space ws.property ?_
  obtain ⟨c, cs, htext, hc⟩ := t.head
  rw [htext]
  intro d hd
  cases hd
  exact isSpace_number hc

theorem strtoll_number (ws : Spaces) (t : NumberText) (hrest : Delimited rest) :
    strtoll (ws.val ++ (t.text ++ rest)) = clampI64 (whole t) := by
  unfold strtoll
  rw [skip_spaces, signed_text]
  dsimp only
  rw [(takeWhile_body t hrest).1]
  rfl

theorem scanMantissa_body (t : NumberText) (hrest : Delimited rest) :
    scanMantissa Char.isDigit (body t rest) = (t.literal.int, t.literal.frac, t.expText ++ rest) := by
  obtain ⟨htake, hdrop⟩ := takeWhile_body t hrest
  unfold scanMantissa
  rw [htake, hdrop]
  unfold fracText
  by_cases hfrac : t.literal.frac = []
  · have hnone : pastPoint (t.expText ++ rest) = none := by
      refine if_neg fun h => ?_
      have hpoint := expText_ends t hrest (fun c hc => beq_false_of_ne (stops_ne hc (.inr rfl)))
        (p := fun c => c == '.') ⟨by decide, by decide⟩ '.' h
      cases hpoint
    rw [if_pos hfrac, List.nil_append, hnone, hfrac]
  · rw [if_neg hfrac]
    obtain ⟨hfracs, hexp⟩ := scan_while t.ok.frac (expText_ends t hrest (fun _ => stops_digit) ⟨by decide, by decide⟩)
    show (t.literal.int, (t.literal.frac ++ (t.expText ++ rest)).takeWhile Char.isDigit,
      (t.literal.frac ++ (t.expText ++ rest)).dropWhile Char.isDigit) = _
    rw [hfracs, hexp]

/-- The sign of an exponent. -/
theorem signed_exponent {ds : List Char} (hne : ds ≠ []) (hds : ∀ d ∈ ds, d.isDigit = true) (neg plus : Bool) :
    signed ((if neg then ['-'] else if plus then ['+'] else []) ++ (ds ++ rest)) = (neg, ds ++ rest) := by
  cases neg with
  | true => rfl
  | false =>
    cases plus with
    | true => rfl
    | false =>
      obtain ⟨d, ds, rfl⟩ := List.exists_cons_of_ne_nil hne
      exact signed_digit (hds d List.mem_cons_self) (ds ++ rest)

theorem scanExponent_text (t : NumberText) (hrest : Delimited rest) :
    scanExponent 'e' 'E' (t.expText ++ rest) = t.literal.exp := by
  unfold NumberText.expText
  have hexp := t.ok.exp
  cases h : t.literal.exp with
  | none =>
    obtain ⟨c, s, rfl, -⟩ := id hrest
    have he : c ≠ 'e' := stops_ne (hrest.head c rfl) (.inl (by decide))
    have hE : c ≠ 'E' := stops_ne (hrest.head c rfl) (.inl (by decide))
    show scanExponent 'e' 'E' (c :: s) = none
    exact if_neg fun hc => hc.1.elim he hE
  | some e =>
    obtain ⟨neg, ds⟩ := e
    obtain ⟨hne, hds⟩ := hexp neg ds h
    have htake : (ds ++ rest).takeWhile Char.isDigit = ds := (scan_while hds (hrest.ends fun _ => stops_digit)).1
    have hmark : (if t.upper then 'E' else 'e') = 'e' ∨ (if t.upper then 'E' else 'e') = 'E' := by
      cases t.upper
      · exact .inl rfl
      · exact .inr rfl
    show scanExponent 'e' 'E' ((if t.upper then 'E' else 'e') :: (((if neg then ['-'] else if t.plus then ['+'] else []) ++ ds) ++ rest)) = _
    rw [List.append_assoc, scanExponent, signed_exponent hne hds]
    dsimp only
    rw [htake, if_pos ⟨hmark, hne⟩]

theorem ofRat_stod {q x : ℚ} (h : stod q = some x) : Double.ofRat q = .finite x := by
  unfold stod at h
  split at h
  · cases h
  · next hlt =>
    cases h
    exact if_neg (not_or.mp hlt).1

theorem toLower_of_lt {c : Char} (h : c.toNat < 65) : c.toLower = c := by
  unfold Char.toLower
  rw [dif_neg]
  intro hupper
  have hcode : 65 ≤ c.toNat := hupper.1
  omega

/-- Neither `inf` nor `nan`. -/
theorem no_word {c : Char} (s : List Char) (h : c.toLower ≠ 'i' ∧ c.toLower ≠ 'n') :
    ((c :: s).take 3).map Char.toLower ≠ ['i', 'n', 'f'] ∧ ((c :: s).take 3).map Char.toLower ≠ ['n', 'a', 'n'] :=
  ⟨fun heq => h.1 (List.cons.inj heq).1, fun heq => h.2 (List.cons.inj heq).1⟩

/-- No number of JSON starts with `0x`. -/
theorem hexPrefix_body (t : NumberText) (hrest : Delimited rest) : hexPrefix (body t rest) = none := by
  refine if_neg fun h => ?_
  obtain ⟨d, ds, hds⟩ := List.exists_cons_of_ne_nil t.ok.nonempty
  have htail : (body t rest).tail = ds ++ (fracText t ++ (t.expText ++ rest)) := by rw [body, hds]; rfl
  have hends : Ends (fun c => c == 'x' || c == 'X') (ds ++ (fracText t ++ (t.expText ++ rest))) := by
    refine Ends.append (fun c hc => ?_) (fracText_ends t hrest (fun c hc => ?_) ⟨by decide, by decide⟩ (by decide))
    · have hd := t.ok.int c (by rw [hds]; exact List.mem_cons_of_mem _ (List.mem_of_mem_head? hc))
      simp [digit_ne hd (c := 'x') (.inr (by decide)), digit_ne hd (c := 'X') (.inr (by decide))]
    · have hx : c ≠ 'x' := stops_ne hc (.inl (by decide))
      have hX : c ≠ 'X' := stops_ne hc (.inl (by decide))
      simp [hx, hX]
  rw [htail] at h
  rcases h.2 with hx | hX
  · exact absurd (hends 'x' hx) (by decide)
  · exact absurd (hends 'X' hX) (by decide)

theorem strtod_number (ws : Spaces) (t : NumberText) {x : ℚ} (hx : t.value = some x) (hrest : Delimited rest) :
    strtod (ws.val ++ (t.text ++ rest)) = .finite x := by
  have hword : ((body t rest).take 3).map Char.toLower ≠ ['i', 'n', 'f'] ∧
      ((body t rest).take 3).map Char.toLower ≠ ['n', 'a', 'n'] := by
    obtain ⟨d, s, hbody, hd⟩ := body_head t rest
    have hlower : d.toLower = d := by
      have hcode := isDigit_code.mp hd
      exact toLower_of_lt (by omega)
    rw [hbody]
    refine no_word s ?_
    rw [hlower]
    exact ⟨digit_ne hd (.inr (by decide)), digit_ne hd (.inr (by decide))⟩
  unfold strtod
  rw [skip_spaces, signed_text]
  dsimp only
  rw [if_neg hword.1, if_neg hword.2, hexPrefix_body t hrest]
  show strtodDecimal t.literal.neg (body t rest) = .finite x
  unfold strtodDecimal
  rw [scanMantissa_body t hrest]
  dsimp only
  rw [if_neg fun h => t.ok.nonempty h.1, scanExponent_text t hrest]
  exact ofRat_stod hx

/-- Where no number starts: no conversion. -/
theorem no_number {c : Char} (ws : Spaces) (s : List Char) (hspace : isSpace c = false)
    (hc : c.isDigit = false ∧ c ≠ '-' ∧ c ≠ '+' ∧ c ≠ '.')
    (hword : ((c :: s).take 3).map Char.toLower ≠ ['i', 'n', 'f'] ∧ ((c :: s).take 3).map Char.toLower ≠ ['n', 'a', 'n']) :
    strtoll (ws.val ++ c :: s) = 0 ∧ strtod (ws.val ++ c :: s) = .finite 0 := by
  obtain ⟨hdigit, hminus, hplus, hpoint⟩ := hc
  have hdrop : (ws.val ++ c :: s).dropWhile isSpace = c :: s := by
    refine dropWhile_space ws.property fun d hd => ?_
    cases hd
    exact hspace
  have hsigned : signed (c :: s) = (false, c :: s) := by simp [signed, hminus, hplus]
  have htake : (c :: s).takeWhile Char.isDigit = [] := by simp [hdigit]
  have hkeep : (c :: s).dropWhile Char.isDigit = c :: s := by simp [hdigit]
  constructor
  · unfold strtoll
    rw [hdrop, hsigned]
    dsimp only
    rw [htake]
    rfl
  · have hzero : c ≠ '0' := by
      intro hsame
      subst hsame
      cases hdigit
    have hhex : hexPrefix (c :: s) = none := if_neg fun h => hzero (Option.some.inj h.1)
    have hmantissa : scanMantissa Char.isDigit (c :: s) = ([], [], c :: s) := by
      have hnone : pastPoint (c :: s) = none := if_neg fun h => hpoint (Option.some.inj h)
      unfold scanMantissa
      rw [hkeep, htake, hnone]
    unfold strtod
    rw [hdrop, hsigned]
    dsimp only
    rw [if_neg hword.1, if_neg hword.2, hhex]
    show strtodDecimal false (c :: s) = .finite 0
    unfold strtodDecimal
    rw [hmantissa]
    rfl

/-- A value that is no number has none at its start. -/
theorem Starts.no_number {u : List Char} {v : Value} (ws : Spaces) (h : Starts rest u v) (hv : ∀ x, v ≠ .num x) :
    strtoll (ws.val ++ u) = 0 ∧ strtod (ws.val ++ u) = .finite 0 := by
  cases h with
  | null =>
    refine Cli.no_number ws _ (by decide) (by decide) ⟨fun heq => ?_, fun heq => ?_⟩
    · exact absurd (List.cons.inj heq).1 (by decide)
    · exact absurd (List.cons.inj (List.cons.inj heq).2).1 (by decide)
  | bool b =>
    cases b with
    | true => exact Cli.no_number ws _ (by decide) (by decide) (no_word _ (by decide))
    | false => exact Cli.no_number ws _ (by decide) (by decide) (no_word _ (by decide))
  | str items => exact Cli.no_number ws _ (by decide) (by decide) (no_word _ (by decide))
  | num t hx => exact absurd rfl (hv _)
  | arr s vs => exact Cli.no_number ws _ (by decide) (by decide) (no_word _ (by decide))
  | obj s o => exact Cli.no_number ws _ (by decide) (by decide) (no_word _ (by decide))

/-! ## What each reader reads of a value -/

theorem afterChar_skip {pre : List Char} {c : Char} (h : ∀ d ∈ pre, d ≠ c) (s : List Char) : afterChar c (pre ++ c :: s) = some s := by
  have hdrop : (pre ++ c :: s).dropWhile (· != c) = c :: s :=
    (scan_while (fun d hd => by simpa using h d hd) fun d hd => by cases hd; simp).2
  rw [afterChar, hdrop]

theorem space_ne {c d : Char} (h : isSpace c = true) (hd : isSpace d = false) : c ≠ d := by
  intro hsame
  subst hsame
  rw [h] at hd
  cases hd

/-- A string without the escapes that are read otherwise; for another type, no text after it or an empty one. -/
def StringKept (s : List Char) : Value → Prop
  | .str v => ∃ (ws : Spaces) (items : List Item) (rest : List Char), s = ws.val ++ (quoteItems items ++ rest) ∧
      String.ofList (items.flatMap Item.bytes) = v ∧ ∀ i ∈ items, Plain i
  | _ => ∀ t, afterChar '"' s = some t → Ends (· != '"') t

theorem readString_items (ws : Spaces) (items : List Item) (rest : List Char) :
    readString (ws.val ++ (quoteItems items ++ rest)) = String.ofList (items.flatMap spelledAs) := by
  have hquote : quoteItems items ++ rest = '"' :: (items.flatMap Item.text ++ '"' :: rest) := by simp [quoteItems]
  rw [readString, hquote, afterChar_skip fun d hd => space_ne (ws.property d hd) rfl, Option.elim_some, unescape_items]

theorem unescape_nil {t : List Char} : unescape t = [] ↔ Ends (· != '"') t := by
  cases t with
  | nil => exact iff_of_true rfl fun c hc => by cases hc
  | cons c t =>
    by_cases hc : c = '"'
    · subst hc
      refine iff_of_true (unescape_quote t) fun d hd => ?_
      cases hd
      rfl
    · refine iff_of_false (fun h => ?_) fun h => hc (by simpa using h c rfl)
      by_cases hback : c = '\\'
      · subst hback
        cases t with
        | nil => exact absurd h (by decide)
        | cons n t => rw [unescape_escape] at h; cases h
      · rw [unescape_raw ⟨hc, hback⟩] at h
        cases h

theorem readString_empty {s : List Char} : readString s = "" ↔ ∀ t, afterChar '"' s = some t → Ends (· != '"') t := by
  have hempty : ∀ cs : List Char, String.ofList cs = "" ↔ cs = [] := fun cs => by
    rw [← String.ofList_nil, String.ofList_inj]
  rw [readString, hempty]
  cases h : afterChar '"' s with
  | none => exact iff_of_true rfl fun t ht => by cases ht
  | some t =>
    rw [Option.elim_some, unescape_nil]
    exact ⟨fun ht t' ht' => Option.some.inj ht' ▸ ht, fun ht => ht t rfl⟩

theorem readString_iff {s : List Char} {v : Value} (h : ValueAt s v) : readString s = (stringOf v).getD "" ↔ StringKept s v := by
  obtain ⟨ws, u, rest, rfl, hstarts, -⟩ := h.starts
  cases hstarts with
  | str items =>
    rw [readString_items]
    constructor
    · intro heq
      exact ⟨ws, items, rest, rfl, rfl, (spelled_iff items).mp (String.ofList_inj.mp heq)⟩
    · intro hkept
      obtain ⟨ws', items', rest', hs, hv, hplain⟩ := hkept
      rw [← readString_items ws items rest, hs, readString_items, (spelled_iff items').mpr hplain, hv]
      rfl
  | null => exact readString_empty
  | bool b => exact readString_empty
  | num t hx => exact readString_empty
  | arr s vs => exact readString_empty
  | obj s o => exact readString_empty

/-- A number whose integer part as written is its value toward zero; for another type, the default 0. -/
def IntKept (dflt : Int) (s : List Char) : Value → Prop
  | .num x => ∃ (ws : Spaces) (t : NumberText) (rest : List Char), s = ws.val ++ (t.text ++ rest) ∧ Delimited rest ∧
      clampI64 (whole t) = trunc x
  | _ => dflt = 0

theorem strtoll_iff (dflt : Int) {s : List Char} {v : Value} (h : ValueAt s v) :
    strtoll s = (intOf v).getD dflt ↔ IntKept dflt s v := by
  obtain ⟨ws, u, rest, rfl, hstarts, hrest, -⟩ := h.starts
  have hother : (∀ x, v ≠ .num x) → (strtoll (ws.val ++ u) = dflt ↔ dflt = 0) := fun hv => by
    rw [(hstarts.no_number ws hv).1, eq_comm]
  cases hstarts with
  | num t hx =>
    constructor
    · intro heq
      exact ⟨ws, t, rest, rfl, hrest, (strtoll_number ws t hrest).symm.trans heq⟩
    · intro hkept
      obtain ⟨ws', t', rest', hs, hrest', hwhole⟩ := hkept
      rw [hs, strtoll_number ws' t' hrest', hwhole]
      rfl
  | null => exact hother fun x hx => by cases hx
  | bool b => exact hother fun x hx => by cases hx
  | str items => exact hother fun x hx => by cases hx
  | arr s vs => exact hother fun x hx => by cases hx
  | obj s o => exact hother fun x hx => by cases hx

/-- Any number; for another type, the default 0. -/
def DoubleKept (dflt : Double) (_ : List Char) : Value → Prop
  | .num _ => True
  | _ => dflt = .finite 0

theorem strtod_iff (dflt : Double) {s : List Char} {v : Value} (h : ValueAt s v) :
    strtod s = (doubleOf v).getD dflt ↔ DoubleKept dflt s v := by
  obtain ⟨ws, u, rest, rfl, hstarts, hrest, -⟩ := h.starts
  have hother : (∀ x, v ≠ .num x) → (strtod (ws.val ++ u) = dflt ↔ dflt = .finite 0) := fun hv => by
    rw [(hstarts.no_number ws hv).2, eq_comm]
  cases hstarts with
  | num t hx => exact iff_of_true (strtod_number ws t hx hrest) True.intro
  | null => exact hother fun x hx => by cases hx
  | bool b => exact hother fun x hx => by cases hx
  | str items => exact hother fun x hx => by cases hx
  | arr s vs => exact hother fun x hx => by cases hx
  | obj s o => exact hother fun x hx => by cases hx

/-- The default, or a word after blanks and tabs. -/
def BoolKept (dflt : Bool) (s : List Char) : Value → Prop
  | .bool b => b = dflt ∨ ∀ c ∈ s.takeWhile isSpace, isBlank c = true
  | _ => True

/-- Where neither word starts. -/
theorem readBool_other (dflt : Bool) {s t : List Char} {c : Char} (hdrop : s.dropWhile isBlank = c :: t) (hc : c ≠ 't' ∧ c ≠ 'f') :
    readBool dflt s = dflt := by
  have htrue : (c :: t).take 4 ≠ ['t', 'r', 'u', 'e'] := fun h => hc.1 (List.cons.inj h).1
  have hfalse : (c :: t).take 5 ≠ ['f', 'a', 'l', 's', 'e'] := fun h => hc.2 (List.cons.inj h).1
  unfold readBool
  rw [hdrop]
  dsimp only
  rw [if_neg htrue, if_neg hfalse]

/-- Blanks are passed over; another space stays. -/
theorem dropWhile_blank (ws : Spaces) {u : List Char} (hu : Ends isSpace u) :
    (∀ c ∈ ws.val, isBlank c = true) ∧ (ws.val ++ u).dropWhile isBlank = u ∨
      (¬∀ c ∈ ws.val, isBlank c = true) ∧ ∃ c t, (ws.val ++ u).dropWhile isBlank = c :: t ∧ isSpace c = true := by
  have hends : Ends isBlank u := hu.mono fun c hc => by
    simp only [isBlank, Bool.or_eq_true, decide_eq_true_eq] at hc
    rcases hc with rfl | rfl
    · rfl
    · rfl
  by_cases hall : ∀ c ∈ ws.val, isBlank c = true
  · exact .inl ⟨hall, (scan_while hall hends).2⟩
  · have hne : ws.val.dropWhile isBlank ≠ [] := fun hnil => hall (List.dropWhile_eq_nil_iff.mp hnil)
    obtain ⟨c, t, hct⟩ := List.exists_cons_of_ne_nil hne
    refine .inr ⟨hall, c, t ++ u, ?_, ws.property c ?_⟩
    · rw [List.dropWhile_append, hct]
      rfl
    · exact List.dropWhile_subset _ (hct ▸ List.mem_cons_self)

/-- A value that is no word starts with neither. -/
theorem Starts.no_word {u : List Char} {v : Value} (h : Starts rest u v) (hv : ∀ b, v ≠ .bool b) :
    ∃ c t, u = c :: t ∧ c ≠ 't' ∧ c ≠ 'f' := by
  cases h with
  | bool b => exact absurd rfl (hv b)
  | num t hx =>
    obtain ⟨c, cs, htext, hc⟩ := t.head
    refine ⟨c, cs ++ rest, by rw [htext]; rfl, ?_, ?_⟩
    · intro hsame
      subst hsame
      exact absurd hc (by decide)
    · intro hsame
      subst hsame
      exact absurd hc (by decide)
  | null => exact ⟨_, _, rfl, by decide, by decide⟩
  | str items => exact ⟨_, _, rfl, by decide, by decide⟩
  | arr s vs => exact ⟨_, _, rfl, by decide, by decide⟩
  | obj s o => exact ⟨_, _, rfl, by decide, by decide⟩

theorem readBool_iff (dflt : Bool) {s : List Char} {v : Value} (h : ValueAt s v) :
    readBool dflt s = (boolOf v).getD dflt ↔ BoolKept dflt s v := by
  obtain ⟨ws, u, rest, rfl, hstarts, -, -, htake⟩ := h.starts
  have hspace : ∀ c t, (ws.val ++ u).dropWhile isBlank = c :: t → isSpace c = true → readBool dflt (ws.val ++ u) = dflt :=
    fun c t hdrop hc => readBool_other dflt hdrop ⟨space_ne hc (by decide), space_ne hc (by decide)⟩
  have hother : (∀ b, v ≠ .bool b) → readBool dflt (ws.val ++ u) = dflt := fun hv => by
    rcases dropWhile_blank ws hstarts.ends with ⟨-, hdrop⟩ | ⟨-, c, t, hdrop, hc⟩
    · obtain ⟨c, t, hu, hne⟩ := hstarts.no_word hv
      exact readBool_other dflt (hdrop.trans hu) hne
    · exact hspace c t hdrop hc
  have hends := hstarts.ends
  cases hstarts with
  | bool b =>
    show readBool dflt _ = b ↔ b = dflt ∨ ∀ c ∈ (ws.val ++ _).takeWhile isSpace, isBlank c = true
    rw [htake]
    rcases dropWhile_blank ws hends with ⟨hblank, hdrop⟩ | ⟨hblank, c, t, hdrop, hc⟩
    · refine iff_of_true ?_ (.inr hblank)
      unfold readBool
      rw [hdrop]
      cases b with
      | true => rfl
      | false => rfl
    · rw [hspace c t hdrop hc, or_iff_left hblank, eq_comm]
  | null => exact iff_of_true (hother fun b hb => by cases hb) True.intro
  | num t hx => exact iff_of_true (hother fun b hb => by cases hb) True.intro
  | str items => exact iff_of_true (hother fun b hb => by cases hb) True.intro
  | arr s vs => exact iff_of_true (hother fun b hb => by cases hb) True.intro
  | obj s o => exact iff_of_true (hother fun b hb => by cases hb) True.intro

/-! ## A line -/

/-- The first colon after the first mention of the key, if there is one, stands before its value. -/
def Settled (line : List Char) (o : Object) (key : String) : Prop :=
  ∀ s, afterColon line key = some s → ∃ v, ValueAt s v ∧ o.get key = some v

/-- A value that stands there stands as the reader reads it; the default where none is mentioned. -/
def Kept {α : Type} (line : List Char) (o : Object) (key : String) (dflt : α) (ofValue : Value → Option α)
    (kept : List Char → Value → Prop) : Prop :=
  (afterColon line key = none → valueOr o key dflt ofValue = dflt) ∧
    ∀ s v, afterColon line key = some s → ValueAt s v → o.get key = some v → kept s v

section

variable {α : Type} {line : List Char} {o : Object} {key : String} {dflt : α} {ofValue : Value → Option α}
  {read : List Char → α} {kept : List Char → Value → Prop}

/-- What is read right is kept, and what is settled and kept is read right. -/
theorem extractJson_kept (hread : ∀ s v, ValueAt s v → (read s = (ofValue v).getD dflt ↔ kept s v)) :
    (extractJson line key dflt read = valueOr o key dflt ofValue → Kept line o key dflt ofValue kept) ∧
      (Settled line o key → Kept line o key dflt ofValue kept → extractJson line key dflt read = valueOr o key dflt ofValue) := by
  have hvalue : ∀ v, o.get key = some v → valueOr o key dflt ofValue = (ofValue v).getD dflt := fun v hget => by
    rw [valueOr, hget]
    rfl
  constructor
  · intro h
    refine ⟨fun hnone => ?_, fun s v hcolon hv hget => ?_⟩
    · rw [extractJson, hnone, Option.elim_none] at h
      exact h.symm
    · rw [extractJson, hcolon, Option.elim_some, hvalue v hget] at h
      exact (hread s v hv).mp h
  · intro hsettled hkept
    unfold extractJson
    cases hcolon : afterColon line key with
    | none => exact (hkept.1 hcolon).symm
    | some s =>
      obtain ⟨v, hv, hget⟩ := hsettled s hcolon
      rw [Option.elim_some, hvalue v hget]
      exact (hread s v hv).mpr (hkept.2 s v hcolon hv hget)

/-- Asking for the key first changes nothing. -/
theorem extractJson_hasKey : (if jsonHasKey line key then extractJson line key dflt read else dflt) = extractJson line key dflt read := by
  by_cases hkey : jsonHasKey line key = true
  · exact if_pos hkey
  · have hnone : findAfter (quotedKey key) line = none := by
      rw [jsonHasKey, Bool.not_eq_true, Option.isSome_eq_false_iff, Option.isNone_iff_eq_none] at hkey
      exact hkey
    have hcolon : afterColon line key = none := by
      rw [afterColon, hnone]
      rfl
    rw [if_neg hkey, extractJson, hcolon]
    rfl

end

/-- The keys of the protocol. -/
def chatKeys : List String :=
  ["cmd", "id", "prompt", "system", "max_new_tokens", "stream", "temperature", "top_p", "top_k", "repetition_penalty", "seed"]

/-- Each value stands as it is read, and `seed` is mentioned where it is a number. -/
structure RequestKept (line : List Char) (o : Object) : Prop where
  cmd : Kept line o "cmd" "" stringOf StringKept
  id : Kept line o "id" "" stringOf StringKept
  prompt : Kept line o "prompt" "" stringOf StringKept
  system : Kept line o "system" "" stringOf StringKept
  maxNew : Kept line o "max_new_tokens" 64 intOf (IntKept 64)
  stream : Kept line o "stream" true boolOf (BoolKept true)
  temperature : Kept line o "temperature" (.finite 0) doubleOf (DoubleKept (.finite 0))
  topP : Kept line o "top_p" (.finite 1) doubleOf (DoubleKept (.finite 1))
  topK : Kept line o "top_k" 0 intOf (IntKept 0)
  repetitionPenalty : Kept line o "repetition_penalty" (.finite 1) doubleOf (DoubleKept (.finite 1))
  seed : Kept line o "seed" 0 intOf (IntKept 0)
  hasSeed : jsonHasKey line "seed" = ((o.get "seed").bind doubleOf).isSome

section

variable (line : List Char) (o : Object) (key : String)

theorem extractJsonString_kept :
    (extractJsonString line key = valueOr o key "" stringOf → Kept line o key "" stringOf StringKept) ∧
      (Settled line o key → Kept line o key "" stringOf StringKept → extractJsonString line key = valueOr o key "" stringOf) :=
  extractJson_kept fun _ _ => readString_iff

theorem extractJsonI64_kept (dflt : Int) :
    (extractJsonI64 line key dflt = valueOr o key dflt intOf → Kept line o key dflt intOf (IntKept dflt)) ∧
      (Settled line o key → Kept line o key dflt intOf (IntKept dflt) → extractJsonI64 line key dflt = valueOr o key dflt intOf) :=
  extractJson_kept fun _ _ => strtoll_iff dflt

theorem extractJsonF64_kept (dflt : Double) :
    (extractJsonF64 line key dflt = valueOr o key dflt doubleOf → Kept line o key dflt doubleOf (DoubleKept dflt)) ∧
      (Settled line o key → Kept line o key dflt doubleOf (DoubleKept dflt) →
        extractJsonF64 line key dflt = valueOr o key dflt doubleOf) :=
  extractJson_kept fun _ _ => strtod_iff dflt

theorem extractJsonBool_kept (dflt : Bool) :
    (extractJsonBool line key dflt = valueOr o key dflt boolOf → Kept line o key dflt boolOf (BoolKept dflt)) ∧
      (Settled line o key → Kept line o key dflt boolOf (BoolKept dflt) →
        extractJsonBool line key dflt = valueOr o key dflt boolOf) :=
  extractJson_kept fun _ _ => readBool_iff dflt

end

theorem sampleFromJsonl_reads (line : List Char) : sampleFromJsonl line =
    { temperature := extractJsonF64 line "temperature" (.finite 0), topP := extractJsonF64 line "top_p" (.finite 1),
      topK := extractJsonI64 line "top_k" 0, repetitionPenalty := extractJsonF64 line "repetition_penalty" (.finite 1),
      seed := extractJsonI64 line "seed" 0, hasSeed := jsonHasKey line "seed" } := by
  unfold sampleFromJsonl extractJsonF64 extractJsonI64
  simp only [extractJson_hasKey]

/-- A request that is read as parsed has its values kept, and on a settled line that is enough. -/
theorem request_read_kept (line : String) (o : Object) : parse line = .ok (.obj o) →
    (readRequest line.toList = requestOf o → RequestKept line.toList o) ∧
      ((∀ key ∈ chatKeys, Settled line.toList o key) → RequestKept line.toList o → readRequest line.toList = requestOf o) := by
  intro _
  generalize line.toList = line
  have hcmd := extractJsonString_kept line o "cmd"
  have hid := extractJsonString_kept line o "id"
  have hprompt := extractJsonString_kept line o "prompt"
  have hsystem := extractJsonString_kept line o "system"
  have hmaxNew := extractJsonI64_kept line o "max_new_tokens" 64
  have hstream := extractJsonBool_kept line o "stream" true
  have htemperature := extractJsonF64_kept line o "temperature" (.finite 0)
  have htopP := extractJsonF64_kept line o "top_p" (.finite 1)
  have htopK := extractJsonI64_kept line o "top_k" 0
  have hpenalty := extractJsonF64_kept line o "repetition_penalty" (.finite 1)
  have hseed := extractJsonI64_kept line o "seed" 0
  rw [readRequest, requestOf, sampleFromJsonl_reads, ChatRequest.mk.injEq, JsonlSample.mk.injEq]
  constructor
  · intro h
    obtain ⟨cmd, id, prompt, system, maxNew, stream, temperature, topP, topK, penalty, seed, hasSeed⟩ := h
    exact ⟨hcmd.1 cmd, hid.1 id, hprompt.1 prompt, hsystem.1 system, hmaxNew.1 maxNew, hstream.1 stream,
      htemperature.1 temperature, htopP.1 topP, htopK.1 topK, hpenalty.1 penalty, hseed.1 seed, hasSeed⟩
  · intro hsettled h
    simp only [chatKeys, List.forall_mem_cons] at hsettled
    obtain ⟨cmd, id, prompt, system, maxNew, stream, temperature, topP, topK, penalty, seed, -⟩ := hsettled
    exact ⟨hcmd.2 cmd h.cmd, hid.2 id h.id, hprompt.2 prompt h.prompt, hsystem.2 system h.system, hmaxNew.2 maxNew h.maxNew,
      hstream.2 stream h.stream, htemperature.2 temperature h.temperature, htopP.2 topP h.topP, htopK.2 topK h.topK,
      hpenalty.2 penalty h.repetitionPenalty, hseed.2 seed h.seed, h.hasSeed⟩

/-- An object of strings, as the writer writes it. -/
theorem parse_strings {o : Object} {line : String} (hsorted : (o.map (·.1)).Pairwise (· < ·))
    (hstrings : ∀ kv ∈ o, ∃ s, kv.2 = .str s) (htext : stringify false (.obj o) = line) : parse line = .ok (.obj o) := by
  rw [← htext]
  refine parse_stringify_integral false (.obj hsorted fun kv hkv => ?_)
  obtain ⟨s, hs⟩ := hstrings kv hkv
  rw [hs]
  exact .str s

theorem pmap_raw_text {cs : List Char} (h : ∀ c ∈ cs, c ≠ '"' ∧ c ≠ '\\') : (cs.pmap Item.raw h).flatMap Item.text = cs := by
  induction cs with
  | nil => rfl
  | cons c cs ih =>
    rw [List.pmap_cons, List.flatMap_cons, ih]
    rfl

/-- A string without escapes is a value as it stands. -/
theorem valueAt_raw {cs : List Char} (h : cs.all (fun c => c != '"' && c != '\\') = true) {rest : List Char} (hrest : Delimited rest) :
    ValueAt ('"' :: (cs ++ '"' :: rest)) (.str (String.ofList cs)) := by
  have hraw : ∀ c ∈ cs, c ≠ '"' ∧ c ≠ '\\' := by simpa using h
  have hread := key_item 0 0 (cs.pmap Item.raw hraw) no_space rest
  have htext : quoteItems (cs.pmap Item.raw hraw) ++ rest = '"' :: (cs ++ '"' :: rest) := by
    rw [quoteItems, pmap_raw_text]
    simp
  rw [pmap_raw_bytes, htext] at hread
  exact ⟨0, 0, rest, hread, hrest⟩

def greeting : Object := [("cmd", .str "generate"), ("prompt", .str "Hi")]

def greetingLine : String := "\x7b\"cmd\":\"generate\",\"prompt\":\"Hi\"\x7d"

theorem greeting_settled : ∀ key ∈ chatKeys, Settled greetingLine.toList greeting key := by
  have hkeys : ∀ key ∈ chatKeys, key = "cmd" ∨ key = "prompt" ∨ afterColon greetingLine.toList key = none := by decide
  have hcmd : afterColon greetingLine.toList "cmd" = some ('"' :: ("generate".toList ++ '"' :: ",\"prompt\":\"Hi\"\x7d".toList)) := by
    decide
  have hprompt : afterColon greetingLine.toList "prompt" = some ('"' :: ("Hi".toList ++ '"' :: "\x7d".toList)) := by decide
  intro key hkey s hs
  rcases hkeys key hkey with rfl | rfl | hnone
  · cases hcmd.symm.trans hs
    exact ⟨_, valueAt_raw (by decide) ⟨',', _, rfl, .inr (.inl rfl)⟩, rfl⟩
  · cases hprompt.symm.trans hs
    exact ⟨_, valueAt_raw (by decide) ⟨'\x7d', _, rfl, .inr (.inr rfl)⟩, rfl⟩
  · cases hnone.symm.trans hs

theorem greeting_read : RequestKept greetingLine.toList greeting ∧ readRequest greetingLine.toList = requestOf greeting := by
  have hparse : parse greetingLine = .ok (.obj greeting) := parse_strings (by decide) (by simp [greeting]) (by decide)
  obtain ⟨hkept, hread⟩ := request_read_kept greetingLine greeting hparse
  have hgreeting : RequestKept greetingLine.toList greeting := hkept (by decide)
  exact ⟨hgreeting, hread greeting_settled hgreeting⟩

def taken : Object := [("cmd", .str "generate"), ("prompt", .str "id"), ("system", .str "Be brief")]

def takenLine : String := "\x7b\"cmd\":\"generate\",\"prompt\":\"id\",\"system\":\"Be brief\"\x7d"

/-- A prompt that is a key: the next colon is another field's. -/
theorem prompt_taken_for_id : parse takenLine = .ok (.obj taken) ∧ (requestOf taken).id = "" ∧
    (readRequest takenLine.toList).id = "Be brief" :=
  ⟨parse_strings (by decide) (by simp [taken]) (by decide), by decide, by decide⟩

end Uaii.Cli
