/-
  Uaii.Tokenizers.VocabJson — `parse_vocab_json`
  (`libs/uaii-tokenizers/src/bpe_tokenizer.cpp`) beside `ir::json::parse`.

  A text is its bytes, one character each. The map is a list of pairs of which the first
  counts. `std::stoll` throws where it finds no 64-bit integer.

  Proved: on an object of integers both read the same map when every key is written with
  no escape but a quote, a backslash or a slash, and every value in digits alone, as a
  64-bit integer that is a double; where no name is repeated, only then
  (`vocab_json_iff`).

  As built, a backslash is dropped and what follows it kept, whatever it stands for
  (`escaped_newline_differs`).
-/

import Mathlib.Data.List.Perm.Subperm
import Uaii.Ir.JsonAccepted
import Uaii.Runtime.Generate

namespace Uaii.Tokenizers

open Uaii.Ir.Json
open Uaii.Runtime (stoll stoll_signed)
open TextStream (Ends scan_while)

/-! ## The parser -/

abbrev VocabMap := List (String × Int)

def VocabMap.get (m : VocabMap) (key : String) : Option Int := (m.find? (·.1 == key)).map (·.2)

/-- A key up to its quote, and what follows. -/
def scanKey : List Char → Option (List Char × List Char)
  | [] => none
  | '"' :: s => some ([], s)
  | '\\' :: c :: s => (scanKey s).map fun p => (c :: p.1, p.2)
  | c :: s => (scanKey s).map fun p => (c :: p.1, p.2)

def betweenEntries (c : Char) : Bool := isSpace c || c == ','

def idChar (c : Char) : Bool := c.isDigit || c == '-'

def vocabEntries : Nat → List Char → VocabMap → Result VocabMap
  | 0, _, _ => .error (.undefined "out of fuel")
  | fuel + 1, s, out =>
    if s = [] then .ok out
    else
      match s.dropWhile betweenEntries with
      | [] => fail .invalidArgument "vocab key"
      | c :: s =>
        if c = '\x7d' then .ok out
        else if c ≠ '"' then fail .invalidArgument "vocab key"
        else
          match scanKey s with
          | none => fail .invalidArgument "vocab key end"
          | some (key, s) =>
            match s.dropWhile (· != ':') with
            | [] => fail .invalidArgument "vocab colon"
            | _ :: s =>
              let s := s.dropWhile isSpace
              match stoll (String.ofList (s.takeWhile idChar)) with
              | none => .error (.thrown "std::stoll")
              | some id => vocabEntries fuel (s.dropWhile idChar) ((String.ofList key, id) :: out)

def parseVocabJson (text : String) : Result VocabMap :=
  match text.toList.dropWhile (· != '\x7b') with
  | [] => fail .invalidArgument "vocab json"
  | _ :: s => vocabEntries (s.length + 1) s []

/-! ## What is read of a key and of a number -/

namespace Item

/-- What is left of an item when its backslash is dropped. -/
def dropped : Item → List Char
  | .raw b _ => [b]
  | .short e _ _ => [e]
  | .unit u => ['u', u.a, u.b, u.c, u.d]

/-- The item stands for what is left of it. -/
def Kept : Item → Prop
  | .raw _ _ => True
  | .short e c _ => e = c
  | .unit _ => False

end Item

theorem hexDigit_plain {h : Char} {v : Nat} (hv : hexValue h = some v) : h ≠ '"' ∧ h ≠ '\\' := by
  constructor
  · rintro rfl
    cases hv
  · rintro rfl
    cases hv

theorem scanKey_plain {c : Char} (h : c ≠ '"' ∧ c ≠ '\\') (s : List Char) :
    scanKey (c :: s) = (scanKey s).map fun p => (c :: p.1, p.2) := by
  rw [scanKey.eq_def]
  split <;> simp_all

theorem scanKey_item (i : Item) (s : List Char) :
    scanKey (i.text ++ s) = (scanKey s).map fun p => (Item.dropped i ++ p.1, p.2) := by
  cases i with
  | raw b h => exact scanKey_plain h s
  | short e c h => rfl
  | unit u =>
    obtain ⟨w, x, y, z, hw, hx, hy, hz, -⟩ := hexCode_some u.spelled
    show (scanKey (u.a :: u.b :: u.c :: u.d :: s)).map _ = _
    rw [scanKey_plain (hexDigit_plain hw), scanKey_plain (hexDigit_plain hx), scanKey_plain (hexDigit_plain hy),
      scanKey_plain (hexDigit_plain hz)]
    cases scanKey s <;> rfl

theorem scanKey_items (items : List Item) (rest : List Char) :
    scanKey (items.flatMap Item.text ++ '"' :: rest) = some (items.flatMap Item.dropped, rest) := by
  induction items with
  | nil => rfl
  | cons i items ih =>
    rw [List.flatMap_cons, List.append_assoc, scanKey_item, ih]
    rfl

section Numbers

variable (t : NumberText)

/-- The digits before a point or an exponent, with their sign. -/
def wholePart : Int := if t.literal.neg then -(Decimal.digits t.literal.int : Int) else Decimal.digits t.literal.int

/-- A 64-bit integer in digits alone. -/
structure WholeNumber (t : NumberText) : Prop where
  frac : t.literal.frac = []
  exp : t.literal.exp = none
  range : -2 ^ 63 ≤ wholePart t ∧ wholePart t < 2 ^ 63

/-- What follows the whole part. -/
def afterWhole : List Char := (if t.literal.frac = [] then [] else '.' :: t.literal.frac) ++ t.expText

theorem afterWhole_eq : (t.literal.frac = [] ∧ t.literal.exp = none → afterWhole t = []) ∧
    (¬ (t.literal.frac = [] ∧ t.literal.exp = none) →
      ∃ c s, afterWhole t = c :: s ∧ (c = '.' ∨ c = 'e' ∨ c = 'E')) := by
  unfold afterWhole NumberText.expText
  by_cases hfrac : t.literal.frac = []
  · rw [if_pos hfrac, List.nil_append]
    cases hexp : t.literal.exp with
    | none => exact ⟨fun _ => rfl, fun h => absurd ⟨hfrac, rfl⟩ h⟩
    | some e =>
      refine ⟨fun h => (by cases h.2), fun _ => ⟨_, _, rfl, .inr ?_⟩⟩
      cases t.upper
      · exact .inl rfl
      · exact .inr rfl
  · rw [if_neg hfrac]
    exact ⟨fun h => absurd h.1 hfrac, fun _ => ⟨'.', _, rfl, .inl rfl⟩⟩

/-- What is given to `stoll`, and what is left. -/
theorem number_taken {rest : List Char} (hrest : Ends idChar rest) :
    (t.text ++ rest).takeWhile idChar = (if t.literal.neg then ['-'] else []) ++ t.literal.int ∧
      (t.text ++ rest).dropWhile idChar = afterWhole t ++ rest := by
  have hends : Ends idChar (afterWhole t ++ rest) := by
    by_cases hplain : t.literal.frac = [] ∧ t.literal.exp = none
    · rw [(afterWhole_eq t).1 hplain]
      exact hrest
    · obtain ⟨c, s, hs, hc⟩ := (afterWhole_eq t).2 hplain
      rw [hs]
      intro d hd
      cases hd
      rcases hc with rfl | rfl | rfl <;> rfl
  have hall : ∀ c ∈ (if t.literal.neg then ['-'] else []) ++ t.literal.int, idChar c = true := by
    intro c hc
    rcases List.mem_append.mp hc with hc | hc
    · split at hc
      · rw [List.mem_singleton.mp hc]
        rfl
      · cases hc
    · simp [idChar, t.ok.int c hc]
  have htext : t.text ++ rest = ((if t.literal.neg then ['-'] else []) ++ t.literal.int) ++ (afterWhole t ++ rest) := by
    simp [NumberText.text, afterWhole]
  rw [htext]
  exact scan_while hall hends

theorem stoll_whole : stoll (String.ofList ((if t.literal.neg then ['-'] else []) ++ t.literal.int)) =
    if wholePart t < -2 ^ 63 ∨ 2 ^ 63 ≤ wholePart t then none else some (wholePart t) :=
  stoll_signed _ t.ok.nonempty t.ok.int rfl

end Numbers

/-! ## What is read of a field -/

/-- The pair that is set for a field. -/
def vocabEntry (f : FieldText) : String × Int := (String.ofList (f.key.flatMap Item.dropped), wholePart f.number)

theorem between_space {c : Char} (h : isSpace c = true) : betweenEntries c = true := by rw [betweenEntries, h, Bool.true_or]

theorem idChar_space {c : Char} (h : isSpace c = true) : idChar c = false := by
  have hnum := numberChar_of_space h
  unfold idChar
  rw [Bool.or_eq_false_iff]
  refine ⟨?_, ?_⟩
  · simp only [numberChar, Bool.or_eq_false_iff] at hnum
    exact hnum.1.1.1
  · rw [beq_eq_false_iff_ne]
    rintro rfl
    cases h

/-- One field, up to the end of its whole part. -/
theorem vocabEntries_field (f : FieldText) {fuel : Nat} {ws rest : List Char} {m : VocabMap}
    (hws : ∀ c ∈ ws, betweenEntries c = true) (hrest : Ends idChar (f.after.val ++ rest)) :
    vocabEntries (fuel + 1) (ws ++ (f.body ++ rest)) m =
      if wholePart f.number < -2 ^ 63 ∨ 2 ^ 63 ≤ wholePart f.number then .error (.thrown "std::stoll")
      else vocabEntries fuel (afterWhole f.number ++ (f.after.val ++ rest)) (vocabEntry f :: m) := by
  obtain ⟨c, cs, htext, hc⟩ := f.number.head
  obtain ⟨htake, hdrop⟩ := number_taken f.number hrest
  have hbody : f.body ++ rest = '"' :: (f.key.flatMap Item.text ++ '"' :: (f.afterKey.val ++ ':' :: (f.beforeValue.val ++
      (f.number.text ++ (f.after.val ++ rest))))) := by
    simp [FieldText.body, quoteItems]
  have hskip : (ws ++ (f.body ++ rest)).dropWhile betweenEntries = f.body ++ rest :=
    (scan_while hws (by rw [hbody]; intro d hd; cases hd; rfl)).2
  have hne : ws ++ (f.body ++ rest) ≠ [] := by
    rw [hbody]
    exact fun h => List.cons_ne_nil _ _ (List.append_eq_nil_iff.mp h).2
  have hcolon : (f.afterKey.val ++ ':' :: (f.beforeValue.val ++ (f.number.text ++ (f.after.val ++ rest)))).dropWhile (· != ':') =
      ':' :: (f.beforeValue.val ++ (f.number.text ++ (f.after.val ++ rest))) := by
    refine (scan_while (fun d hd => ?_) (fun d hd => by cases hd; rfl)).2
    rw [bne_iff_ne]
    rintro rfl
    cases f.afterKey.property ':' hd
  have hspaces : (f.beforeValue.val ++ (f.number.text ++ (f.after.val ++ rest))).dropWhile isSpace =
      f.number.text ++ (f.after.val ++ rest) := by
    refine dropWhile_space f.beforeValue.property ?_
    rw [htext]
    intro d hd
    cases hd
    exact isSpace_number hc
  rw [vocabEntries, if_neg hne, hskip, hbody]
  dsimp only
  rw [if_neg (by decide), if_neg (by decide), scanKey_items]
  dsimp only
  rw [hcolon]
  dsimp only
  rw [hspaces, htake, hdrop, stoll_whole]
  by_cases hrange : wholePart f.number < -2 ^ 63 ∨ 2 ^ 63 ≤ wholePart f.number
  · rw [if_pos hrange, if_pos hrange]
  · rw [if_neg hrange, if_neg hrange]
    rfl

/-- After a point or an exponent there is no key. -/
theorem vocabEntries_after {c : Char} (hc : c = '.' ∨ c = 'e' ∨ c = 'E') (fuel : Nat) (s : List Char) (m : VocabMap) :
    vocabEntries (fuel + 1) (c :: s) m = fail .invalidArgument "vocab key" := by
  rcases hc with rfl | rfl | rfl <;> rfl

theorem after_ends (f : FieldText) (s : List Char) {c : Char} (hc : idChar c = false) : Ends idChar (f.after.val ++ c :: s) :=
  Ends.append (fun d hd => idChar_space (f.after.property d (List.mem_of_mem_head? hd))) fun d hd => by cases hd; exact hc

/-- A field is read when it is whole, and nothing after it otherwise. -/
theorem vocabEntries_whole (f : FieldText) (fuel : Nat) {ws s : List Char} {m : VocabMap} (hws : ∀ c ∈ ws, betweenEntries c = true)
    (hs : Ends idChar (f.after.val ++ s)) :
    (WholeNumber f.number → vocabEntries (fuel + 1 + 1) (ws ++ (f.body ++ s)) m =
      vocabEntries (fuel + 1) (f.after.val ++ s) (vocabEntry f :: m)) ∧
    (¬ WholeNumber f.number → ∃ e, vocabEntries (fuel + 1 + 1) (ws ++ (f.body ++ s)) m = .error e) := by
  rw [vocabEntries_field f hws hs]
  by_cases hrange : wholePart f.number < -2 ^ 63 ∨ 2 ^ 63 ≤ wholePart f.number
  · rw [if_pos hrange]
    exact ⟨fun h => absurd hrange (by have hr := h.range; omega), fun _ => ⟨_, rfl⟩⟩
  · rw [if_neg hrange]
    by_cases hplain : f.number.literal.frac = [] ∧ f.number.literal.exp = none
    · rw [(afterWhole_eq f.number).1 hplain, List.nil_append]
      exact ⟨fun _ => rfl, fun h => absurd ⟨hplain.1, hplain.2, by omega⟩ h⟩
    · obtain ⟨c, t, ht, hc⟩ := (afterWhole_eq f.number).2 hplain
      rw [ht, List.cons_append, vocabEntries_after hc]
      exact ⟨fun h => absurd ⟨h.frac, h.exp⟩ hplain, fun _ => ⟨_, rfl⟩⟩

/-- At the closing brace. -/
theorem vocabEntries_end (fuel : Nat) {ws : List Char} (rest : List Char) (m : VocabMap) (hws : ∀ c ∈ ws, betweenEntries c = true) :
    vocabEntries (fuel + 1) (ws ++ '\x7d' :: rest) m = .ok m := by
  have hskip : (ws ++ '\x7d' :: rest).dropWhile betweenEntries = '\x7d' :: rest :=
    (scan_while hws (fun d hd => by cases hd; rfl)).2
  rw [vocabEntries, if_neg (by simp), hskip]
  rfl

/-- The fields from one on. By the fields. -/
theorem vocabEntries_fields (rest : List Char) {fs : List FieldText} : ∀ {f : FieldText} {fuel : Nat} {ws : List Char}
    {m : VocabMap}, (∀ c ∈ ws, betweenEntries c = true) → fs.length + 1 < fuel →
    ((∀ g ∈ f :: fs, WholeNumber g.number) → vocabEntries fuel (ws ++ (f.body ++ (fieldsText fs ++ rest))) m =
        .ok ((f :: fs).foldl (fun m f => vocabEntry f :: m) m)) ∧
      (∀ m', vocabEntries fuel (ws ++ (f.body ++ (fieldsText fs ++ rest))) m = .ok m' → ∀ g ∈ f :: fs, WholeNumber g.number) := by
  induction fs with
  | nil =>
    intro f fuel ws m hws hfuel
    obtain ⟨n, rfl⟩ := Nat.exists_eq_add_of_lt hfuel
    obtain ⟨hgood, hbad⟩ := vocabEntries_whole f n hws (after_ends f rest (c := '\x7d') rfl)
    have hfuel' : ([] : List FieldText).length + 1 + n + 1 = n + 1 + 1 := by
      rw [List.length_nil]
      omega
    have hlast := vocabEntries_end n rest (vocabEntry f :: m) fun d hd => between_space (f.after.property d hd)
    rw [hfuel', fieldsText, List.singleton_append]
    apply And.intro
    · intro hall
      rw [hgood (hall f List.mem_cons_self), hlast]
      rfl
    · intro m' hm'
      rw [List.forall_mem_singleton]
      by_contra hw
      obtain ⟨e, he⟩ := hbad hw
      rw [he] at hm'
      cases hm'
  | cons g fs ih =>
    intro f fuel ws m hws hfuel
    obtain ⟨n, rfl⟩ := Nat.exists_eq_add_of_lt hfuel
    obtain ⟨hgood, hbad⟩ := vocabEntries_whole f ((g :: fs).length + n) hws
      (after_ends f (g.text ++ (fieldsText fs ++ rest)) (c := ',') rfl)
    have hbetween : ∀ c ∈ f.after.val ++ ',' :: g.before.val, betweenEntries c = true := by
      intro c hc
      rcases List.mem_append.mp hc with hc | hc
      · exact between_space (f.after.property c hc)
      · rcases List.mem_cons.mp hc with rfl | hc
        · rfl
        · exact between_space (g.before.property c hc)
    obtain ⟨hok, hwhole⟩ := @ih g ((g :: fs).length + n + 1) (f.after.val ++ ',' :: g.before.val) (vocabEntry f :: m) hbetween
      (by rw [List.length_cons]; omega)
    have hfuel' : (g :: fs).length + 1 + n + 1 = (g :: fs).length + n + 1 + 1 := by omega
    have htext : f.after.val ++ ',' :: (g.text ++ (fieldsText fs ++ rest)) =
        f.after.val ++ ',' :: g.before.val ++ (g.body ++ (fieldsText fs ++ rest)) := by
      simp [FieldText.text]
    have hmore : fieldsText (g :: fs) ++ rest = ',' :: (g.text ++ (fieldsText fs ++ rest)) := by simp [fieldsText]
    rw [hfuel', hmore]
    rw [htext] at hgood
    apply And.intro
    · intro hall
      rw [hgood (hall f List.mem_cons_self), hok fun e he => hall e (List.mem_cons_of_mem _ he)]
      rfl
    · intro m' hm'
      by_cases hw : WholeNumber f.number
      · rw [hgood hw] at hm'
        exact List.forall_mem_cons.mpr ⟨hw, hwhole m' hm'⟩
      · obtain ⟨e, he⟩ := hbad hw
        rw [he] at hm'
        cases hm'

/-- The whole text. -/
theorem parseVocabJson_text (d : ObjectText) :
    ((∀ f ∈ d.fields, WholeNumber f.number) →
        parseVocabJson (String.ofList d.text) = .ok (d.fields.foldl (fun m f => vocabEntry f :: m) [])) ∧
      (∀ m, parseVocabJson (String.ofList d.text) = .ok m → ∀ f ∈ d.fields, WholeNumber f.number) := by
  have hbrace : d.text.dropWhile (· != '\x7b') = '\x7b' :: (d.inside ++ d.after.val) := by
    refine (scan_while (fun c hc => ?_) (fun c hc => by cases hc; rfl)).2
    rw [bne_iff_ne]
    rintro rfl
    cases d.before.property '\x7b' hc
  have hparse : parseVocabJson (String.ofList d.text) =
      vocabEntries ((d.inside ++ d.after.val).length + 1) (d.inside ++ d.after.val) [] := by
    rw [parseVocabJson, String.toList_ofList, hbrace]
  rw [hparse]
  cases hfields : d.fields with
  | nil =>
    have hin : d.inside = d.gap.val ++ ['\x7d'] := by rw [ObjectText.inside, hfields]
    refine ⟨fun _ => ?_, fun m _ f hf => by cases hf⟩
    rw [hin, List.append_assoc, List.singleton_append]
    exact vocabEntries_end _ d.after.val [] fun c hc => between_space (d.gap.property c hc)
  | cons f fs =>
    have hin : d.inside ++ d.after.val = f.before.val ++ (f.body ++ (fieldsText fs ++ d.after.val)) := by
      rw [ObjectText.inside, hfields]
      simp [FieldText.text]
    have hcount := length_le_fieldsText fs
    have hlen : fs.length + 1 < (d.inside ++ d.after.val).length + 1 := by
      rw [hin]
      simp only [List.length_append, FieldText.body, quoteItems, List.length_cons]
      omega
    rw [hin] at hlen ⊢
    exact vocabEntries_fields d.after.val (fun c hc => between_space (f.before.property c hc)) hlen

/-! ## The two maps -/

theorem get_set (o : Object) (key : String) (v : Value) (key' : String) :
    (o.set key v).get key' = if key = key' then some v else o.get key' := by
  induction o with
  | nil =>
    by_cases h : key = key'
    · simp [Object.set, Object.get, h]
    · simp [Object.set, Object.get, h]
  | cons kv o ih =>
    obtain ⟨k, w⟩ := kv
    unfold Object.get at ih ⊢
    rw [Object.set]
    by_cases hlt : key < k
    · rw [if_pos hlt]
      by_cases h : key = key'
      · rw [List.find?_cons_of_pos (by simpa using h), if_pos h]
        rfl
      · rw [List.find?_cons_of_neg (by simpa using h), if_neg h]
    · rw [if_neg hlt]
      by_cases hgt : k < key
      · rw [if_pos hgt]
        by_cases hk : k = key'
        · have hne : ¬ key = key' := fun he => absurd hgt (by rw [hk, he]; exact lt_irrefl _)
          rw [List.find?_cons_of_pos (by simpa using hk), List.find?_cons_of_pos (by simpa using hk), if_neg hne]
        · rw [List.find?_cons_of_neg (by simpa using hk), List.find?_cons_of_neg (by simpa using hk), ih]
      · rw [if_neg hgt]
        obtain rfl : key = k := le_antisymm (not_lt.mp hgt) (not_lt.mp hlt)
        by_cases h : key = key'
        · rw [List.find?_cons_of_pos (by simpa using h), if_pos h]
          rfl
        · rw [List.find?_cons_of_neg (by simpa using h), List.find?_cons_of_neg (by simpa using h), if_neg h]

/-- The last pair of a key counts. -/
theorem foldl_set_get (es : List (String × Value)) (o : Object) (key : String) :
    (es.foldl (fun o e => o.set e.1 e.2) o).get key = ((es.reverse.find? (·.1 == key)).map (·.2)).or (o.get key) := by
  induction es generalizing o with
  | nil => rfl
  | cons e es ih =>
    rw [List.foldl_cons, ih, get_set, List.reverse_cons, List.find?_append]
    cases (es.reverse.find? (·.1 == key)) with
    | some e' => rfl
    | none =>
      by_cases h : e.1 = key
      · simp [h]
      · simp [h]

theorem object_get (d : ObjectText) (key : String) :
    d.object.get key = ((d.fields.map FieldText.entry).reverse.find? (·.1 == key)).map (·.2) := by
  have hfold := foldl_set_get (d.fields.map FieldText.entry) [] key
  rw [List.foldl_map] at hfold
  unfold ObjectText.object
  rw [hfold]
  exact Option.or_none

theorem vocab_get (fs : List FieldText) (key : String) : VocabMap.get (fs.foldl (fun m f => vocabEntry f :: m) []) key =
    ((fs.map vocabEntry).reverse.find? (·.1 == key)).map (·.2) := by
  have hfold : ∀ m : VocabMap, fs.foldl (fun m f => vocabEntry f :: m) m = (fs.map vocabEntry).reverse ++ m := by
    induction fs with
    | nil => exact fun m => rfl
    | cons f fs ih =>
      intro m
      rw [List.foldl_cons, ih, List.map_cons, List.reverse_cons, List.append_assoc]
      rfl
  rw [VocabMap.get, hfold, List.append_nil]

/-- The maps agree: a number is the integer. -/
def SameMap (o : Object) (m : VocabMap) : Prop := ∀ key, o.get key = (m.get key).map fun n : Int => Value.num (n : ℚ)

/-- Both read the text, as the same map. -/
def Agrees (text : String) : Prop := ∃ o m, parse text = .ok (.obj o) ∧ parseVocabJson text = .ok m ∧ SameMap o m

/-- A field that both read alike: its key in items that are kept, its value a 64-bit
    integer in digits alone, and a double. -/
structure Kept (f : FieldText) : Prop where
  key : ∀ i ∈ f.key, Item.Kept i
  number : WholeNumber f.number
  exact : toDouble (wholePart f.number) = wholePart f.number

/-! ## Kept fields are read alike -/

theorem kept_bytes {i : Item} (h : Item.Kept i) : Item.dropped i = i.bytes := by
  cases i with
  | raw b hb => rfl
  | short e c hc =>
    obtain rfl : e = c := h
    rfl
  | unit u => exact absurd h id

theorem kept_name {f : FieldText} (h : ∀ i ∈ f.key, Item.Kept i) : (vocabEntry f).1 = f.name := by
  unfold vocabEntry FieldText.name
  rw [List.flatMap_congr fun i hi => kept_bytes (h i hi)]

theorem whole_value {t : NumberText} (h : WholeNumber t) : t.value = some (toDouble (wholePart t)) := by
  have hvalue : t.literal.value = (wholePart t : ℚ) := by
    unfold Decimal.Literal.value wholePart
    rw [h.frac, h.exp, List.append_nil]
    cases t.literal.neg <;> simp [Decimal.exponent]
  have hrange := h.range
  rw [NumberText.value, hvalue, stod_i64 (abs_le.mpr ⟨by omega, by omega⟩)]

/-- Its entry is the vocabulary's. -/
theorem kept_entry {f : FieldText} (h : Kept f) : f.entry = ((vocabEntry f).1, .num ((vocabEntry f).2 : ℚ)) := by
  rw [FieldText.entry, whole_value h.number, kept_name h.key, h.exact]
  rfl

theorem agrees_of_kept (d : ObjectText) (h : ∀ f ∈ d.fields, Kept f) : Agrees (String.ofList d.text) := by
  have hvalues : ∀ f ∈ d.fields, f.number.value.isSome = true := by
    intro f hf
    rw [whole_value (h f hf).number]
    rfl
  refine ⟨_, _, parse_object d hvalues, (parseVocabJson_text d).1 fun f hf => (h f hf).number, fun key => ?_⟩
  have hentries : d.fields.map FieldText.entry = (d.fields.map vocabEntry).map fun e => (e.1, Value.num (e.2 : ℚ)) := by
    rw [List.map_map]
    exact List.map_congr_left fun f hf => kept_entry (h f hf)
  rw [object_get, vocab_get, hentries, ← List.map_reverse, List.find?_map, Option.map_map, Option.map_map]
  rfl

/-! ## And only they, where no name is repeated -/

/-- A measure that grows when an item is not kept. -/
def weight (cs : List Char) : Nat := (cs.map fun c => 256 + c.toNat).sum

theorem weight_append (cs ds : List Char) : weight (cs ++ ds) = weight cs + weight ds := by
  unfold weight
  rw [List.map_append, List.sum_append]

theorem weight_flatMap (f : Item → List Char) (items : List Item) :
    weight (items.flatMap f) = (items.map fun i => weight (f i)).sum := by
  induction items with
  | nil => rfl
  | cons i items ih => rw [List.flatMap_cons, weight_append, ih, List.map_cons, List.sum_cons]

theorem ofNat_le (n : Nat) : (Char.ofNat n).toNat ≤ n := by
  by_cases h : n.isValidChar
  · rw [Char.ofNat, dif_pos h]
    exact Nat.le_of_eq rfl
  · rw [Char.ofNat, dif_neg h]
    exact Nat.zero_le n

theorem weight_code {code : Nat} (h : code < 0x10000) : weight (codeBytes code) ≤ 1389 := by
  unfold codeBytes
  split_ifs with h1 h2
  · have := ofNat_le code
    simp only [weight, List.map_cons, List.map_nil, List.sum_cons, List.sum_nil]
    omega
  · have := ofNat_le (0xC0 + code / 64)
    have := ofNat_le (0x80 + code % 64)
    simp only [weight, List.map_cons, List.map_nil, List.sum_cons, List.sum_nil]
    omega
  · have := ofNat_le (0xE0 + code / 4096)
    have := ofNat_le (0x80 + code / 64 % 64)
    have := ofNat_le (0x80 + code % 64)
    simp only [weight, List.map_cons, List.map_nil, List.sum_cons, List.sum_nil]
    omega

theorem item_weight (i : Item) : weight i.bytes ≤ weight (Item.dropped i) ∧
    (weight i.bytes = weight (Item.dropped i) → Item.Kept i) := by
  cases i with
  | raw b h => exact ⟨Nat.le_refl _, fun _ => trivial⟩
  | short e c h =>
    show weight [c] ≤ weight [e] ∧ (weight [c] = weight [e] → e = c)
    unfold escaped at h
    split at h
    all_goals first
      | (cases h; decide)
      | cases h
  | unit u =>
    have hcode := weight_code u.lt
    have hunit : 1397 ≤ weight (Item.dropped (.unit u)) := by
      have hu : 'u'.toNat = 117 := rfl
      simp only [Item.dropped, weight, List.map_cons, List.map_nil, List.sum_cons, List.sum_nil, hu]
      omega
    have hbytes : (Item.unit u).bytes = codeBytes u.code := rfl
    rw [hbytes]
    exact ⟨by omega, fun h => by omega⟩

/-- Sums that are equal have equal terms, where none of one is above the other's. -/
theorem eq_of_sum_eq {α : Type} {f g : α → Nat} : ∀ {l : List α}, (∀ a ∈ l, f a ≤ g a) → (l.map f).sum = (l.map g).sum →
    ∀ a ∈ l, f a = g a := by
  intro l
  induction l with
  | nil => exact fun _ _ a ha => by cases ha
  | cons b l ih =>
    intro hle hsum
    have hb := hle b List.mem_cons_self
    have hl : ∀ a ∈ l, f a ≤ g a := fun a ha => hle a (List.mem_cons_of_mem _ ha)
    have hrest : (l.map f).sum ≤ (l.map g).sum := List.sum_le_sum hl
    rw [List.map_cons, List.map_cons, List.sum_cons, List.sum_cons] at hsum
    exact List.forall_mem_cons.mpr ⟨by omega, ih hl (by omega)⟩

theorem key_weight (f : FieldText) : weight f.name.toList ≤ weight (vocabEntry f).1.toList ∧
    (weight f.name.toList = weight (vocabEntry f).1.toList → ∀ i ∈ f.key, Item.Kept i) := by
  unfold FieldText.name vocabEntry
  rw [String.toList_ofList, String.toList_ofList, weight_flatMap, weight_flatMap]
  apply And.intro
  · exact List.sum_le_sum fun i _ => (item_weight i).1
  · intro hsum i hi
    exact (item_weight i).2 (eq_of_sum_eq (fun i _ => (item_weight i).1) hsum i hi)

/-- Where the names of both maps are the same, every key is kept. -/
theorem keys_kept {fs : List FieldText} (hnodup : (fs.map FieldText.name).Nodup)
    (hsub : ∀ f ∈ fs, ∃ g ∈ fs, (vocabEntry g).1 = f.name) : ∀ f ∈ fs, ∀ i ∈ f.key, Item.Kept i := by
  have hperm : (fs.map FieldText.name).Perm (fs.map fun f => (vocabEntry f).1) := by
    have hsubset : fs.map FieldText.name ⊆ fs.map fun f => (vocabEntry f).1 := by
      intro name hname
      obtain ⟨f, hf, rfl⟩ := List.mem_map.mp hname
      obtain ⟨g, hg, hname⟩ := hsub f hf
      exact List.mem_map.mpr ⟨g, hg, hname⟩
    exact (List.subperm_of_subset hnodup hsubset).perm_of_length_le (by rw [List.length_map, List.length_map])
  have hsum := (hperm.map fun name => weight name.toList).sum_eq
  rw [List.map_map, List.map_map] at hsum
  intro f hf
  exact (key_weight f).2 (eq_of_sum_eq (fun f _ => (key_weight f).1) hsum f hf)

theorem get_of_mem {β : Type} {es : List (String × β)} (hnodup : (es.map (·.1)).Nodup) {e : String × β} (he : e ∈ es) :
    (es.reverse.find? (·.1 == e.1)).map (·.2) = some e.2 := by
  rw [Lists.find?_reverse_of_nodup hnodup he]
  rfl

theorem isSome_of_ints {d : ObjectText} (hints : ∀ f ∈ d.fields, ∃ n : Int, f.number.value = some (n : ℚ)) :
    ∀ f ∈ d.fields, f.number.value.isSome = true := by
  intro f hf
  obtain ⟨n, hn⟩ := hints f hf
  rw [hn]
  rfl

theorem kept_of_agrees {d : ObjectText} (hints : ∀ f ∈ d.fields, ∃ n : Int, f.number.value = some (n : ℚ))
    (hnodup : (d.fields.map FieldText.name).Nodup) (h : Agrees (String.ofList d.text)) : ∀ f ∈ d.fields, Kept f := by
  obtain ⟨o, m, ho, hm, hsame⟩ := h
  have hwhole := (parseVocabJson_text d).2 m hm
  rw [parse_object d (isSome_of_ints hints)] at ho
  cases ho
  rw [(parseVocabJson_text d).1 hwhole] at hm
  cases hm
  have hentries : ((d.fields.map FieldText.entry).map (·.1)).Nodup := by
    rw [List.map_map]
    exact hnodup
  have hlookup : ∀ f ∈ d.fields, some f.entry.2 =
      (((d.fields.map vocabEntry).reverse.find? (·.1 == f.name)).map (·.2)).map fun n : Int => Value.num (n : ℚ) := by
    intro f hf
    have hget := hsame f.name
    rw [object_get, vocab_get] at hget
    rw [← hget]
    exact (get_of_mem hentries (List.mem_map_of_mem hf)).symm
  have hkeys : ∀ f ∈ d.fields, ∀ i ∈ f.key, Item.Kept i := by
    refine keys_kept hnodup fun f hf => ?_
    obtain ⟨n, hn, -⟩ := Option.map_eq_some_iff.mp (hlookup f hf).symm
    obtain ⟨e, he, -⟩ := Option.map_eq_some_iff.mp hn
    obtain ⟨g, hg, rfl⟩ := List.mem_map.mp (List.mem_reverse.mp (List.mem_of_find?_eq_some he))
    exact ⟨g, hg, by simpa using List.find?_some he⟩
  have hnames : (d.fields.map vocabEntry).map (·.1) = d.fields.map FieldText.name := by
    rw [List.map_map]
    exact List.map_congr_left fun f hf => kept_name (hkeys f hf)
  intro f hf
  refine ⟨hkeys f hf, hwhole f hf, ?_⟩
  have hget := hlookup f hf
  rw [← kept_name (hkeys f hf), get_of_mem (hnames ▸ hnodup) (List.mem_map_of_mem hf), FieldText.entry,
    whole_value (hwhole f hf)] at hget
  exact Value.num.inj (Option.some.inj hget)

/-- An object that `json::parse` accepts, with integers for all its values. -/
def IntegerObject (text : String) : Prop :=
  (∃ o, parse text = .ok (.obj o)) ∧ ∀ kvs, ObjectRead text kvs → ∀ kv ∈ kvs, ∃ n : Int, kv.2 = .num n

/-- The text of an object, field by field, the numbers integers. -/
def Spells (d : ObjectText) (text : String) : Prop :=
  text = String.ofList d.text ∧ ∀ f ∈ d.fields, ∃ n : Int, f.number.value = some (n : ℚ)

theorem IntegerObject.spelled {text : String} (h : IntegerObject text) : ∃ d, Spells d text := by
  obtain ⟨⟨o, ho⟩, hints⟩ := h
  obtain ⟨kvs, hread, -⟩ := parse_read ho
  obtain ⟨d, htext, rfl, hvalues⟩ := hread.text fun kv hkv => by
    obtain ⟨n, hn⟩ := hints kvs hread kv hkv
    exact ⟨n, hn⟩
  refine ⟨d, htext, fun f hf => ?_⟩
  obtain ⟨x, hx⟩ := Option.isSome_iff_exists.mp (hvalues f hf)
  obtain ⟨n, hn⟩ := hints _ hread f.entry (List.mem_map_of_mem hf)
  rw [FieldText.entry, hx] at hn
  exact ⟨n, hx.trans (congrArg some (Value.num.inj hn))⟩

theorem Spells.integerObject {d : ObjectText} {text : String} (h : Spells d text) : IntegerObject text := by
  obtain ⟨rfl, hints⟩ := h
  refine ⟨⟨_, parse_object d (isSome_of_ints hints)⟩, fun kvs hread kv hkv => ?_⟩
  rw [hread.unique (d.read (isSome_of_ints hints))] at hkv
  obtain ⟨f, hf, rfl⟩ := List.mem_map.mp hkv
  obtain ⟨n, hn⟩ := hints f hf
  exact ⟨n, by rw [FieldText.entry, hn, Option.getD_some]⟩

/-- On every object of integers that `json::parse` accepts both read the same map when
    every field is such that both take it alike, and where no name is repeated only then. -/
theorem vocab_json_iff {text : String} (h : IntegerObject text) :
    (∃ d, Spells d text) ∧ ∀ d, Spells d text → ((∀ f ∈ d.fields, Kept f) → Agrees text) ∧
      ((d.fields.map FieldText.name).Nodup → (Agrees text ↔ ∀ f ∈ d.fields, Kept f)) := by
  refine ⟨h.spelled, fun d hd => ?_⟩
  obtain ⟨rfl, hints⟩ := hd
  exact ⟨agrees_of_kept d, fun hnodup => ⟨kept_of_agrees hints hnodup, agrees_of_kept d⟩⟩

/-! ## An escaped newline -/

def noSpaces : Spaces := ⟨[], no_space⟩

def one : NumberText := ⟨⟨false, ['1'], [], none⟩, ⟨by decide, List.forall_mem_singleton.mpr rfl, by decide, by simp, by simp⟩, false, false⟩

/-- `{"\n":1}`. -/
def newlineText : ObjectText :=
  ⟨noSpaces, [⟨noSpaces, [.short 'n' '\n' rfl], noSpaces, noSpaces, one, noSpaces⟩], noSpaces, noSpaces⟩

theorem one_value : one.value = some ((1 : Int) : ℚ) := by
  have hwhole : WholeNumber one := ⟨rfl, rfl, by decide, by decide⟩
  have hone : wholePart one = 1 := by decide
  rw [whole_value hwhole, hone, toDouble_int (by decide)]

theorem newline_ints : ∀ f ∈ newlineText.fields, ∃ n : Int, f.number.value = some (n : ℚ) := by
  intro f hf
  rw [List.mem_singleton.mp hf]
  exact ⟨1, one_value⟩

/-- The key is read as a newline, and as `n`. -/
theorem escaped_newline_differs : newlineText.text = ['\x7b', '"', '\\', 'n', '"', ':', '1', '\x7d'] ∧
    parse (String.ofList newlineText.text) = .ok (.obj [("\n", .num 1)]) ∧
    parseVocabJson (String.ofList newlineText.text) = .ok [("n", 1)] ∧ ¬ Agrees (String.ofList newlineText.text) := by
  have hobject : newlineText.object = [("\n", .num 1)] := by
    have hone : one.value.getD 0 = 1 := by
      rw [one_value]
      norm_num
    show [(String.ofList ['\n'], Value.num (one.value.getD 0))] = _
    rw [hone]
  refine ⟨rfl, ?_, ?_, fun h => ?_⟩
  · rw [parse_object newlineText (isSome_of_ints newline_ints), hobject]
  · refine (parseVocabJson_text newlineText).1 fun f hf => ?_
    rw [List.mem_singleton.mp hf]
    exact ⟨rfl, rfl, by decide, by decide⟩
  · have hkept := kept_of_agrees newline_ints (by decide) h _ List.mem_cons_self
    have hkey : 'n' = '\n' := hkept.key (.short 'n' '\n' rfl) List.mem_cons_self
    exact absurd hkey (by decide)

theorem newline_iff : (∃ d, Spells d (String.ofList newlineText.text)) ∧ ∀ d, Spells d (String.ofList newlineText.text) →
    ((∀ f ∈ d.fields, Kept f) → Agrees (String.ofList newlineText.text)) ∧
      ((d.fields.map FieldText.name).Nodup → (Agrees (String.ofList newlineText.text) ↔ ∀ f ∈ d.fields, Kept f)) :=
  vocab_json_iff (Spells.integerObject ⟨rfl, newline_ints⟩)

end Uaii.Tokenizers
