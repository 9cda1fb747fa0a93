/-
  Uaii.Ir.JsonObjects — the texts of JSON objects whose values are numbers, and what
  `json::parse` (`libs/uaii-ir/src/json_util.cpp`) reads them as.

  A text has spaces wherever JSON allows them, its keys in any spelling (`Item`), and its
  numbers too: `e` or `E`, with or without a plus.

  Proved: the parser reads the fields in their order, each number as `stod` reads it
  (`parse_object`).
-/

import Uaii.Ir.JsonStrings

namespace Uaii.Ir.Json

open Codec Decimal
open TextStream (Ends)

/-! ## Numbers -/

/-- A number, and how its exponent is written. -/
structure NumberText where
  literal : Literal
  ok : literal.Ok
  upper : Bool
  plus : Bool

namespace NumberText

def expText (t : NumberText) : List Char :=
  match t.literal.exp with
  | none => []
  | some (neg, ds) => (if t.upper then 'E' else 'e') :: ((if neg then ['-'] else if t.plus then ['+'] else []) ++ ds)

def text (t : NumberText) : List Char :=
  (if t.literal.neg then ['-'] else []) ++
    (t.literal.int ++ ((if t.literal.frac = [] then [] else '.' :: t.literal.frac) ++ t.expText))

/-- What is read, none when it is no double. -/
def value (t : NumberText) : Option ℚ := stod t.literal.value

theorem scanExp_spelled (size : Nat) (t : NumberText) {rest : List Char} (hrest : Ends numberChar rest) :
    scanExp size (t.expText ++ rest) = .ok (t.literal.exp, rest) := by
  have hdigit : Ends Char.isDigit rest := hrest.mono fun c hc => by simp [numberChar, hc]
  have hexp := t.ok.exp
  unfold expText
  generalize t.literal.exp = exp at hexp
  cases exp with
  | none => exact scanExp_none (hrest.mono fun c hc => by simp [numberChar] at hc ⊢; tauto)
  | some e =>
    obtain ⟨neg, ds⟩ := e
    have hds := hexp neg ds rfl
    have hmark : (if t.upper then 'E' else 'e') = 'e' ∨ (if t.upper then 'E' else 'e') = 'E' := by
      cases t.upper
      · exact .inl rfl
      · exact .inr rfl
    have hsign : scanExpSign ((if neg then ['-'] else if t.plus then ['+'] else []) ++ (ds ++ rest)) = .ok (neg, ds ++ rest) := by
      cases neg with
      | true => rfl
      | false =>
        cases t.plus with
        | true => rfl
        | false =>
          obtain ⟨d, ds, rfl⟩ := List.exists_cons_of_ne_nil hds.1
          have hd := hds.2 d List.mem_cons_self
          show scanExpSign (d :: (ds ++ rest)) = _
          unfold scanExpSign
          split
          · rename_i heq
            rw [(List.cons.inj heq).1] at hd
            cases hd
          · rename_i heq
            rw [(List.cons.inj heq).1] at hd
            cases hd
          · rfl
    exact scanExp_marked hmark hds hdigit hsign

theorem scan (size : Nat) (t : NumberText) {rest : List Char} (hrest : Ends numberChar rest) :
    scanLiteral size (t.text ++ rest) = .ok (t.literal, rest) := by
  have hexp : Ends (fun c => c.isDigit || c == '.') t.expText := by
    unfold expText
    cases t.literal.exp with
    | none => exact fun c hc => by cases hc
    | some e =>
      intro c hc
      cases hc
      cases t.upper <;> rfl
  exact scanLiteral_parts t.ok (hexp.append (hrest.mono fun c hc => by simp [numberChar] at hc ⊢; tauto))
    (scanExp_spelled size t hrest)

theorem head (t : NumberText) : ∃ c cs, t.text = c :: cs ∧ (c = '-' ∨ c.isDigit = true) := by
  unfold text
  cases t.literal.neg with
  | true => exact ⟨'-', _, rfl, .inl rfl⟩
  | false =>
    have hint := t.ok.int
    obtain ⟨c, cs, hcs⟩ := List.exists_cons_of_ne_nil t.ok.nonempty
    rw [hcs] at hint ⊢
    exact ⟨c, _, rfl, .inr (hint c List.mem_cons_self)⟩

/-- A number is an item, after spaces. -/
theorem item (size n : Nat) (t : NumberText) {x : ℚ} (hx : t.value = some x) {ws rest : List Char}
    (hws : ∀ c ∈ ws, isSpace c = true) (hrest : Ends numberChar rest) :
    parseValue size (n + 1) (ws ++ (t.text ++ rest)) = .ok (.num x, rest) := by
  obtain ⟨c, cs, htext, hc⟩ := t.head
  have hscan := t.scan size hrest
  rw [htext] at hscan ⊢
  refine (parseValue_number hws hc).trans ?_
  refine (bind_run hscan).trans ?_
  have hstod : stod t.literal.value = some x := hx
  rw [hstod]
  rfl

end NumberText

/-! ## Objects -/

abbrev Spaces := { ws : List Char // ∀ c ∈ ws, isSpace c = true }

structure FieldText where
  before : Spaces
  key : List Item
  afterKey : Spaces
  beforeValue : Spaces
  number : NumberText
  after : Spaces

namespace FieldText

/-- From the key on. -/
def body (f : FieldText) : List Char :=
  quoteItems f.key ++ (f.afterKey.val ++ ':' :: (f.beforeValue.val ++ (f.number.text ++ f.after.val)))

def text (f : FieldText) : List Char := f.before.val ++ f.body

def name (f : FieldText) : String := String.ofList (f.key.flatMap Item.bytes)

/-- What the parser sets, where the number is a double. -/
def entry (f : FieldText) : String × Value := (f.name, .num (f.number.value.getD 0))

end FieldText

structure ObjectText where
  before : Spaces
  fields : List FieldText
  /-- Between the braces of an object without fields. -/
  gap : Spaces
  after : Spaces

/-- The fields and the closing brace. -/
def fieldsText : List FieldText → List Char
  | [] => ['\x7d']
  | f :: fs => ',' :: (f.text ++ fieldsText fs)

namespace ObjectText

def inside (d : ObjectText) : List Char :=
  match d.fields with
  | [] => d.gap.val ++ ['\x7d']
  | f :: fs => f.text ++ fieldsText fs

def text (d : ObjectText) : List Char := d.before.val ++ '\x7b' :: (d.inside ++ d.after.val)

/-- The map the fields make. -/
def object (d : ObjectText) : Object := d.fields.foldl (fun o f => o.set f.entry.1 f.entry.2) []

end ObjectText

theorem ends_spaces (ws : Spaces) {c : Char} (hc : numberChar c = false) (rest : List Char) :
    Ends numberChar (ws.val ++ c :: rest) :=
  ends_number ws.property fun d hd => by cases hd; exact hc

/-- A key is an item. -/
theorem key_item (size n : Nat) (items : List Item) {ws : List Char} (hws : ∀ c ∈ ws, isSpace c = true) (rest : List Char) :
    parseValue size (n + 1) (ws ++ (quoteItems items ++ rest)) = .ok (.str (String.ofList (items.flatMap Item.bytes)), rest) :=
  (parseValue_dispatch hws rfl).trans (parseString_items size items rest)

/-- The fields read from `s` on, each by `item`, and what is left after the brace. -/
inductive FieldsRead (item : Parser Value) : List Char → List (String × Value) → List Char → Prop where
  | last {s s' rest : List Char} {key : String} {v : Value} (afterKey after : Spaces)
    (hkey : item s = .ok (.str key, afterKey.val ++ ':' :: s')) (h : item s' = .ok (v, after.val ++ '\x7d' :: rest)) :
    FieldsRead item s [(key, v)] rest
  | more {s s' s'' rest : List Char} {key : String} {v : Value} {kvs : List (String × Value)} (afterKey after : Spaces)
    (hkey : item s = .ok (.str key, afterKey.val ++ ':' :: s')) (h : item s' = .ok (v, after.val ++ ',' :: s''))
    (hmore : FieldsRead item s'' kvs rest) : FieldsRead item s ((key, v) :: kvs) rest

/-- The loop sets one field after the other. -/
theorem FieldsRead.parse (size : Nat) {item : Parser Value} {s rest : List Char} {kvs : List (String × Value)}
    (h : FieldsRead item s kvs rest) : ∀ {m : Nat} (o : Object), kvs.length ≤ m →
      parseFields size item m o s = .ok (kvs.foldl (fun o kv => o.set kv.1 kv.2) o, rest) := by
  induction h with
  | last afterKey after hkey h =>
    intro m o hm
    obtain ⟨m, rfl⟩ := Nat.exists_eq_add_of_le hm
    rw [List.length_singleton, Nat.add_comm]
    exact parseFields_last afterKey.property hkey after.property h
  | more afterKey after hkey h hmore ih =>
    intro m o hm
    obtain ⟨m, rfl⟩ := Nat.exists_eq_add_of_le hm
    rw [List.length_cons, Nat.add_right_comm]
    exact (parseFields_more afterKey.property hkey after.property h).trans (ih _ (Nat.le_add_right _ _))

/-- The fields from one on, whose spaces may have been skipped. By the fields. -/
theorem fieldsRead_text (size n : Nat) (rest : List Char) {fs : List FieldText} : ∀ {f : FieldText} {ws : List Char},
    (∀ c ∈ ws, isSpace c = true) → (∀ g ∈ f :: fs, g.number.value.isSome = true) →
    FieldsRead (parseValue size (n + 1)) (ws ++ (f.body ++ (fieldsText fs ++ rest))) ((f :: fs).map FieldText.entry) rest := by
  induction fs with
  | nil =>
    intro f ws hws hvalues
    obtain ⟨x, hx⟩ := Option.isSome_iff_exists.mp (hvalues f List.mem_cons_self)
    have hkey := key_item size n f.key hws (f.afterKey.val ++ ':' :: (f.beforeValue.val ++ (f.number.text ++ (f.after.val ++
      '\x7d' :: rest))))
    have hvalue := f.number.item size n hx f.beforeValue.property (ends_spaces f.after (c := '\x7d') rfl rest)
    have htext : ws ++ (f.body ++ (fieldsText [] ++ rest)) = ws ++ (quoteItems f.key ++ (f.afterKey.val ++ ':' ::
        (f.beforeValue.val ++ (f.number.text ++ (f.after.val ++ '\x7d' :: rest))))) := by
      simp [FieldText.body, fieldsText]
    have hentry : f.entry = (f.name, .num x) := by rw [FieldText.entry, hx, Option.getD_some]
    rw [htext, List.map_singleton, hentry]
    exact .last f.afterKey f.after hkey hvalue
  | cons g fs ih =>
    intro f ws hws hvalues
    obtain ⟨x, hx⟩ := Option.isSome_iff_exists.mp (hvalues f List.mem_cons_self)
    have hkey := key_item size n f.key hws (f.afterKey.val ++ ':' :: (f.beforeValue.val ++ (f.number.text ++ (f.after.val ++
      ',' :: (g.text ++ (fieldsText fs ++ rest))))))
    have hvalue := f.number.item size n hx f.beforeValue.property
      (ends_spaces f.after (c := ',') rfl (g.text ++ (fieldsText fs ++ rest)))
    have htext : ws ++ (f.body ++ (fieldsText (g :: fs) ++ rest)) = ws ++ (quoteItems f.key ++ (f.afterKey.val ++ ':' ::
        (f.beforeValue.val ++ (f.number.text ++ (f.after.val ++ ',' :: (g.text ++ (fieldsText fs ++ rest))))))) := by
      simp [FieldText.body, fieldsText]
    have hnext := ih (f := g) g.before.property fun e he => hvalues e (List.mem_cons_of_mem _ he)
    rw [← List.append_assoc] at hnext
    have hentry : f.entry = (f.name, .num x) := by rw [FieldText.entry, hx, Option.getD_some]
    rw [htext, List.map_cons, hentry]
    exact .more f.afterKey f.after hkey hvalue hnext

theorem length_le_fieldsText (fs : List FieldText) : fs.length ≤ (fieldsText fs).length := by
  induction fs with
  | nil => exact Nat.zero_le _
  | cons f fs ih =>
    simp only [fieldsText, List.length_cons, List.length_append]
    omega

/-- An object is read field by field. -/
theorem parse_object (d : ObjectText) (h : ∀ f ∈ d.fields, f.number.value.isSome = true) :
    parse (String.ofList d.text) = .ok (.obj d.object) := by
  have hread : (parseValue (String.ofList d.text).length ((String.ofList d.text).length + 1)).run (String.ofList d.text).toList =
      .ok (.obj d.object, d.after.val) := by
    rw [String.toList_ofList]
    have hlen : (String.ofList d.text).length = d.text.length := String.length_ofList
    rw [hlen]
    unfold ObjectText.object ObjectText.text
    cases hfields : d.fields with
    | nil =>
      rw [ObjectText.inside, hfields]
      dsimp only
      rw [List.append_assoc, List.singleton_append]
      refine (parseValue_dispatch d.before.property rfl).trans ?_
      refine (bind_run (expect_hit no_space rfl)).trans ?_
      refine (bind_run (skipWs_run d.gap.property rfl)).trans ?_
      exact bind_run (consume_hit no_space rfl)
    | cons f fs =>
      have hin : d.inside = f.text ++ fieldsText fs := by rw [ObjectText.inside, hfields]
      have hcount := length_le_fieldsText fs
      generalize hsize : (d.before.val ++ '\x7b' :: (d.inside ++ d.after.val)).length = size
      have hlt : fs.length < size := by
        rw [← hsize, hin]
        simp only [List.length_append, List.length_cons]
        omega
      obtain ⟨n, rfl⟩ := Nat.exists_eq_add_of_lt (Nat.lt_of_le_of_lt (Nat.zero_le _) hlt)
      rw [hfields] at h
      have hread := fieldsRead_text (0 + n + 1) (0 + n) d.after.val no_space h
      have hrun := hread.parse (0 + n + 1) (m := 0 + n + 1) [] (by rw [List.length_map, List.length_cons]; omega)
      rw [List.foldl_map] at hrun
      rw [hin, show f.text ++ fieldsText fs ++ d.after.val = f.before.val ++ '"' :: (f.key.flatMap Item.text ++ ['"'] ++
        (f.afterKey.val ++ ':' :: (f.beforeValue.val ++ (f.number.text ++ f.after.val))) ++ (fieldsText fs ++ d.after.val)) by
          simp [FieldText.text, FieldText.body, quoteItems]]
      refine (parseValue_object d.before.property f.before.property).trans ?_
      exact result_ok hrun
  have hafter : d.after.val.dropWhile isSpace = [] := by
    have hdrop := dropWhile_space (s := []) d.after.property fun c hc => by cases hc
    rwa [List.append_nil] at hdrop
  rw [parse, hread]
  show (if d.after.val.dropWhile isSpace = [] then _ else _) = _
  rw [if_pos hafter]

end Uaii.Ir.Json
