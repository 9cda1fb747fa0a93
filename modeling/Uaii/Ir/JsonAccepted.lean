/-
  Uaii.Ir.JsonAccepted — the objects of numbers that `json::parse`
  (`libs/uaii-ir/src/json_util.cpp`) accepts.

  Where a reader of the parser gives something, the text it took is told from it: a
  string took a row of items (`stringBody_taken`), a number one of its spellings
  (`scanLiteral_taken`), an object its fields one after the other (`FieldsRead`).

  Proved: what is accepted as an object is read field by field (`parse_read`); where
  every value is a number the text is that of an `ObjectText` (`ObjectRead.text`), and
  each of these is read as its fields (`ObjectText.read`).
-/

import Uaii.Ir.JsonObjects

namespace Uaii.Ir.Json

open Codec Decimal

/-! ## Spaces and marks -/

section Marks

variable {size : Nat} {s rest : List Char} {c : Char}

theorem skipWs_taken {u : Unit} (h : skipWs s = .ok (u, rest)) : ∃ ws : Spaces, s = ws.val ++ rest := by
  cases h
  exact ⟨⟨s.takeWhile isSpace, fun c hc => List.mem_takeWhile_imp hc⟩, (List.takeWhile_append_dropWhile).symm⟩

theorem consume_taken {b : Bool} (h : consume c s = .ok (b, rest)) :
    ∃ ws : Spaces, s = ws.val ++ (if b then c :: rest else rest) := by
  obtain ⟨ws, hs⟩ := skipWs_taken (show skipWs s = .ok ((), s.dropWhile isSpace) from rfl)
  refine ⟨ws, ?_⟩
  unfold consume at h
  generalize s.dropWhile isSpace = t at hs h
  cases t with
  | nil =>
    cases h
    exact hs
  | cons d t =>
    dsimp only at h
    split at h
    · next hd =>
      cases h
      rw [hs, hd]
      rfl
    · cases h
      exact hs

theorem expect_taken {msg : String} {u : Unit} (h : expect size c msg s = .ok (u, rest)) : ∃ ws : Spaces, s = ws.val ++ c :: rest := by
  obtain ⟨b, s', hb, h⟩ := bind_taken h
  obtain ⟨ws, hs⟩ := consume_taken hb
  cases b with
  | false => cases h
  | true =>
    cases h
    exact ⟨ws, hs⟩

end Marks

/-! ## Numbers -/

section Numbers

variable {size : Nat} {s rest : List Char}

theorem scanDigits_taken {msg : String} {ds : List Char} (h : scanDigits size msg s = .ok (ds, rest)) :
    s = ds ++ rest ∧ ds ≠ [] ∧ ∀ c ∈ ds, c.isDigit = true := by
  unfold scanDigits at h
  split at h
  · cases h
  · next hne =>
    cases h
    exact ⟨(List.takeWhile_append_dropWhile).symm, hne, fun c hc => List.mem_takeWhile_imp hc⟩

theorem scanSign_taken {neg : Bool} (h : scanSign s = .ok (neg, rest)) : s = (if neg then ['-'] else []) ++ rest := by
  unfold scanSign at h
  split at h
  · cases h
    rfl
  · cases h
    rfl

theorem scanInt_taken {ds : List Char} (h : scanInt size s = .ok (ds, rest)) :
    s = ds ++ rest ∧ ds ≠ [] ∧ (∀ c ∈ ds, c.isDigit = true) ∧ (ds.head? = some '0' → ds = ['0']) := by
  unfold scanInt at h
  split at h
  · cases h
    exact ⟨rfl, List.cons_ne_nil _ _, List.forall_mem_singleton.mpr rfl, fun _ => rfl⟩
  · next hzero =>
    obtain ⟨hs, hne, hds⟩ := scanDigits_taken h
    refine ⟨hs, hne, hds, fun hhead => ?_⟩
    obtain ⟨t, ht⟩ := List.head?_eq_some_iff.mp hhead
    exact absurd (by rw [hs, ht]; rfl) (hzero (t ++ rest))

theorem scanFrac_taken {ds : List Char} (h : scanFrac size s = .ok (ds, rest)) :
    s = (if ds = [] then [] else '.' :: ds) ++ rest ∧ ∀ c ∈ ds, c.isDigit = true := by
  unfold scanFrac at h
  split at h
  · obtain ⟨hs, hne, hds⟩ := scanDigits_taken h
    rw [if_neg hne, hs]
    exact ⟨rfl, hds⟩
  · cases h
    exact ⟨rfl, fun c hc => by cases hc⟩

theorem scanExpSign_taken {neg : Bool} (h : scanExpSign s = .ok (neg, rest)) :
    ∃ plus : Bool, s = (if neg then ['-'] else if plus then ['+'] else []) ++ rest := by
  unfold scanExpSign at h
  split at h
  · cases h
    exact ⟨true, rfl⟩
  · cases h
    exact ⟨false, rfl⟩
  · cases h
    exact ⟨false, rfl⟩

theorem scanExp_taken {exp : Option (Bool × List Char)} (h : scanExp size s = .ok (exp, rest)) :
    exp = none ∧ s = rest ∨ ∃ neg ds, ∃ upper plus : Bool, exp = some (neg, ds) ∧ (ds ≠ [] ∧ ∀ c ∈ ds, c.isDigit = true) ∧
      s = (if upper then 'E' else 'e') :: ((if neg then ['-'] else if plus then ['+'] else []) ++ ds) ++ rest := by
  cases s with
  | nil =>
    cases h
    exact .inl ⟨rfl, rfl⟩
  | cons c s =>
    rw [scanExp] at h
    split at h
    · next hmark =>
      obtain ⟨neg, s₁, hsign, h⟩ := bind_taken h
      obtain ⟨ds, s₂, hdigits, h⟩ := bind_taken h
      cases h
      obtain ⟨plus, rfl⟩ := scanExpSign_taken hsign
      obtain ⟨rfl, hds⟩ := scanDigits_taken hdigits
      refine .inr ⟨neg, ds, decide (c = 'E'), plus, rfl, hds, ?_⟩
      rw [List.cons_append, List.append_assoc]
      rcases hmark with rfl | rfl
      · rfl
      · rfl
    · cases h
      exact .inl ⟨rfl, rfl⟩

/-- A literal took one of its spellings. -/
theorem scanLiteral_taken {l : Literal} (h : scanLiteral size s = .ok (l, rest)) :
    ∃ t : NumberText, t.literal = l ∧ s = t.text ++ rest := by
  obtain ⟨neg, s₁, hsign, h⟩ := bind_taken h
  obtain ⟨int, s₂, hint, h⟩ := bind_taken h
  obtain ⟨frac, s₃, hfrac, h⟩ := bind_taken h
  obtain ⟨exp, s₄, hexp, h⟩ := bind_taken h
  cases h
  obtain rfl := scanSign_taken hsign
  obtain ⟨rfl, hne, hints, hlead⟩ := scanInt_taken hint
  obtain ⟨rfl, hfracs⟩ := scanFrac_taken hfrac
  rcases scanExp_taken hexp with ⟨rfl, rfl⟩ | ⟨eneg, ds, upper, plus, rfl, hds, rfl⟩
  · refine ⟨⟨⟨neg, int, frac, none⟩, ⟨hne, hints, hlead, hfracs, fun _ _ he => by cases he⟩, false, false⟩, rfl, ?_⟩
    simp [NumberText.text, NumberText.expText]
  · refine ⟨⟨⟨neg, int, frac, some (eneg, ds)⟩, ⟨hne, hints, hlead, hfracs, fun _ _ he => ?_⟩, upper, plus⟩, rfl, ?_⟩
    · cases he
      exact hds
    · simp [NumberText.text, NumberText.expText]

theorem parseNumber_taken {v : Value} (h : parseNumber size s = .ok (v, rest)) :
    ∃ (t : NumberText) (x : ℚ), t.value = some x ∧ v = .num x ∧ s = t.text ++ rest := by
  obtain ⟨l, s₁, hscan, hrun⟩ := bind_taken h
  obtain ⟨t, rfl, rfl⟩ := scanLiteral_taken hscan
  cases hx : stod t.literal.value with
  | none =>
    rw [hx] at hrun
    cases hrun
  | some x =>
    rw [hx] at hrun
    cases hrun
    exact ⟨t, x, hx, rfl, rfl⟩

end Numbers

/-! ## Strings -/

section Strings

variable {size : Nat} {s rest : List Char}

theorem hexAt_taken {c : Char} {v : Nat} (h : hexAt size c s = .ok v) : hexValue c = some v := by
  unfold hexAt at h
  cases hv : hexValue c with
  | none =>
    rw [hv] at h
    cases h
  | some w =>
    rw [hv] at h
    cases h
    rfl

theorem andThen_taken {cs cs' : List Char} {r : Result (List Char × List Char)} (h : andThen cs r = .ok (cs', rest)) :
    ∃ cs'', r = .ok (cs'', rest) ∧ cs' = cs ++ cs'' := by
  cases r with
  | error e => cases h
  | ok p =>
    cases h
    exact ⟨p.1, rfl, rfl⟩

/-- The body of a string is a row of items, up to the quote. By the text. -/
theorem stringBody_taken {cs : List Char} (h : stringBody size s = .ok (cs, rest)) :
    ∃ items : List Item, s = items.flatMap Item.text ++ '"' :: rest ∧ cs = items.flatMap Item.bytes := by
  -- one item more in front
  have hcons : ∀ (i : Item) {t : List Char} {cs : List Char},
      (∀ {cs : List Char}, stringBody size t = .ok (cs, rest) →
        ∃ items : List Item, t = items.flatMap Item.text ++ '"' :: rest ∧ cs = items.flatMap Item.bytes) →
      andThen i.bytes (stringBody size t) = .ok (cs, rest) →
      ∃ items : List Item, i.text ++ t = items.flatMap Item.text ++ '"' :: rest ∧ cs = items.flatMap Item.bytes := by
    intro i t cs ih h
    obtain ⟨cs', hcs, rfl⟩ := andThen_taken h
    obtain ⟨items, rfl, rfl⟩ := ih hcs
    exact ⟨i :: items, by rw [List.flatMap_cons, List.append_assoc], (List.flatMap_cons ..).symm⟩
  induction s using stringBody.induct generalizing cs with
  | case1 => exact absurd h (fail_ne_ok _ _ _)
  | case2 s =>
    cases h
    exact ⟨[], rfl, rfl⟩
  | case3 => exact absurd h (fail_ne_ok _ _ _)
  | case4 a b c d s ih =>
    rw [stringBody] at h
    obtain ⟨w, hw, h⟩ := bind_ok h
    obtain ⟨x, hx, h⟩ := bind_ok h
    obtain ⟨y, hy, h⟩ := bind_ok h
    obtain ⟨z, hz, h⟩ := bind_ok h
    have hcode : hexCode a b c d = some (((w * 16 + x) * 16 + y) * 16 + z) := by
      rw [hexCode, hexAt_taken hw, hexAt_taken hx, hexAt_taken hy, hexAt_taken hz]
      rfl
    exact hcons (.unit ⟨a, b, c, d, _, hcode⟩) ih h
  | case5 s hno =>
    rw [stringBody.eq_5 _ _ hno] at h
    exact absurd h (fail_ne_ok _ _ _)
  | case6 e s hno hu c hc ih =>
    rw [stringBody_short size hc] at h
    exact hcons (.short e c hc) ih h
  | case7 e s hno hu hc =>
    rw [stringBody.eq_6 _ _ _ hno hu, hc] at h
    exact absurd h (fail_ne_ok _ _ _)
  | case8 c s hquote hlast _ _ hback ih =>
    have hraw : c ≠ '"' ∧ c ≠ '\\' := by
      refine ⟨hquote, fun hc => ?_⟩
      cases s with
      | nil => exact hlast hc rfl
      | cons e s => exact hback e s hc rfl
    rw [stringBody_raw size hraw] at h
    exact hcons (.raw c hraw) ih h

theorem parseString_taken {v : Value} (h : parseString size s = .ok (v, rest)) :
    ∃ (ws : Spaces) (items : List Item), v = .str (String.ofList (items.flatMap Item.bytes)) ∧
      s = ws.val ++ (quoteItems items ++ rest) := by
  obtain ⟨u, s₁, hquote, h⟩ := bind_taken h
  obtain ⟨cs, s₂, hbody, h⟩ := bind_taken h
  cases h
  obtain ⟨ws, rfl⟩ := expect_taken hquote
  obtain ⟨items, rfl, rfl⟩ := stringBody_taken hbody
  exact ⟨ws, items, rfl, by simp [quoteItems]⟩

end Strings

/-! ## Values -/

section Values

variable {size n : Nat} {s rest : List Char} {v : Value}

theorem word_taken {w : List Char} {v' : Value} {orElse : Parser Value} (h : word w v' orElse s = .ok (v, rest)) :
    v = v' ∨ orElse s = .ok (v, rest) := by
  unfold word at h
  split at h
  · cases h
    exact .inl rfl
  · exact .inr h

theorem parseArray_taken {item : Parser Value} (h : parseArray size item n s = .ok (v, rest)) : ∃ vs, v = .arr vs := by
  obtain ⟨_, s₁, -, h⟩ := bind_taken h
  obtain ⟨_, s₂, -, h⟩ := bind_taken h
  obtain ⟨closed, s₃, -, h⟩ := bind_taken h
  cases closed with
  | true =>
    cases h
    exact ⟨[], rfl⟩
  | false =>
    obtain ⟨vs, s₄, -, h⟩ := bind_taken h
    cases h
    exact ⟨vs, rfl⟩

theorem parseObject_taken {item : Parser Value} (h : parseObject size item n s = .ok (v, rest)) :
    ∃ o, v = .obj o ∧ ∃ (before : Spaces) (s' : List Char), s = before.val ++ '\x7b' :: s' ∧
      ((∃ gap : Spaces, s' = gap.val ++ '\x7d' :: rest ∧ o = []) ∨
        ∃ gap : Spaces, ∃ s'', s' = gap.val ++ s'' ∧ parseFields size item n [] s'' = .ok (o, rest)) := by
  obtain ⟨_, s₁, hbrace, h₁⟩ := bind_taken h
  obtain ⟨_, s₂, hskip, h₂⟩ := bind_taken h₁
  obtain ⟨closed, s₃, hclosed, h₃⟩ := bind_taken h₂
  obtain ⟨before, rfl⟩ := expect_taken hbrace
  obtain ⟨ws, rfl⟩ := skipWs_taken hskip
  obtain ⟨ws', rfl⟩ := consume_taken hclosed
  have hspaces : ∀ c ∈ ws.val ++ ws'.val, isSpace c = true := space_append ws.property ws'.property
  cases closed with
  | true =>
    cases h₃
    exact ⟨[], rfl, before, _, rfl, .inl ⟨⟨_, hspaces⟩, (List.append_assoc ..).symm, rfl⟩⟩
  | false =>
    obtain ⟨o, s₄, hfields, h₄⟩ := bind_taken h₃
    cases h₄
    exact ⟨o, rfl, before, _, rfl, .inr ⟨⟨_, hspaces⟩, _, (List.append_assoc ..).symm, hfields⟩⟩

/-- What a value that is accepted can be, and for strings, numbers and objects what it took. -/
inductive Taken (size n : Nat) (s rest : List Char) : Value → Prop where
  | null : Taken size n s rest .null
  | bool (b : Bool) : Taken size n s rest (.bool b)
  | arr (vs : List Value) : Taken size n s rest (.arr vs)
  | str (ws : Spaces) (items : List Item) (h : s = ws.val ++ (quoteItems items ++ rest)) :
    Taken size n s rest (.str (String.ofList (items.flatMap Item.bytes)))
  | num (ws : Spaces) (t : NumberText) {x : ℚ} (hx : t.value = some x) (h : s = ws.val ++ (t.text ++ rest)) :
    Taken size n s rest (.num x)
  | obj (ws : Spaces) {s' : List Char} {o : Object} (hs : s = ws.val ++ s')
    (h : parseObject size (parseValue size n) n s' = .ok (.obj o, rest)) : Taken size n s rest (.obj o)

theorem parseValue_taken (h : parseValue size (n + 1) s = .ok (v, rest)) : Taken size n s rest v := by
  obtain ⟨_, s₁, hskip, hrun⟩ := bind_taken h
  obtain ⟨s₂, s₃, hget, hrun⟩ := bind_taken hrun
  cases hget
  obtain ⟨ws, rfl⟩ := skipWs_taken hskip
  clear h hskip
  cases s₁ with
  | nil => exact absurd hrun (fail_ne_ok _ _ _)
  | cons c cs =>
    dsimp only at hrun
    split_ifs at hrun with hn htf hquote hbracket hbrace hnum
    · rcases word_taken hrun with rfl | hrun
      · exact .null
      · exact absurd hrun (fail_ne_ok _ _ _)
    · rcases word_taken hrun with rfl | hrun
      · exact .bool true
      · rcases word_taken hrun with rfl | hrun
        · exact .bool false
        · exact absurd hrun (fail_ne_ok _ _ _)
    · obtain ⟨ws', items, rfl, hs⟩ := parseString_taken hrun
      refine .str ⟨ws.val ++ ws'.val, space_append ws.property ws'.property⟩ items ?_
      rw [hs, List.append_assoc]
    · obtain ⟨vs, rfl⟩ := parseArray_taken hrun
      exact .arr vs
    · obtain ⟨o, rfl, -⟩ := parseObject_taken hrun
      exact .obj ws rfl hrun
    · obtain ⟨t, x, hx, rfl, hs⟩ := parseNumber_taken hrun
      exact .num ws t hx (by rw [hs])
    · exact absurd hrun (fail_ne_ok _ _ _)

end Values

/-! ## Fields -/

section Fields

variable {size : Nat} {item : Parser Value} {s rest : List Char}

theorem fieldKey_taken {v : Value} {key : String} (h : fieldKey size v s = .ok (key, rest)) : v = .str key ∧ s = rest := by
  cases v with
  | str k =>
    cases h
    exact ⟨rfl, rfl⟩
  | null | bool _ | num _ | arr _ | obj _ => exact absurd h (fail_ne_ok _ _ _)

/-- What the loop gives is the map of the fields it read. By the fuel. -/
theorem parseFields_read : ∀ {m : Nat} {o o' : Object} {s : List Char}, parseFields size item m o s = .ok (o', rest) →
    ∃ kvs, FieldsRead item s kvs rest ∧ o' = kvs.foldl (fun o kv => o.set kv.1 kv.2) o := by
  intro m
  induction m with
  | zero =>
    intro o o' s h
    cases h
  | succ m ih =>
    intro o o' s h
    obtain ⟨keyV, s₁, hkey, h₁⟩ := bind_taken h
    obtain ⟨key, s₂, hfield, h₂⟩ := bind_taken h₁
    obtain ⟨_, s₃, hcolon, h₃⟩ := bind_taken h₂
    obtain ⟨v, s₄, hv, h₄⟩ := bind_taken h₃
    obtain ⟨_, s₅, hskip, h₅⟩ := bind_taken h₄
    obtain ⟨closed, s₆, hclosed, h₆⟩ := bind_taken h₅
    obtain ⟨rfl, rfl⟩ := fieldKey_taken hfield
    obtain ⟨afterKey, rfl⟩ := expect_taken hcolon
    obtain ⟨ws, rfl⟩ := skipWs_taken hskip
    obtain ⟨ws', rfl⟩ := consume_taken hclosed
    cases closed with
    | true =>
      cases h₆
      have hafter : ∀ c ∈ ws.val ++ ws'.val, isSpace c = true := space_append ws.property ws'.property
      refine ⟨[(key, v)], .last afterKey ⟨_, hafter⟩ hkey ?_, rfl⟩
      rw [List.append_assoc]
      exact hv
    | false =>
      obtain ⟨_, s₇, hcomma, h₇⟩ := bind_taken h₆
      obtain ⟨ws'', rfl⟩ := expect_taken hcomma
      obtain ⟨kvs, hread, rfl⟩ := ih h₇
      have hafter : ∀ c ∈ ws.val ++ (ws'.val ++ ws''.val), isSpace c = true :=
        space_append ws.property (space_append ws'.property ws''.property)
      refine ⟨(key, v) :: kvs, .more afterKey ⟨_, hafter⟩ hkey ?_ hread, rfl⟩
      rw [List.append_assoc, List.append_assoc]
      exact hv

/-- Up to a mark that is no space. -/
theorem mark_unique {ws ws' : Spaces} {c c' : Char} {s s' : List Char} (hc : isSpace c = false) (hc' : isSpace c' = false)
    (h : ws.val ++ c :: s = ws'.val ++ c' :: s') : c = c' ∧ s = s' := by
  have hdrop := congrArg (List.dropWhile isSpace) h
  rw [dropWhile_space ws.property (fun d hd => by cases hd; exact hc),
    dropWhile_space ws'.property (fun d hd => by cases hd; exact hc')] at hdrop
  exact List.cons.inj hdrop

theorem item_unique {s₁ s₂ : List Char} {v₁ v₂ : Value} {ws₁ ws₂ : Spaces} {c₁ c₂ : Char} (hc₁ : isSpace c₁ = false)
    (hc₂ : isSpace c₂ = false) (h₁ : item s = .ok (v₁, ws₁.val ++ c₁ :: s₁)) (h₂ : item s = .ok (v₂, ws₂.val ++ c₂ :: s₂)) :
    v₁ = v₂ ∧ c₁ = c₂ ∧ s₁ = s₂ := by
  rw [h₁] at h₂
  obtain ⟨hv, hs⟩ := Prod.mk.inj (Except.ok.inj h₂)
  exact ⟨hv, mark_unique hc₁ hc₂ hs⟩

/-- The fields read are the text's. By the fields. -/
theorem FieldsRead.unique {kvs : List (String × Value)} (h : FieldsRead item s kvs rest) :
    ∀ {kvs' : List (String × Value)} {rest' : List Char}, FieldsRead item s kvs' rest' → kvs = kvs' ∧ rest = rest' := by
  induction h with
  | last afterKey after hkey h =>
    intro kvs' rest' h'
    cases h' with
    | last _ _ hkey' hv' =>
      obtain ⟨hk, -, rfl⟩ := item_unique rfl rfl hkey hkey'
      obtain ⟨rfl, -, rfl⟩ := item_unique rfl rfl h hv'
      cases hk
      exact ⟨rfl, rfl⟩
    | more _ _ hkey' hv' _ =>
      obtain ⟨hk, -, rfl⟩ := item_unique rfl rfl hkey hkey'
      obtain ⟨-, hc, -⟩ := item_unique rfl rfl h hv'
      exact absurd hc (by decide)
  | more afterKey after hkey h hmore ih =>
    intro kvs' rest' h'
    cases h' with
    | last _ _ hkey' hv' =>
      obtain ⟨hk, -, rfl⟩ := item_unique rfl rfl hkey hkey'
      obtain ⟨-, hc, -⟩ := item_unique rfl rfl h hv'
      exact absurd hc (by decide)
    | more _ _ hkey' hv' hmore' =>
      obtain ⟨hk, -, rfl⟩ := item_unique rfl rfl hkey hkey'
      obtain ⟨rfl, -, rfl⟩ := item_unique rfl rfl h hv'
      obtain ⟨rfl, rfl⟩ := ih hmore'
      cases hk
      exact ⟨rfl, rfl⟩

/-- Spaces before the first key are skipped. -/
theorem FieldsRead.spaced {n : Nat} {kvs : List (String × Value)} (ws : Spaces) (h : FieldsRead (parseValue size (n + 1)) s kvs rest) :
    FieldsRead (parseValue size (n + 1)) (ws.val ++ s) kvs rest := by
  have hskip : parseValue size (n + 1) (ws.val ++ s) = parseValue size (n + 1) s := by
    have hrun : skipWs (ws.val ++ s) = .ok ((), s.dropWhile isSpace) := by
      rw [skipWs, List.dropWhile_append_of_pos ws.property]
    refine (bind_run hrun).trans (Eq.symm ?_)
    exact bind_run (show skipWs s = .ok ((), s.dropWhile isSpace) from rfl)
  cases h with
  | last afterKey after hkey h => exact .last afterKey after (hskip.trans hkey) h
  | more afterKey after hkey h hmore => exact .more afterKey after (hskip.trans hkey) h hmore

/-- A key, a colon and a number are the text of a field. -/
theorem field_text {n : Nat} {s' : List Char} {key : String} {x : ℚ} {afterKey : Spaces} (after : Spaces)
    (hkey : parseValue size (n + 1) s = .ok (.str key, afterKey.val ++ ':' :: s'))
    (h : parseValue size (n + 1) s' = .ok (.num x, after.val ++ rest)) :
    ∃ f : FieldText, s = f.text ++ rest ∧ f.entry = (key, .num x) ∧ f.number.value.isSome = true := by
  cases parseValue_taken hkey with
  | str before items hs =>
    cases parseValue_taken h with
    | num beforeValue t hx hs' =>
      refine ⟨⟨before, items, afterKey, beforeValue, t, after⟩, ?_, ?_, ?_⟩
      · rw [hs, hs']
        simp [FieldText.text, FieldText.body]
      · simp [FieldText.entry, FieldText.name, hx]
      · rw [hx]
        rfl

/-- Fields whose values are numbers are those of a row of texts. By the fields. -/
theorem FieldsRead.text {n : Nat} {kvs : List (String × Value)} (h : FieldsRead (parseValue size (n + 1)) s kvs rest) :
    (∀ kv ∈ kvs, ∃ x, kv.2 = .num x) → ∃ f fs, s = f.text ++ (fieldsText fs ++ rest) ∧
      (f :: fs).map FieldText.entry = kvs ∧ ∀ g ∈ f :: fs, g.number.value.isSome = true := by
  induction h with
  | last afterKey after hkey h =>
    intro hnums
    obtain ⟨x, hv⟩ := hnums _ List.mem_cons_self
    cases hv
    obtain ⟨f, hs, hentry, hvalue⟩ := field_text after hkey h
    exact ⟨f, [], hs, by rw [List.map_singleton, hentry], List.forall_mem_singleton.mpr hvalue⟩
  | more afterKey after hkey h hmore ih =>
    intro hnums
    obtain ⟨x, hv⟩ := hnums _ List.mem_cons_self
    cases hv
    obtain ⟨g, fs, rfl, rfl, hvalues⟩ := ih fun kv hkv => hnums kv (List.mem_cons_of_mem _ hkv)
    obtain ⟨f, hs, hentry, hvalue⟩ := field_text after hkey h
    refine ⟨f, g :: fs, ?_, by rw [List.map_cons, hentry], List.forall_mem_cons.mpr ⟨hvalue, hvalues⟩⟩
    rw [hs, fieldsText, List.cons_append, List.append_assoc]

end Fields

/-! ## Objects -/

/-- The text is an object, of which these fields are read. -/
def ObjectRead (text : String) (kvs : List (String × Value)) : Prop :=
  ∃ before gap after : Spaces, ∃ s, text.toList = before.val ++ '\x7b' :: (gap.val ++ s) ∧
    (s = '\x7d' :: after.val ∧ kvs = [] ∨ FieldsRead (parseValue text.length text.length) s kvs after.val)

/-- What is accepted as an object is read field by field. -/
theorem parse_read {text : String} {o : Object} (h : parse text = .ok (.obj o)) :
    ∃ kvs, ObjectRead text kvs ∧ o = kvs.foldl (fun (o : Object) kv => o.set kv.1 kv.2) [] := by
  obtain ⟨⟨v, rest⟩, hv, hrest⟩ := bind_ok h
  dsimp only at hrest
  split at hrest
  · next hspaces =>
    cases hrest
    have hafter : ∀ c ∈ rest, isSpace c = true := List.dropWhile_eq_nil_iff.mp hspaces
    cases parseValue_taken hv with
    | obj ws hs hobj =>
      obtain ⟨o', ho, before, s', hs', hread⟩ := parseObject_taken hobj
      cases ho
      have hbefore : ∀ c ∈ ws.val ++ before.val, isSpace c = true := space_append ws.property before.property
      rcases hread with ⟨gap, rfl, rfl⟩ | ⟨gap, s'', rfl, hfields⟩
      · refine ⟨[], ⟨⟨_, hbefore⟩, gap, ⟨rest, hafter⟩, _, ?_, .inl ⟨rfl, rfl⟩⟩, rfl⟩
        rw [hs, hs', List.append_assoc]
      · obtain ⟨kvs, hread, rfl⟩ := parseFields_read hfields
        refine ⟨kvs, ⟨⟨_, hbefore⟩, gap, ⟨rest, hafter⟩, _, ?_, .inr hread⟩, rfl⟩
        rw [hs, hs', List.append_assoc]
  · exact absurd hrest (fail_ne_ok _ _ _)

/-- At a brace no field is read. -/
theorem no_field {size n : Nat} {ws : Spaces} {s rest : List Char} {kvs : List (String × Value)}
    (h : FieldsRead (parseValue size (n + 1)) (ws.val ++ '\x7d' :: s) kvs rest) : False := by
  have hstop : parseValue size (n + 1) (ws.val ++ '\x7d' :: s) =
      failAt size ('\x7d' :: s) ("unexpected character '" ++ String.singleton '\x7d' ++ "'") :=
    parseValue_dispatch ws.property rfl
  cases h with
  | last _ _ hkey _ => exact fail_ne_ok _ _ _ (hstop.symm.trans hkey)
  | more _ _ hkey _ _ => exact fail_ne_ok _ _ _ (hstop.symm.trans hkey)

theorem ObjectRead.unique {text : String} {kvs kvs' : List (String × Value)} (h : ObjectRead text kvs) (h' : ObjectRead text kvs') :
    kvs = kvs' := by
  obtain ⟨before, gap, after, s, htext, hread⟩ := h
  obtain ⟨before', gap', after', s', htext', hread'⟩ := h'
  have hlen : text.length ≠ 0 := by
    rw [← String.length_toList, htext]
    simp
  obtain ⟨n, hn⟩ := Nat.exists_eq_succ_of_ne_zero hlen
  obtain ⟨-, hinside⟩ := mark_unique rfl rfl (htext.symm.trans htext')
  rw [hn] at hread hread'
  rcases hread with ⟨rfl, rfl⟩ | hread
  · rcases hread' with ⟨-, rfl⟩ | hread'
    · rfl
    · have hspaced := hread'.spaced gap'
      rw [← hinside] at hspaced
      exact absurd hspaced no_field
  · have hspaced := hread.spaced gap
    rw [hinside] at hspaced
    rcases hread' with ⟨rfl, rfl⟩ | hread'
    · exact absurd hspaced no_field
    · exact (hspaced.unique (hread'.spaced gap')).1

/-- An object whose values are numbers has the text of one. -/
theorem ObjectRead.text {text : String} {kvs : List (String × Value)} (h : ObjectRead text kvs)
    (hnums : ∀ kv ∈ kvs, ∃ x, kv.2 = .num x) :
    ∃ d : ObjectText, text = String.ofList d.text ∧ d.fields.map FieldText.entry = kvs ∧
      ∀ f ∈ d.fields, f.number.value.isSome = true := by
  obtain ⟨before, gap, after, s, htext, hread⟩ := h
  have hof : text = String.ofList (before.val ++ '\x7b' :: (gap.val ++ s)) := by rw [← htext, String.ofList_toList]
  rcases hread with ⟨rfl, rfl⟩ | hread
  · refine ⟨⟨before, [], gap, after⟩, ?_, rfl, fun f hf => by cases hf⟩
    rw [hof]
    simp [ObjectText.text, ObjectText.inside]
  · have hlen : text.length ≠ 0 := by
      rw [← String.length_toList, htext]
      simp
    obtain ⟨n, hn⟩ := Nat.exists_eq_succ_of_ne_zero hlen
    rw [hn] at hread
    obtain ⟨f, fs, rfl, rfl, hvalues⟩ := hread.text hnums
    refine ⟨⟨before, { f with before := ⟨_, space_append gap.property f.before.property⟩ } ::
      fs, ⟨[], no_space⟩, after⟩, ?_, rfl, ?_⟩
    · rw [hof]
      simp [ObjectText.text, ObjectText.inside, FieldText.text, FieldText.body]
    · exact List.forall_mem_cons.mpr ⟨hvalues f List.mem_cons_self, fun g hg => hvalues g (List.mem_cons_of_mem _ hg)⟩

/-- And the text of one is read as its fields. -/
theorem ObjectText.read (d : ObjectText) (h : ∀ f ∈ d.fields, f.number.value.isSome = true) :
    ObjectRead (String.ofList d.text) (d.fields.map FieldText.entry) := by
  unfold ObjectRead
  rw [String.toList_ofList]
  cases hfields : d.fields with
  | nil =>
    refine ⟨d.before, d.gap, d.after, _, ?_, .inl ⟨rfl, rfl⟩⟩
    rw [ObjectText.text, ObjectText.inside, hfields]
    simp
  | cons f fs =>
    rw [hfields] at h
    refine ⟨d.before, f.before, d.after, f.body ++ (fieldsText fs ++ d.after.val), ?_, .inr ?_⟩
    · rw [ObjectText.text, ObjectText.inside, hfields]
      simp [FieldText.text]
    · have hlen : (String.ofList d.text).length ≠ 0 := by
        rw [String.length_ofList]
        simp [ObjectText.text]
      obtain ⟨n, hn⟩ := Nat.exists_eq_succ_of_ne_zero hlen
      rw [hn]
      exact fieldsRead_text (n + 1) n d.after.val no_space h

end Uaii.Ir.Json
