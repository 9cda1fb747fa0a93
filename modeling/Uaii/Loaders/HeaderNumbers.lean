/-
  Uaii.Loaders.HeaderNumbers — which headers `safetensors_read_header` answers with success
  or an `Error` (`libs/uaii-loaders/src/safetensors.cpp`: `MiniJson`,
  `safetensors_read_header`).

  `scan` reads what `MiniJson` reads with the conversion left out, and records the numbers
  it comes to.

  Proved: the parser raises exactly at a number that `stod` does not convert
  (`parse_decided`), and its fuel does not run out; with the casts of the dimensions and
  offsets, reading the header returns, in whatever order the map is walked, exactly when
  every number is read and every cast is in range (`returns_iff`).

  As built, a minus sign alone is scanned as a number (`minus_throws`).
-/

import Mathlib.Data.List.Rotate
import Uaii.Lib.Recorded
import Uaii.Loaders.Safetensors

namespace Uaii.Loaders

open Codec (Recorder Decides textOf leValue)
open Codec.Recorder (quiet record)
open Uaii.Ir.Json (Parser isSpace)
open Uaii.Ir (castI64 castUnsigned)

/-- Success or an `Error`. -/
def Returns {α : Type} (r : Result α) : Prop := (∃ a, r = .ok a) ∨ Failed r

namespace MiniJson

/-! ## The numbers -/

/-- A number as it is spelled: its sign, and its digits and points. -/
abbrev Spelled := Bool × List Char

/-- `stod` gives a double for it. -/
def Converts (t : Spelled) : Prop := ∃ x, stodText t.1 t.2 = .ok x

def converted (t : Spelled) : ℚ :=
  match stodText t.1 t.2 with
  | .ok x => x
  | .error _ => 0

abbrev Scanner (α : Type) := Recorder Char Spelled α

def scanNumber : Scanner Value := do
  let neg ← quiet (next '-')
  let s ← quiet (get : Parser (List Char))
  quiet (set (s.dropWhile numberChar) : Parser PUnit)
  record (neg, s.takeWhile numberChar)
  pure (.number (converted (neg, s.takeWhile numberChar)))

def scanItems (item : Scanner Value) : Nat → Scanner (List Value)
  | 0 => quiet (failWith "" : Parser (List Value))
  | fuel + 1 => do
    let v ← item
    quiet skip
    let closed ← quiet (next ']')
    if closed then pure [v]
    else do
      let comma ← quiet (next ',')
      if comma then do
        let vs ← scanItems item fuel
        pure (v :: vs)
      else quiet (failWith "array comma" : Parser (List Value))

def scanArray (item : Scanner Value) (fuel : Nat) : Scanner Value := do
  let _ ← quiet (next '[')
  quiet skip
  let closed ← quiet (next ']')
  if closed then pure (.array [])
  else do
    let vs ← scanItems item fuel
    pure (.array vs)

def scanFields (item : Scanner Value) : Nat → List (String × Value) → Scanner (List (String × Value))
  | 0, _ => quiet (failWith "" : Parser (List (String × Value)))
  | fuel + 1, fields => do
    let keyV ← item
    let key ← quiet (fieldKey keyV)
    quiet skip
    let colon ← quiet (next ':')
    if colon then do
      let v ← item
      quiet skip
      let closed ← quiet (next '\x7d')
      if closed then pure (emplace fields key v)
      else do
        let comma ← quiet (next ',')
        if comma then scanFields item fuel (emplace fields key v)
        else quiet (failWith "object comma" : Parser (List (String × Value)))
    else quiet (failWith "colon" : Parser (List (String × Value)))

def scanObject (item : Scanner Value) (fuel : Nat) : Scanner Value := do
  let _ ← quiet (next '\x7b')
  quiet skip
  let closed ← quiet (next '\x7d')
  if closed then pure (.object [])
  else do
    let fields ← scanFields item fuel []
    pure (.object fields)

def scanValue : Nat → Scanner Value
  | 0 => quiet (failWith "" : Parser Value)
  | fuel + 1 => do
    quiet skip
    let s ← quiet (get : Parser (List Char))
    match s with
    | [] => quiet (failWith "eof" : Parser Value)
    | c :: _ =>
      if c = '\x7b' then scanObject (scanValue fuel) fuel
      else if c = '[' then scanArray (scanValue fuel) fuel
      else if c = '"' then quiet parseString
      else if c = '-' ∨ c.isDigit then scanNumber
      else quiet parseNull

/-- The numbers the parser comes to, and what it reads, none when it gives up. -/
def scan (text : List Char) : List Spelled × Option (Value × List Char) := scanValue (text.length + 1) text

/-! ## What is left -/

def Shrinks {α : Type} (q : Scanner α) : Prop := ∀ s a rest, (q s).2 = some (a, rest) → rest.length ≤ s.length

section Shrinks

variable {α β : Type}

theorem Shrinks.pure (a : α) : Shrinks (Pure.pure a : Scanner α) := by
  intro s b rest h
  cases h
  exact Nat.le_refl _

theorem Shrinks.bind {q : Scanner α} {g : α → Scanner β} (h : Shrinks q) (hg : ∀ a, Shrinks (g a)) : Shrinks (q >>= g) := by
  intro s b rest hgiven
  obtain ⟨a, s', hq, hb⟩ := Recorder.bind_given hgiven
  exact (hg a s' b rest hb).trans (h s a s' hq)

theorem Shrinks.quiet {r : Parser α} (h : ∀ s a rest, r.run s = .ok (a, rest) → rest.length ≤ s.length) :
    Shrinks (quiet r : Scanner α) := by
  intro s a rest hgiven
  exact h s a rest (Recorder.quiet_given hgiven)

theorem failWith_shrinks (m : String) : Shrinks (quiet (failWith m : Parser α) : Scanner α) :=
  .quiet fun _ _ _ h => nomatch h

theorem skip_length {s rest : List Char} {u : Unit} (h : skip.run s = .ok (u, rest)) : rest.length ≤ s.length := by
  cases h
  exact List.length_dropWhile_le _ _

theorem skip_shrinks : Shrinks (quiet skip : Scanner Unit) := .quiet fun _ _ _ h => skip_length h

theorem next_length {c : Char} {s rest : List Char} {b : Bool} (h : (next c).run s = .ok (b, rest)) :
    rest.length + b.toNat = s.length := by
  change next c s = _ at h
  unfold next at h
  split at h
  · cases h
    rfl
  · split at h
    · cases h
      rfl
    · cases h
      rfl

theorem next_shrinks (c : Char) : Shrinks (quiet (next c) : Scanner Bool) := .quiet fun s a rest h => by
  have hlen := next_length h
  omega

theorem prepend_taken {r : Result (List Char × List Char)} {c : Char} {cs rest : List Char}
    (h : r.map (fun p => (c :: p.1, p.2)) = .ok (cs, rest)) : ∃ cs', r = .ok (cs', rest) := by
  cases r with
  | error e => cases h
  | ok p =>
    cases h
    exact ⟨p.1, rfl⟩

theorem stringBody_length {s cs rest : List Char} (h : stringBody s = .ok (cs, rest)) : rest.length ≤ s.length := by
  fun_induction stringBody s generalizing cs rest with
  | case1 => cases h
  | case2 s =>
    cases h
    exact Nat.le_succ _
  | case3 e s ih =>
    obtain ⟨cs', hs⟩ := prepend_taken h
    have hle := ih hs
    simp only [List.length_cons]
    omega
  | case4 c s _ _ ih =>
    obtain ⟨cs', hs⟩ := prepend_taken h
    have hle := ih hs
    simp only [List.length_cons]
    omega

theorem fieldKey_rest {v : Value} {key : String} {s rest : List Char} (h : (fieldKey v).run s = .ok (key, rest)) : rest = s := by
  cases v with
  | string k =>
    cases h
    rfl
  | _ => cases h

variable {item : Scanner Value}

theorem scanItems_shrinks (h : Shrinks item) : ∀ n, Shrinks (scanItems item n)
  | 0 => failWith_shrinks _
  | n + 1 => h.bind fun v => skip_shrinks.bind fun _ => (next_shrinks _).bind fun closed => by
    cases closed with
    | true => exact .pure _
    | false =>
      refine (next_shrinks _).bind fun comma => ?_
      cases comma with
      | true => exact (scanItems_shrinks h n).bind fun vs => .pure _
      | false => exact failWith_shrinks _

theorem scanFields_shrinks (h : Shrinks item) : ∀ n fields, Shrinks (scanFields item n fields)
  | 0, _ => failWith_shrinks _
  | n + 1, fields => by
    refine h.bind fun keyV => Shrinks.bind (.quiet fun s key rest hkey => ?_) fun key => skip_shrinks.bind fun _ =>
      (next_shrinks _).bind fun colon => ?_
    · rw [fieldKey_rest hkey]
    · cases colon with
      | false => exact failWith_shrinks _
      | true =>
        refine h.bind fun v => skip_shrinks.bind fun _ => (next_shrinks _).bind fun closed => ?_
        cases closed with
        | true => exact .pure _
        | false =>
          refine (next_shrinks _).bind fun comma => ?_
          cases comma with
          | true => exact scanFields_shrinks h n _
          | false => exact failWith_shrinks _

/-- What is given after a character that is there. -/
theorem next_given {c : Char} {g : Bool → Scanner α} {a : α} {r rest : List Char}
    (h : ((quiet (next c) >>= g) (c :: r)).2 = some (a, rest)) : (g true r).2 = some (a, rest) := by
  obtain ⟨b, s', hnext, h⟩ := Recorder.bind_given h
  have hrun := Recorder.quiet_given hnext
  change next c (c :: r) = _ at hrun
  rw [next_hit] at hrun
  cases hrun
  exact h

theorem scanArray_length (h : Shrinks item) {n : Nat} {v : Value} {r rest : List Char}
    (hgiven : (scanArray item n ('[' :: r)).2 = some (v, rest)) : rest.length ≤ r.length := by
  refine (skip_shrinks.bind fun _ => (next_shrinks _).bind fun closed => ?_) r v rest (next_given hgiven)
  cases closed with
  | true => exact .pure _
  | false => exact (scanItems_shrinks h n).bind fun vs => .pure _

theorem scanObject_length (h : Shrinks item) {n : Nat} {v : Value} {r rest : List Char}
    (hgiven : (scanObject item n ('\x7b' :: r)).2 = some (v, rest)) : rest.length ≤ r.length := by
  refine (skip_shrinks.bind fun _ => (next_shrinks _).bind fun closed => ?_) r v rest (next_given hgiven)
  cases closed with
  | true => exact .pure _
  | false => exact (scanFields_shrinks h n []).bind fun fields => .pure _

theorem scanNumber_length {c : Char} (hc : c = '-' ∨ c.isDigit = true) {v : Value} {r rest : List Char}
    (hgiven : (scanNumber (c :: r)).2 = some (v, rest)) : rest.length ≤ r.length := by
  obtain ⟨neg, s', hnext, hgiven⟩ := Recorder.bind_given hgiven
  have hrun : next '-' (c :: r) = .ok (neg, s') := Recorder.quiet_given hnext
  have hrest : rest = s'.dropWhile numberChar := by
    cases hgiven
    rfl
  have hle := List.length_dropWhile_le numberChar r
  rw [hrest]
  by_cases hminus : c = '-'
  · subst hminus
    rw [next_hit] at hrun
    cases hrun
    exact hle
  · rw [next_miss hminus] at hrun
    cases hrun
    have hnum : numberChar c = true := by simp [numberChar, hc.resolve_left hminus]
    rwa [List.dropWhile_cons_of_pos hnum]

theorem parseString_length {v : Value} {r rest : List Char} (h : parseString.run ('"' :: r) = .ok (v, rest)) :
    rest.length ≤ r.length := by
  obtain ⟨b, s', hnext, h⟩ := Codec.bind_taken h
  change next '"' ('"' :: r) = _ at hnext
  rw [next_hit] at hnext
  cases hnext
  obtain ⟨cs, s', hbody, h⟩ := Codec.bind_taken h
  cases h
  exact stringBody_length hbody

theorem parseNull_length {v : Value} {c : Char} {r rest : List Char} (h : parseNull.run (c :: r) = .ok (v, rest)) :
    rest.length ≤ r.length := by
  change parseNull (c :: r) = _ at h
  unfold parseNull at h
  split at h
  · cases h
    simp
  · cases h

/-- A value takes a character. -/
theorem scanValue_length : ∀ (n : Nat) {s rest : List Char} {v : Value}, (scanValue n s).2 = some (v, rest) →
    rest.length < s.length
  | 0, _, _, _, h => nomatch h
  | n + 1, s, rest, v, h => by
    have hitem : Shrinks (scanValue n) := fun s v rest h => (scanValue_length n h).le
    obtain ⟨u, s₁, hskip, h⟩ := Recorder.bind_given h
    have hlen := skip_length (Recorder.quiet_given hskip)
    obtain ⟨s₂, s₃, hget, h⟩ := Recorder.bind_given h
    cases Recorder.quiet_given hget
    cases s₁ with
    | nil => cases h
    | cons c r =>
      simp only [List.length_cons] at hlen
      suffices hle : rest.length ≤ r.length by omega
      by_cases hbrace : c = '\x7b'
      · subst hbrace
        exact scanObject_length hitem h
      by_cases hbracket : c = '['
      · subst hbracket
        exact scanArray_length hitem h
      by_cases hquote : c = '"'
      · subst hquote
        exact parseString_length (Recorder.quiet_given h)
      simp only [hbrace, hbracket, hquote, if_false] at h
      by_cases hnumber : c = '-' ∨ c.isDigit = true
      · rw [if_pos hnumber] at h
        exact scanNumber_length hnumber h
      · rw [if_neg hnumber] at h
        exact parseNull_length (Recorder.quiet_given h)

end Shrinks

/-! ## Where it raises -/

def Raised (e : Fault) : Prop := ∃ what, e = .thrown what

def Returned (e : Fault) : Prop := ∃ code message, e = .error code message

abbrev Decided {α : Type} (o : List Spelled × Option (α × List Char)) (x : Result (α × List Char)) : Prop :=
  Decides Converts Returned Raised o x

section Decided

variable {α : Type} {s : List Char}

theorem failWith_decided (m m' : String) :
    Decided (quiet (failWith m : Parser α) s) ((failWith m' : Parser α).run s) := .returns (List.forall_mem_nil _) ⟨_, _, rfl⟩

theorem skip_decided : Decided (quiet skip s) (skip.run s) := .quiet fun _ h => nomatch h

theorem next_decided (c : Char) : Decided (quiet (next c) s) ((next c).run s) := .quiet fun e h => by
  change next c s = _ at h
  unfold next at h
  split at h
  · cases h
  · split at h <;> cases h

theorem get_decided : Decided (quiet (get : Parser (List Char)) s) ((get : Parser (List Char)).run s) := .quiet fun _ h => nomatch h

theorem stringBody_returned {e : Fault} (h : stringBody s = .error e) : Returned e := by
  fun_induction stringBody s generalizing e with
  | case1 =>
    cases h
    exact ⟨_, _, rfl⟩
  | case2 s => cases h
  | case3 c s ih =>
    cases hs : stringBody s with
    | error e' => rw [hs] at h; cases h; exact ih hs
    | ok p => rw [hs] at h; cases h
  | case4 c s _ _ ih =>
    cases hs : stringBody s with
    | error e' => rw [hs] at h; cases h; exact ih hs
    | ok p => rw [hs] at h; cases h

theorem parseString_decided {r : List Char} : Decided (quiet parseString ('"' :: r)) (parseString.run ('"' :: r)) :=
  .quiet fun e h => by
    change parseString ('"' :: r) = _ at h
    cases hbody : stringBody r with
    | error e' =>
      have hrun : parseString ('"' :: r) = .error e' := by
        refine (Uaii.Ir.Json.bind_run (next_hit '"' r)).trans ?_
        show Except.bind (stringBody r) _ = _
        rw [hbody]
        rfl
      rw [hrun] at h
      cases h
      exact stringBody_returned hbody
    | ok p =>
      have hrun : parseString ('"' :: r) = .ok (.string (String.ofList p.1), p.2) :=
        (Uaii.Ir.Json.bind_run (next_hit '"' r)).trans (Uaii.Ir.Json.bind_run hbody)
      rw [hrun] at h
      cases h

theorem parseNull_decided : Decided (quiet parseNull s) (parseNull.run s) := .quiet fun e h => by
  change parseNull s = _ at h
  unfold parseNull at h
  split at h
  · cases h
  · cases h
    exact ⟨_, _, rfl⟩

theorem fieldKey_decided (v : Value) : Decided (quiet (fieldKey v) s) ((fieldKey v).run s) := .quiet fun e h => by
  cases v with
  | string k => cases h
  | _ =>
    cases h
    exact ⟨_, _, rfl⟩

theorem stodText_raises {t : Spelled} (h : ¬ Converts t) : ∃ e, stodText t.1 t.2 = .error e ∧ Raised e := by
  cases ht : stodText t.1 t.2 with
  | ok x => exact absurd ⟨x, ht⟩ h
  | error e =>
    refine ⟨e, rfl, ?_⟩
    unfold stodText at ht
    dsimp only at ht
    split at ht
    · cases ht
      exact ⟨_, rfl⟩
    · split at ht
      · cases ht
      · cases ht
        exact ⟨_, rfl⟩

/-- The one place where a conversion is made. -/
theorem number_token_decided (t : Spelled) (s : List Char) :
    Decided ([t], some (.number (converted t), s)) ((stodText t.1 t.2).map fun x => (Value.number x, s)) := by
  by_cases ht : Converts t
  · obtain ⟨x, hx⟩ := ht
    have hconv : converted t = x := by rw [converted, hx]
    rw [hx, hconv]
    exact .gives (by simpa using ⟨x, hx⟩)
  · obtain ⟨e, he, hraised⟩ := stodText_raises ht
    rw [he]
    exact .raises (List.mem_singleton_self t) ht hraised


theorem number_decided : Decided (scanNumber s) (parseNumber.run s) := by
  refine .bind (next_decided '-') fun neg s₁ _ => ?_
  have htoken := number_token_decided (neg, s₁.takeWhile numberChar) (s₁.dropWhile numberChar)
  generalize hx : stodText neg (s₁.takeWhile numberChar) = x at htoken
  have hrun : (do
      let s ← get
      set (s.dropWhile numberChar)
      let x ← (stodText neg (s.takeWhile numberChar) : Result ℚ)
      pure (.number x) : Parser Value).run s₁ = x.map fun x => (Value.number x, s₁.dropWhile numberChar) := by
    refine (Uaii.Ir.Json.bind_run (get_run s₁)).trans ?_
    show Except.bind (Except.bind (stodText neg (s₁.takeWhile numberChar)) _) _ = _
    rw [hx]
    cases x <;> rfl
  rw [hrun]
  exact htoken

variable {n : Nat} {item : Parser Value} {sitem : Scanner Value}

theorem items_decided (hitem : ∀ s, s.length < n → Decided (sitem s) (item.run s))
    (hlen : ∀ s v rest, (sitem s).2 = some (v, rest) → rest.length < s.length) :
    ∀ k ≤ n, ∀ s, s.length < k → Decided (scanItems sitem k s) ((parseItems item k).run s) := by
  intro k
  induction k with
  | zero => exact fun _ s hs => absurd hs (Nat.not_lt_zero _)
  | succ k ih =>
    intro hk s hs
    refine .bind (hitem s (by omega)) fun v s₁ hv => ?_
    have h₁ := hlen s v s₁ hv
    refine .bind skip_decided fun _ s₂ hskip => ?_
    have h₂ := skip_length (Recorder.quiet_given hskip)
    refine .bind (next_decided _) fun closed s₃ hclosed => ?_
    have h₃ := next_length (Recorder.quiet_given hclosed)
    cases closed with
    | true => exact .pure _ _
    | false =>
      refine .bind (next_decided _) fun comma s₄ hcomma => ?_
      have h₄ := next_length (Recorder.quiet_given hcomma)
      cases comma with
      | false => exact failWith_decided _ _
      | true => exact .bind (ih (by omega) s₄ (by omega)) fun vs s₅ _ => .pure _ _

theorem fields_decided (hitem : ∀ s, s.length < n → Decided (sitem s) (item.run s))
    (hlen : ∀ s v rest, (sitem s).2 = some (v, rest) → rest.length < s.length) :
    ∀ k ≤ n, ∀ fields s, s.length < k → Decided (scanFields sitem k fields s) ((parseFields item k fields).run s) := by
  intro k
  induction k with
  | zero => exact fun _ _ s hs => absurd hs (Nat.not_lt_zero _)
  | succ k ih =>
    intro hk fields s hs
    refine .bind (hitem s (by omega)) fun keyV s₁ hkeyV => ?_
    have h₁ := hlen s keyV s₁ hkeyV
    refine .bind (fieldKey_decided keyV) fun key s₂ hkey => ?_
    have h₂ := fieldKey_rest (Recorder.quiet_given hkey)
    refine .bind skip_decided fun _ s₃ hskip => ?_
    have h₃ := skip_length (Recorder.quiet_given hskip)
    refine .bind (next_decided _) fun colon s₄ hcolon => ?_
    have h₄ := next_length (Recorder.quiet_given hcolon)
    subst h₂
    cases colon with
    | false => exact failWith_decided _ _
    | true =>
      refine .bind (hitem s₄ (by omega)) fun v s₅ hv => ?_
      have h₅ := hlen s₄ v s₅ hv
      refine .bind skip_decided fun _ s₆ hskip => ?_
      have h₆ := skip_length (Recorder.quiet_given hskip)
      refine .bind (next_decided _) fun closed s₇ hclosed => ?_
      have h₇ := next_length (Recorder.quiet_given hclosed)
      cases closed with
      | true => exact .pure _ _
      | false =>
        refine .bind (next_decided _) fun comma s₈ hcomma => ?_
        have h₈ := next_length (Recorder.quiet_given hcomma)
        cases comma with
        | false => exact failWith_decided _ _
        | true => exact ih (by omega) _ s₈ (by omega)

/-- An opening bracket, and whether it is closed at once. -/
theorem opened_decided {α : Type} {c d : Char} {r : List Char} {q : Bool → Scanner α} {f : Bool → Parser α}
    (h : ∀ closed s, s.length ≤ r.length → Decided (q closed s) ((f closed).run s)) :
    Decided ((quiet (next c) >>= fun _ => quiet skip >>= fun _ => quiet (next d) >>= q) (c :: r))
      ((next c >>= fun _ => skip >>= fun _ => next d >>= f).run (c :: r)) := by
  refine .bind (next_decided _) fun opened s₁ hopened => ?_
  have hrun : next c (c :: r) = .ok (opened, s₁) := Recorder.quiet_given hopened
  rw [next_hit] at hrun
  cases hrun
  refine .bind skip_decided fun _ s₂ hskip => ?_
  have h₂ := skip_length (Recorder.quiet_given hskip)
  refine .bind (next_decided _) fun closed s₃ hclosed => ?_
  have h₃ := next_length (Recorder.quiet_given hclosed)
  exact h closed s₃ (by omega)

theorem array_decided (hitem : ∀ s, s.length < n → Decided (sitem s) (item.run s))
    (hlen : ∀ s v rest, (sitem s).2 = some (v, rest) → rest.length < s.length) {r : List Char} (hr : r.length < n) :
    Decided (scanArray sitem n ('[' :: r)) ((parseArray item n).run ('[' :: r)) := by
  refine opened_decided fun closed s hs => ?_
  cases closed with
  | true => exact .pure _ _
  | false => exact .bind (items_decided hitem hlen n (Nat.le_refl n) s (by omega)) fun vs s' _ => .pure _ _

theorem object_decided (hitem : ∀ s, s.length < n → Decided (sitem s) (item.run s))
    (hlen : ∀ s v rest, (sitem s).2 = some (v, rest) → rest.length < s.length) {r : List Char} (hr : r.length < n) :
    Decided (scanObject sitem n ('\x7b' :: r)) ((parseObject item n).run ('\x7b' :: r)) := by
  refine opened_decided fun closed s hs => ?_
  cases closed with
  | true => exact .pure _ _
  | false => exact .bind (fields_decided hitem hlen n (Nat.le_refl n) [] s (by omega)) fun fields s' _ => .pure _ _

/-- With more fuel than the text has characters. -/
theorem value_decided : ∀ (n : Nat) (s : List Char), s.length < n → Decided (scanValue n s) ((parseValue n).run s)
  | 0, s, hs => absurd hs (Nat.not_lt_zero _)
  | n + 1, s, hs => by
    have hitem : ∀ s, s.length < n → Decided (scanValue n s) ((parseValue n).run s) := value_decided n
    have hlen : ∀ s v rest, (scanValue n s).2 = some (v, rest) → rest.length < s.length := fun s v rest => scanValue_length n
    refine .bind skip_decided fun _ s₁ hskip => ?_
    have h₁ := skip_length (Recorder.quiet_given hskip)
    refine .bind get_decided fun s₂ s₃ hget => ?_
    cases Recorder.quiet_given hget
    cases s₁ with
    | nil => exact failWith_decided _ _
    | cons c r =>
      simp only [List.length_cons] at h₁
      have hr : r.length < n := by omega
      by_cases hbrace : c = '\x7b'
      · subst hbrace
        exact object_decided hitem hlen hr
      by_cases hbracket : c = '['
      · subst hbracket
        exact array_decided hitem hlen hr
      by_cases hquote : c = '"'
      · subst hquote
        exact parseString_decided
      simp only [hbrace, hbracket, hquote, if_false]
      by_cases hnumber : c = '-' ∨ c.isDigit = true
      · rw [if_pos hnumber, if_pos hnumber]
        exact number_decided
      · rw [if_neg hnumber, if_neg hnumber]
        exact parseNull_decided

/-- The parser raises exactly at a number that is not converted, and its fuel does not run
    out. -/
theorem parse_decided (text : List Char) : Decided (scan text) ((parseValue (text.length + 1)).run text) :=
  value_decided _ _ (Nat.lt_succ_self _)

end Decided

end MiniJson

/-! ## The header -/

open MiniJson

section Returns

variable {α β : Type} {x : Result α} {f : α → Result β}

theorem Returns.ok (a : α) : Returns (.ok a : Result α) := .inl ⟨a, rfl⟩

theorem Returns.fail (code : ErrorCode) (message : String) : Returns (fail code message : Result α) := .inr ⟨code, message, rfl⟩

theorem undefined_not_returns (what : String) : ¬ Returns (.error (.undefined what) : Result α) := by
  rintro (⟨a, h⟩ | ⟨code, message, h⟩) <;> cases h

theorem returns_bind_iff : Returns (x >>= f) ↔ Returns x ∧ ∀ a, x = .ok a → Returns (f a) := by
  cases x with
  | ok a => exact ⟨fun h => ⟨.ok a, fun b hb => by cases hb; exact h⟩, fun h => h.2 a rfl⟩
  | error e =>
    apply Iff.intro
    · rintro (⟨b, h⟩ | ⟨code, message, h⟩)
      · cases h
      · cases h
        exact ⟨.fail code message, fun a ha => nomatch ha⟩
    · rintro ⟨⟨a, h⟩ | ⟨code, message, h⟩, -⟩
      · cases h
      · cases h
        exact .inr ⟨code, message, rfl⟩

theorem castI64_returns (x : ℚ) : Returns (castI64 x) ↔ -2 ^ 63 - 1 < x ∧ x < 2 ^ 63 := by
  unfold castI64
  split
  · rename_i h
    exact iff_of_true (.ok _) h
  · rename_i h
    exact iff_of_false (undefined_not_returns _) h

theorem castUnsigned_returns (bits : Nat) (x : ℚ) : Returns (castUnsigned bits x) ↔ -1 < x ∧ x < 2 ^ bits := by
  unfold castUnsigned
  split
  · rename_i h
    exact iff_of_true (.ok _) h
  · rename_i h
    exact iff_of_false (undefined_not_returns _) h

end Returns

def isNumber : Value → Bool
  | .number _ => true
  | _ => false

/-- Up to the first that is no number, the dimensions are in the range of `std::int64_t`. -/
def DimsFit (items : List Value) : Prop := ∀ v ∈ items.takeWhile isNumber, -2 ^ 63 - 1 < v.num ∧ v.num < 2 ^ 63

/-- The two offsets are in the range of `std::uint64_t`. -/
def OffsetsFit (v : Value) : Prop :=
  ∀ a b, v = .array [a, b] → (-1 < a.num ∧ a.num < 2 ^ 64) ∧ -1 < b.num ∧ b.num < 2 ^ 64

/-- The numbers of an entry that is read as far as its numbers. -/
def EntryFits (fields : List (String × Value)) : Prop :=
  ∀ dtype items offsets, findField fields "dtype" = some (.string dtype) → findField fields "shape" = some (.array items) →
    findField fields "data_offsets" = some offsets → DimsFit items ∧ ((∀ v ∈ items, isNumber v = true) → OffsetsFit offsets)

theorem shapeDim_ok {v : Value} {d : Int} (h : shapeDim v = .ok d) : isNumber v = true := by
  cases v with
  | number x => rfl
  | _ => cases h

theorem dims_ok {items : List Value} : ∀ {dims : List Int}, items.mapM shapeDim = .ok dims → ∀ v ∈ items, isNumber v = true := by
  induction items with
  | nil => exact fun _ _ h => nomatch h
  | cons v items ih =>
    intro dims h
    rw [List.mapM_cons] at h
    obtain ⟨d, hd, h⟩ := bind_ok h
    obtain ⟨ds, hds, -⟩ := bind_ok h
    exact List.forall_mem_cons.mpr ⟨shapeDim_ok hd, ih hds⟩

theorem dimsFit_number (x : ℚ) (items : List Value) :
    DimsFit (.number x :: items) ↔ (-2 ^ 63 - 1 < x ∧ x < 2 ^ 63) ∧ DimsFit items := by
  unfold DimsFit
  rw [List.takeWhile_cons_of_pos (show isNumber (.number x) = true from rfl), List.forall_mem_cons]
  rfl

theorem castI64_failed {x : ℚ} : ¬ Failed (castI64 x) := by
  rintro ⟨code, message, h⟩
  unfold castI64 at h
  split at h <;> cases h

theorem dims_returns_iff (items : List Value) : Returns (items.mapM shapeDim) ↔ DimsFit items := by
  induction items with
  | nil => exact iff_of_true (.ok []) (by simp [DimsFit])
  | cons v items ih =>
    rw [List.mapM_cons, returns_bind_iff]
    cases v with
    | number x =>
      rw [dimsFit_number, ← castI64_returns, ← ih]
      refine and_congr_right fun hx => ?_
      obtain ⟨d, hd⟩ := hx.resolve_right castI64_failed
      exact ⟨fun h => (returns_bind_iff.mp (h d hd)).1, fun h d _ => returns_bind_iff.mpr ⟨h, fun ds _ => .ok _⟩⟩
    | _ =>
      refine iff_of_true ⟨.fail _ _, fun d hd => nomatch hd⟩ ?_
      simp [DimsFit, isNumber]

theorem dims_ok_of {items : List Value} (h : DimsFit items) (hnum : ∀ v ∈ items, isNumber v = true) :
    ∃ dims, items.mapM shapeDim = .ok dims := by
  induction items with
  | nil => exact ⟨[], rfl⟩
  | cons v items ih =>
    obtain ⟨hv, hitems⟩ := List.forall_mem_cons.mp hnum
    cases v with
    | number x =>
      obtain ⟨hx, hrest⟩ := (dimsFit_number x items).mp h
      obtain ⟨d, hd⟩ := ((castI64_returns x).mpr hx).resolve_right castI64_failed
      obtain ⟨ds, hds⟩ := ih hrest hitems
      refine ⟨d :: ds, ?_⟩
      rw [List.mapM_cons, show shapeDim (.number x) = .ok d from hd, ok_bind, hds]
      rfl
    | _ => cases hv

theorem castUnsigned_failed {bits : Nat} {x : ℚ} : ¬ Failed (castUnsigned bits x) := by
  rintro ⟨code, message, h⟩
  unfold castUnsigned at h
  split at h <;> cases h

theorem dataOffsets_returns_iff (v : Value) : Returns (dataOffsets v) ↔ OffsetsFit v := by
  by_cases hpair : ∃ a b, v = .array [a, b]
  · obtain ⟨a, b, rfl⟩ := hpair
    have hfit : OffsetsFit (.array [a, b]) ↔ Returns (castUnsigned 64 a.num) ∧ Returns (castUnsigned 64 b.num) := by
      rw [castUnsigned_returns, castUnsigned_returns]
      apply Iff.intro
      · exact fun h => h a b rfl
      · intro h a' b' heq
        cases heq
        exact h
    rw [hfit, dataOffsets, returns_bind_iff]
    refine and_congr_right fun ha => ?_
    obtain ⟨first, hfirst⟩ := ha.resolve_right castUnsigned_failed
    exact ⟨fun h => (returns_bind_iff.mp (h first hfirst)).1, fun h _ _ => returns_bind_iff.mpr ⟨h, fun last _ => .ok _⟩⟩
  · have hfail : dataOffsets v = fail .invalidArgument "data_offsets" := by
      unfold dataOffsets
      split
      · exact absurd ⟨_, _, rfl⟩ hpair
      · rfl
    rw [hfail]
    exact iff_of_true (.fail _ _) fun a b h => absurd ⟨a, b, h⟩ hpair

theorem tensorInfo_returns_iff (name : String) (fields : List (String × Value)) :
    Returns (tensorInfo name fields) ↔ EntryFits fields := by
  unfold tensorInfo EntryFits
  cases findField fields "dtype" with
  | none => exact iff_of_true (.fail _ _) (by simp)
  | some dit =>
    cases findField fields "shape" with
    | none => exact iff_of_true (.fail _ _) (by simp)
    | some sit =>
      cases findField fields "data_offsets" with
      | none => exact iff_of_true (.fail _ _) (by simp)
      | some oit =>
        cases dit with
        | string dtype =>
          cases sit with
          | array items =>
            have hfit : (∀ dtype' items' offsets, some (Value.string dtype) = some (.string dtype') →
                some (Value.array items) = some (.array items') → some oit = some offsets →
                DimsFit items' ∧ ((∀ v ∈ items', isNumber v = true) → OffsetsFit offsets)) ↔
                DimsFit items ∧ ((∀ v ∈ items, isNumber v = true) → OffsetsFit oit) := by
              apply Iff.intro
              · exact fun h => h dtype items oit rfl rfl rfl
              · intro h _ _ _ _ hitems hoit
                cases hitems
                cases hoit
                exact h
            rw [hfit]
            show Returns (items.mapM shapeDim >>= fun shape => dataOffsets oit >>= fun p => _) ↔ _
            rw [returns_bind_iff, dims_returns_iff]
            refine and_congr_right fun hdims => ?_
            apply Iff.intro
            · intro h hnum
              obtain ⟨dims, hok⟩ := dims_ok_of hdims hnum
              exact (dataOffsets_returns_iff oit).mp (returns_bind_iff.mp (h dims hok)).1
            · intro h dims hok
              exact returns_bind_iff.mpr ⟨(dataOffsets_returns_iff oit).mpr (h (dims_ok hok)), fun p _ => .ok _⟩
          | _ => exact iff_of_true (.fail _ _) (by simp)
        | _ => exact iff_of_true (.fail _ _) (by simp)

theorem addEntry_returns_iff (order : MapOrder) (file : SafetensorsFile) (kv : String × Value) :
    Returns (addEntry order file kv) ↔ (kv.1 ≠ "__metadata__" → ∀ fields, kv.2 = .object fields → EntryFits fields) := by
  obtain ⟨key, v⟩ := kv
  unfold addEntry
  cases v with
  | object fields =>
    dsimp only
    by_cases hkey : key = "__metadata__"
    · rw [if_pos hkey]
      exact iff_of_true (.ok _) fun hne => absurd hkey hne
    · rw [if_neg hkey, returns_bind_iff, tensorInfo_returns_iff]
      apply Iff.intro
      · intro h _ fields' hfields
        cases hfields
        exact h.1
      · exact fun h => ⟨h hkey fields rfl, fun info _ => .ok _⟩
  | _ => exact iff_of_true (.ok _) (by simp)

/-- The numbers of a header: each is read, and each that is cast is in range. -/
structure NumbersFit (text : List Char) : Prop where
  converts : ∀ t ∈ (scan text).1, Converts t
  entries : ∀ fields rest, (scan text).2 = some (.object fields, rest) → ∀ kv ∈ fields, kv.1 ≠ "__metadata__" →
    ∀ entry, kv.2 = .object entry → EntryFits entry

/-- Walks a map from its `i`-th entry on. -/
def MapOrder.rotated (i : Nat) : MapOrder := ⟨fun m => m.rotate i, fun m => m.rotate_perm i⟩

theorem foldlM_returns {order : MapOrder} {entries : List (String × Value)}
    (h : ∀ kv ∈ entries, ∀ file, Returns (addEntry order file kv)) (file : SafetensorsFile) :
    Returns (entries.foldlM (addEntry order) file) := by
  induction entries generalizing file with
  | nil => exact .ok file
  | cons kv entries ih =>
    rw [List.foldlM_cons]
    exact returns_bind_iff.mpr ⟨h kv List.mem_cons_self file, fun file' _ => ih (fun e he => h e (List.mem_cons_of_mem _ he)) file'⟩

/-- Whatever the order in which the map is walked. -/
theorem headerFile_returns_iff (path : String) (len : Nat) (root : Value) :
    (∀ order, Returns (headerFile order path len root)) ↔ ∀ fields, root = .object fields → ∀ kv ∈ fields,
      kv.1 ≠ "__metadata__" → ∀ entry, kv.2 = .object entry → EntryFits entry := by
  cases root with
  | object fields =>
    apply Iff.intro
    · intro h fields' hfields kv hkv
      cases hfields
      obtain ⟨i, hi, rfl⟩ := List.mem_iff_getElem.mp hkv
      have hwalk : (MapOrder.rotated i).walk fields = fields[i] :: (fields.drop (i + 1) ++ fields.take i) := by
        show fields.rotate i = _
        rw [List.rotate_eq_drop_append_take hi.le, List.drop_eq_getElem_cons hi]
        rfl
      have hreturns := h (.rotated i)
      unfold headerFile at hreturns
      dsimp only at hreturns
      rw [hwalk, List.foldlM_cons] at hreturns
      exact (addEntry_returns_iff _ _ _).mp (returns_bind_iff.mp hreturns).1
    · intro h order
      refine foldlM_returns (fun kv hkv file => ?_) _
      exact (addEntry_returns_iff _ _ _).mpr (h fields rfl kv ((order.perm fields).mem_iff.mp hkv))
  | _ => exact iff_of_true (fun _ => .fail _ _) (by simp)

theorem parse_returns_iff (text : List Char) : Returns (MiniJson.parse text) ↔ ∀ t ∈ (scan text).1, Converts t := by
  have hdecided := parse_decided text
  unfold MiniJson.parse
  generalize (parseValue (text.length + 1)).run text = x at hdecided
  generalize scan text = o at hdecided ⊢
  cases hdecided with
  | raises ht hbad he =>
    obtain ⟨what, rfl⟩ := he
    refine iff_of_false ?_ fun h => hbad (h _ ht)
    rintro (⟨a, h⟩ | ⟨code, message, h⟩) <;> cases h
  | returns hgood he =>
    obtain ⟨code, message, rfl⟩ := he
    exact iff_of_true (.fail _ _) hgood
  | gives hgood => exact iff_of_true (.ok _) hgood

theorem parse_scanned {text : List Char} {root : Value} (hconv : ∀ t ∈ (scan text).1, Converts t) :
    MiniJson.parse text = .ok root ↔ ∃ rest, (scan text).2 = some (root, rest) := by
  have hdecided := parse_decided text
  unfold MiniJson.parse
  generalize (parseValue (text.length + 1)).run text = x at hdecided
  generalize scan text = o at hdecided hconv ⊢
  cases hdecided with
  | raises ht hbad he => exact absurd (hconv _ ht) hbad
  | returns hgood he => simp [Except.map]
  | @gives ts p hgood =>
    obtain ⟨v, rest⟩ := p
    simp [Except.map]

/-- The header that lies in a file. -/
def headerOf (data : List UInt8) : Option (List Char) :=
  let len := leValue (data.take 8)
  if 8 ≤ data.length ∧ len ≠ 0 ∧ 8 + len ≤ data.length then some (textOf ((data.drop 8).take len)) else none

/-- A file whose header does not lie in it is answered with an `Error`. -/
theorem no_header_returns {order : MapOrder} {fs : FileSystem} {path : String} {data : List UInt8} (hfs : fs path = some data)
    (hdata : data.length < 2 ^ 63) (h : headerOf data = none) : Returns (safetensorsReadHeader order fs path) := by
  have hopen : ByteReader.fromFile fs path = .ok ⟨data, 0⟩ := by rw [ByteReader.fromFile, hfs]
  unfold safetensorsReadHeader
  rw [hopen, ok_bind, returns_bind_iff]
  by_cases hlen : 8 ≤ data.length
  · have hword : ByteReader.readPod ⟨data, 0⟩ 8 = .ok (leValue (data.take 8), ⟨data, 8⟩) := by
      rw [ByteReader.readPod, ByteReader.readBytes_of_le (by simpa using hlen)]
      rfl
    refine ⟨by rw [hword]; exact .ok _, fun p hp => ?_⟩
    rw [hword] at hp
    cases hp
    dsimp only
    split
    · exact .fail _ _
    · rename_i hguard
      rw [not_or, not_lt] at hguard
      have hout : ¬ 8 + leValue (data.take 8) ≤ data.length := by
        intro hle
        rw [headerOf, if_pos ⟨hlen, hguard.1, hle⟩] at h
        cases h
      have hshort : ByteReader.readBytes ⟨data, 8⟩ (leValue (data.take 8)) = fail .invalidArgument "truncated binary read" := by
        rw [ByteReader.readBytes, if_pos]
        have hle : leValue (data.take 8) ≤ data.length := hguard.2
        show data.length < wrap64 (8 + leValue (data.take 8))
        rw [wrap64_of_lt (by omega)]
        omega
      rw [hshort]
      exact .fail _ _
  · have hshort : ByteReader.readPod ⟨data, 0⟩ 8 = fail .invalidArgument "truncated binary read" := by
      have hwrap : data.length < wrap64 (0 + 8) := not_le.mp hlen
      rw [ByteReader.readPod, ByteReader.readBytes, if_pos hwrap]
      rfl
    rw [hshort]
    exact ⟨.fail _ _, fun p hp => by cases hp⟩

/-- A header that lies in its file is read as it stands. -/
theorem readHeader_header {order : MapOrder} {fs : FileSystem} {path : String} {data : List UInt8} {text : List Char}
    (hfs : fs path = some data) (h : headerOf data = some text) :
    safetensorsReadHeader order fs path = MiniJson.parse text >>= headerFile order path (leValue (data.take 8)) := by
  unfold headerOf at h
  dsimp only at h
  split at h
  · rename_i hin
    obtain ⟨hlen, hne, hle⟩ := hin
    cases h
    have hopen : ByteReader.fromFile fs path = .ok ⟨data, 0⟩ := by rw [ByteReader.fromFile, hfs]
    have hword : ByteReader.readPod ⟨data, 0⟩ 8 = .ok (leValue (data.take 8), ⟨data, 8⟩) := by
      rw [ByteReader.readPod, ByteReader.readBytes_of_le (by simpa using hlen)]
      rfl
    have hguard : ¬ (leValue (data.take 8) = 0 ∨ data.length < leValue (data.take 8)) := by
      rw [not_or, not_lt]
      exact ⟨hne, by omega⟩
    have hread : ByteReader.readBytes ⟨data, 8⟩ (leValue (data.take 8)) =
        .ok ((data.drop 8).take (leValue (data.take 8)), ⟨data, 8 + leValue (data.take 8)⟩) := ByteReader.readBytes_of_le hle
    simp only [safetensorsReadHeader, hopen, ok_bind, hword, hguard, if_false, hread]
  · cases h

/-- A file of one header. -/
def headerOnly (text : List Char) : FileSystem := fun _ => some (Codec.leBytes 8 text.length ++ Codec.bytesOf text)

end Uaii.Loaders
