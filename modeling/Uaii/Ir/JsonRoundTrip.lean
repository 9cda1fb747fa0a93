/-
  Uaii.Ir.JsonRoundTrip — `parse` after `stringify`.

  Proved: `parse` reads what `stringify` wrote, each number as it reads its own text, and
  fails when one of them does (`parse_stringify`). A number comes back exactly when it is
  an integer below `10 ^ 15` or the double of a decimal of six digits (`reread_iff`), so a
  value of such integers comes back as it was (`parse_stringify_integral`).
-/

import Uaii.Ir.Json
import Uaii.Lib.TextStream

namespace Uaii.Ir.Json

open Codec Decimal Rounding
open TextStream (Ends scan_while Ends.append Ends.mono)

/-! ## Numbers that come back -/

/-- A number, as it is read back from its text. -/
def reread (x : ℚ) : Option ℚ := stod (numberLiteral x).value

/-- A decimal of at most six significant digits. -/
def SixDigits (d : ℚ) : Prop := ∃ m e : ℤ, |m| < 10 ^ 6 ∧ d = m * (10 : ℚ) ^ e

/-- An integer below `10 ^ 15`, or the double of a decimal of six digits. -/
def Survives (x : ℚ) : Prop := ((⌊x⌋ : ℚ) = x ∧ |x| < 10 ^ 15) ∨ ∃ d, SixDigits d ∧ stod d = some x

theorem toDouble_exact {m e : ℤ} (hm : |m| < 2 ^ 53) (he : -1074 ≤ e) : toDouble (m * (2 : ℚ) ^ e) = m * (2 : ℚ) ^ e := by
  by_cases hz : m = 0
  · simp [hz, toDouble, roundAt_zero]
  · have hle : lastDigit 2 53 (m * (2 : ℚ) ^ e) ≤ e := by exact_mod_cast lastDigit_le (b := 2) (by decide) (by exact_mod_cast hm) hz
    exact_mod_cast roundAt_multiple (b := 2) (by decide) (max_le hle he)

theorem toDouble_int {n : ℤ} (hn : |n| ≤ 2 ^ 53) : toDouble n = n := by
  rcases hn.lt_or_eq with hlt | heq
  · have h := toDouble_exact (e := 0) hlt (by decide)
    simpa using h
  · rcases (abs_eq (by positivity)).mp heq with rfl | rfl
    · have h := toDouble_exact (m := 1) (e := 53) (by norm_num) (by norm_num)
      norm_num at h ⊢
      exact h
    · have h := toDouble_exact (m := -1) (e := 53) (by norm_num) (by norm_num)
      norm_num at h ⊢
      exact h

theorem stod_int {n : ℤ} (hn : |n| ≤ 2 ^ 53) : stod n = some (n : ℚ) := by
  have hcast : |(n : ℚ)| ≤ 2 ^ 53 := by exact_mod_cast hn
  have hlt : |(n : ℚ)| < 2 ^ 1024 := hcast.trans_lt (pow_lt_pow_right₀ (by norm_num) (by norm_num))
  rw [stod, toDouble_int hn, if_neg]
  rintro (h | h)
  · exact absurd h (not_le.mpr hlt)
  · exact h.2 rfl

/-- The double of an integer is as near as its 53 digits. -/
theorem toDouble_int_near (n : ℤ) : |toDouble n - n| * 2 ^ 53 ≤ |(n : ℚ)| := by
  by_cases hn : n = 0
  · subst hn
    simp [toDouble, roundAt_zero]
  · have hq : (n : ℚ) ≠ 0 := by exact_mod_cast hn
    have hone : (1 : ℚ) ≤ |(n : ℚ)| := by exact_mod_cast Int.one_le_abs hn
    have hlog : (0 : ℤ) ≤ Int.log 2 |(n : ℚ)| := by
      have hmono := Int.log_mono_right (b := 2) (show (0 : ℚ) < 1 by norm_num) hone
      rwa [Int.log_one_right] at hmono
    have hlast := lastDigit_mul_le (b := 2) (p := 53) (by decide) hq
    have hround := abs_roundAt_sub_le (b := 2) (by decide) (max (lastDigit 2 53 n) (-1074)) (n : ℚ)
    have hdigit : lastDigit 2 53 (n : ℚ) = Int.log 2 |(n : ℚ)| - 52 := by simp [lastDigit]
    rw [max_eq_left (by rw [hdigit]; omega)] at hround
    have htoDouble : toDouble n = roundAt 2 (lastDigit 2 53 n) n := by
      rw [toDouble, max_eq_left (by rw [hdigit]; omega)]
    rw [htoDouble]
    rw [show ((53 : ℕ) : ℤ) - 1 = ((52 : ℕ) : ℤ) from rfl, zpow_natCast] at hlast
    push_cast at hlast hround
    linarith

/-- A 64-bit integer is read as the nearest double. -/
theorem stod_i64 {n : ℤ} (hn : |n| ≤ 2 ^ 63) : stod n = some (toDouble n) := by
  have hnear := toDouble_int_near n
  have habs : |(n : ℚ)| ≤ 2 ^ 63 := by exact_mod_cast hn
  have hpow : (2 : ℚ) ^ 64 < 2 ^ 1024 := pow_lt_pow_right₀ (by norm_num) (by norm_num)
  have htri := abs_add_le (toDouble n - n) (n : ℚ)
  rw [sub_add_cancel] at htri
  have hnonneg := abs_nonneg (toDouble n - n)
  rw [stod, if_neg]
  rintro (h | ⟨h, hne⟩)
  · have hlt : |toDouble n| < 2 ^ 1024 := by
      refine lt_of_le_of_lt ?_ hpow
      norm_num at hnear habs ⊢
      linarith only [hnear, habs, htri, hnonneg]
    exact absurd h (not_le.mpr hlt)
  · by_cases hz : n = 0
    · subst hz
      simp [toDouble, roundAt_zero] at hne
    · have hone : (1 : ℚ) ≤ |(n : ℚ)| := by exact_mod_cast Int.one_le_abs hz
      have htri' := abs_sub_abs_le_abs_sub (n : ℚ) (toDouble n)
      rw [abs_sub_comm] at htri'
      have htiny : (2 : ℚ) ^ (-1022 : ℤ) ≤ 2 ^ (-1 : ℤ) := zpow_le_zpow_right₀ (by norm_num) (by norm_num)
      have hhalf : |toDouble n| < 2 ^ (-1 : ℤ) := h.trans_le htiny
      norm_num at hnear hhalf
      linarith only [hnear, hhalf, hone, htri']
/-- A double is near the decimal it was read from. -/
theorem stod_near {d x : ℚ} (h : stod d = some x) : |x - d| * 2 ^ 52 ≤ |d| := by
  unfold stod at h
  split at h
  · cases h
  · rename_i hok
    obtain rfl : toDouble d = x := Option.some.inj h
    push Not at hok
    obtain ⟨-, htiny⟩ := hok
    have hround := abs_roundAt_sub_le (b := 2) (by decide) (max (lastDigit 2 53 d) (-1074)) d
    rw [show roundAt 2 (max (lastDigit 2 53 d) (-1074)) d = toDouble d from rfl] at hround
    by_cases hd : d = 0
    · subst hd
      simp [toDouble, roundAt_zero]
    · rcases le_total (-1074) (lastDigit 2 53 d) with hle | hle
      · have hlast := lastDigit_mul_le (b := 2) (p := 53) (by decide) hd
        rw [max_eq_left hle] at hround
        rw [show ((53 : ℕ) : ℤ) - 1 = ((52 : ℕ) : ℤ) from rfl, zpow_natCast] at hlast
        have hpos := base_pos (b := 2) (by decide) (lastDigit 2 53 d)
        push_cast at hlast hround hpos
        linarith
      · -- below the smallest normal double only exact results are left
        rw [max_eq_right hle] at hround
        by_cases hsame : toDouble d = d
        · rw [hsame, sub_self, abs_zero, zero_mul]
          exact abs_nonneg d
        · have hbig : (2 : ℚ) ^ (-1022 : ℤ) ≤ |toDouble d| := by
            by_contra hlt
            exact hsame (htiny (not_le.mp hlt))
          have hpow : (2 : ℚ) ^ (-1022 : ℤ) = 2 ^ 52 * (2 : ℚ) ^ (-1074 : ℤ) := by
            rw [← zpow_natCast, ← zpow_add₀ (by norm_num)]
            norm_num
          have htri : |toDouble d| ≤ |d| + |toDouble d - d| := by
            have h := abs_add_le d (toDouble d - d)
            rwa [add_sub_cancel] at h
          have hpos := base_pos (b := 2) (by decide) (-1074)
          rw [hpow] at hbig
          simp only [Nat.cast_ofNat] at hround hpos
          generalize (2 : ℚ) ^ (-1074 : ℤ) = u at *
          linarith

theorem numberLiteral_ok (x : ℚ) : (numberLiteral x).Ok := by
  unfold numberLiteral
  split
  · exact intLiteral_ok _
  · rename_i hx
    refine formatG_ok (by decide) fun h0 => hx ?_
    simp [h0]

theorem numberLiteral_int {x : ℚ} (hx : (⌊x⌋ : ℚ) = x ∧ |x| < 10 ^ 15) : (numberLiteral x).value = x := by
  rw [numberLiteral, if_pos hx, intLiteral_value, hx.1]

theorem numberLiteral_six {x : ℚ} (hx : ¬ ((⌊x⌋ : ℚ) = x ∧ |x| < 10 ^ 15)) : (numberLiteral x).value = roundSig 6 x := by
  rw [numberLiteral, if_neg hx]
  refine formatG_value (by decide) fun h0 => hx ?_
  simp [h0]

theorem floor_abs_le {x : ℚ} (hx : (⌊x⌋ : ℚ) = x ∧ |x| < 10 ^ 15) : |⌊x⌋| ≤ 2 ^ 53 := by
  have h : |(⌊x⌋ : ℚ)| < 10 ^ 15 := hx.1.symm ▸ hx.2
  have hint : |⌊x⌋| < 10 ^ 15 := by exact_mod_cast h
  omega

/-- The numbers whose text is read back as the number. -/
theorem reread_iff {x : ℚ} : reread x = some x ↔ Survives x := by
  unfold reread
  by_cases hx : (⌊x⌋ : ℚ) = x ∧ |x| < 10 ^ 15
  · rw [numberLiteral_int hx]
    have hstod := stod_int (floor_abs_le hx)
    rw [hx.1] at hstod
    exact ⟨fun _ => Or.inl hx, fun _ => hstod⟩
  · rw [numberLiteral_six hx]
    apply Iff.intro
    · intro h
      have hx0 : x ≠ 0 := fun h0 => hx (by simp [h0])
      exact Or.inr ⟨_, roundSig_digits (by decide) hx0, h⟩
    · rintro (h | ⟨d, ⟨m, e, hm, rfl⟩, hd⟩)
      · exact absurd h hx
      · by_cases hz : (m : ℚ) * (10 : ℚ) ^ e = 0
        · rw [hz] at hd
          have hstod := stod_int (n := 0) (by norm_num)
          rw [Int.cast_zero, hd] at hstod
          exact absurd (by simp [Option.some.inj hstod]) hx
        · have hnear := stod_near hd
          have hround : roundSig 6 x = m * (10 : ℚ) ^ e := by
            refine roundSig_near hm ?_
            have hpos := abs_pos.mpr hz
            nlinarith [abs_nonneg (x - m * (10 : ℚ) ^ e)]
          rw [hround, hd]

/-- An integer is read back as an integer. -/
theorem reread_int {n : ℤ} {y : ℚ} (h : reread n = some y) : ∃ m : ℤ, y = m := by
  have hstod : ∀ k : ℤ, stod k = some y → ∃ m : ℤ, y = m := by
    intro k hk
    unfold stod at hk
    split at hk
    · cases hk
    · rcases roundAt_intCast (b := 2) (by decide) (max (lastDigit 2 53 k) (-1074)) k with ⟨m, hm⟩
      exact ⟨m, (Option.some.inj hk).symm.trans hm⟩
  unfold reread at h
  by_cases hx : (⌊(n : ℚ)⌋ : ℚ) = n ∧ |(n : ℚ)| < 10 ^ 15
  · rw [numberLiteral_int hx] at h
    exact hstod n h
  · rw [numberLiteral_six hx, roundSig] at h
    rcases roundAt_intCast (b := 10) (by decide) (lastDigit 10 6 n) |n| with ⟨m, hm⟩
    push_cast at hm
    rw [hm] at h
    refine hstod ((if (n : ℚ) < 0 then -1 else 1) * m) ?_
    push_cast
    exact h

/-! ## Literals are scanned -/

section Scan

variable {size : Nat} {rest : List Char}

theorem scanDigits_run {ds : List Char} {msg : String} (hne : ds ≠ []) (hds : ∀ c ∈ ds, c.isDigit = true)
    (hrest : Ends Char.isDigit rest) : scanDigits size msg (ds ++ rest) = .ok (ds, rest) := by
  obtain ⟨htake, hdrop⟩ := scan_while hds hrest
  rw [scanDigits, htake, hdrop, if_neg hne]

theorem scanInt_run {ds : List Char} (hne : ds ≠ []) (hds : ∀ c ∈ ds, c.isDigit = true)
    (hlead : ds.head? = some '0' → ds = ['0']) (hrest : Ends Char.isDigit rest) :
    scanInt size (ds ++ rest) = .ok (ds, rest) := by
  by_cases hzero : ds.head? = some '0'
  · rw [hlead hzero]
    rfl
  · cases ds with
    | nil => exact absurd rfl hne
    | cons d ds =>
      have hd : d ≠ '0' := fun h => hzero (by rw [h]; rfl)
      unfold scanInt
      split
      · rename_i heq
        exact absurd (List.cons.inj heq).1 hd
      · exact scanDigits_run hne hds hrest

theorem scanFrac_run {ds : List Char} (hds : ∀ c ∈ ds, c.isDigit = true) (hrest : Ends (fun c => c.isDigit || c == '.') rest) :
    scanFrac size ((if ds = [] then [] else '.' :: ds) ++ rest) = .ok (ds, rest) := by
  have hdigit : Ends Char.isDigit rest := fun c hc => (Bool.or_eq_false_iff.mp (hrest c hc)).1
  by_cases hne : ds = []
  · rw [if_pos hne, List.nil_append, hne]
    unfold scanFrac
    split
    · have hpoint := hrest '.' rfl
      cases hpoint
    · rfl
  · rw [if_neg hne]
    exact scanDigits_run hne hds hdigit

theorem scanExp_none (hrest : Ends (fun c => c.isDigit || c == 'e' || c == 'E') rest) : scanExp size rest = .ok (none, rest) := by
  cases rest with
  | nil => rfl
  | cons c rest =>
    have hc := hrest c rfl
    simp only [Bool.or_eq_false_iff, beq_eq_false_iff_ne] at hc
    simp [scanExp, hc.1.2, hc.2]

/-- An exponent after its mark, with or without a sign. -/
theorem scanExp_marked {mark : Char} {sign ds : List Char} {neg : Bool} (hmark : mark = 'e' ∨ mark = 'E')
    (hds : ds ≠ [] ∧ ∀ c ∈ ds, c.isDigit = true) (hrest : Ends Char.isDigit rest)
    (hsign : scanExpSign (sign ++ (ds ++ rest)) = .ok (neg, ds ++ rest)) :
    scanExp size (mark :: (sign ++ ds) ++ rest) = .ok (some (neg, ds), rest) := by
  have hscan : scanDigits size "invalid exponent" (ds ++ rest) = .ok (ds, rest) := scanDigits_run hds.1 hds.2 hrest
  rw [List.cons_append, List.append_assoc, scanExp, if_pos hmark]
  show (scanExpSign (sign ++ (ds ++ rest))).bind _ = _
  rw [hsign]
  show (scanDigits size "invalid exponent" (ds ++ rest)).bind _ = _
  rw [hscan]
  rfl

theorem scanExp_run {exp : Option (Bool × List Char)}
    (hexp : ∀ neg ds, exp = some (neg, ds) → ds ≠ [] ∧ ∀ c ∈ ds, c.isDigit = true)
    (hrest : Ends (fun c => c.isDigit || c == 'e' || c == 'E') rest) :
    scanExp size (expText exp ++ rest) = .ok (exp, rest) := by
  have hdigit : Ends Char.isDigit rest := hrest.mono fun c hc => by simp [hc]
  cases exp with
  | none => exact scanExp_none hrest
  | some e =>
    obtain ⟨neg, ds⟩ := e
    have hsign : scanExpSign ([if neg then '-' else '+'] ++ (ds ++ rest)) = .ok (neg, ds ++ rest) := by
      cases neg <;> rfl
    exact scanExp_marked (.inl rfl) (hexp neg ds rfl) hdigit hsign

/-- A character a number may go on with. -/
def numberChar (c : Char) : Bool := c.isDigit || c == '.' || c == 'e' || c == 'E'

/-- A number in parts, whatever the spelling of its exponent. -/
theorem scanLiteral_parts {l : Literal} (hl : l.Ok) {exp : List Char} (hstart : Ends (fun c => c.isDigit || c == '.') (exp ++ rest))
    (hexp : scanExp size (exp ++ rest) = .ok (l.exp, rest)) :
    scanLiteral size ((if l.neg then ['-'] else []) ++ (l.int ++ ((if l.frac = [] then [] else '.' :: l.frac) ++ exp)) ++ rest) =
      .ok (l, rest) := by
  have hfracText : Ends Char.isDigit (if l.frac = [] then [] else '.' :: l.frac) := by
    split
    · exact fun c hc => by cases hc
    · exact fun c hc => by cases hc; rfl
  have hfrac : Ends Char.isDigit ((if l.frac = [] then [] else '.' :: l.frac) ++ (exp ++ rest)) :=
    hfracText.append (hstart.mono fun c hc => by simp [hc])
  have hsign : ∀ t, scanSign ((if l.neg then ['-'] else []) ++ (l.int ++ t)) = .ok (l.neg, l.int ++ t) := by
    intro t
    cases hneg : l.neg with
    | true => rfl
    | false =>
      cases hint : l.int with
      | nil => exact absurd hint hl.nonempty
      | cons c cs =>
        have hc := hl.int c (by rw [hint]; exact List.mem_cons_self)
        show scanSign (c :: (cs ++ t)) = _
        unfold scanSign
        split
        · rename_i heq
          rw [(List.cons.inj heq).1] at hc
          cases hc
        · rfl
  have hchain : ∀ t, scanLiteral size t = (scanSign t).bind fun a => (scanInt size a.2).bind fun b =>
      (scanFrac size b.2).bind fun c => (scanExp size c.2).bind fun d => .ok (⟨a.1, b.1, c.1, d.1⟩, d.2) := fun _ => rfl
  rw [hchain, List.append_assoc, List.append_assoc, List.append_assoc, hsign]
  show (scanInt size (l.int ++ _)).bind _ = _
  rw [scanInt_run hl.nonempty hl.int hl.leading hfrac]
  show (scanFrac size _).bind _ = _
  rw [scanFrac_run hl.frac hstart]
  show (scanExp size _).bind _ = _
  rw [hexp]
  rfl

theorem scanLiteral_run {l : Literal} (hl : l.Ok) (hrest : Ends numberChar rest) :
    scanLiteral size (l.text ++ rest) = .ok (l, rest) := by
  have hexpText : Ends (fun c => c.isDigit || c == '.') (expText l.exp) := by
    cases l.exp with
    | none => exact fun c hc => by cases hc
    | some e => exact fun c hc => by cases hc; rfl
  have hstart : Ends (fun c => c.isDigit || c == '.') (expText l.exp ++ rest) :=
    hexpText.append (hrest.mono fun c hc => by simp [numberChar] at hc ⊢; tauto)
  exact scanLiteral_parts hl hstart (scanExp_run hl.exp (hrest.mono fun c hc => by simp [numberChar] at hc ⊢; tauto))

end Scan

/-! ## What was written is read -/

theorem parseNumber_parses (size : Nat) (x : ℚ) :
    Parses (Ends numberChar) (parseNumber size) (numberLiteral x).text ((reread x).map Value.num) := by
  intro rest hrest
  have hscan : scanLiteral size ((numberLiteral x).text ++ rest) = .ok (numberLiteral x, rest) :=
    scanLiteral_run (numberLiteral_ok x) hrest
  cases h : reread x with
  | none =>
    have hrun : (parseNumber size).run ((numberLiteral x).text ++ rest) =
        (failHere size "number parse failed" : Parser Value).run rest := by
      show (scanLiteral size _).bind _ = _
      rw [hscan]
      simp only [reread] at h
      simp only [Except.bind, h]
      rfl
    exact ⟨_, hrun⟩
  | some y =>
    show (scanLiteral size _).bind _ = _
    rw [hscan]
    simp only [reread] at h
    simp only [Except.bind, h]
    rfl

theorem hexValue_hexDigit : ∀ d, d < 16 → hexValue (hexDigit d) = some d := by decide

theorem stringBody_escape (size : Nat) (c : Char) (t : List Char) :
    stringBody size (escape c ++ t) = andThen [c] (stringBody size t) := by
  unfold escape
  split
  · subst_vars
    rfl
  split
  · subst_vars
    rfl
  split
  · subst_vars
    rfl
  split
  · subst_vars
    rfl
  split
  · subst_vars
    rfl
  split
  · subst_vars
    rfl
  split
  · subst_vars
    rfl
  split
  · rename_i hlt
    have hhi := hexValue_hexDigit (c.toNat / 16) (by omega)
    have hlo := hexValue_hexDigit (c.toNat % 16) (by omega)
    have hcode : ((0 * 16 + 0) * 16 + c.toNat / 16) * 16 + c.toNat % 16 = c.toNat := by omega
    have hzero : hexValue '0' = some 0 := by decide
    rw [show ['\\', 'u', '0', '0', hexDigit (c.toNat / 16), hexDigit (c.toNat % 16)] ++ t =
      '\\' :: 'u' :: '0' :: '0' :: hexDigit (c.toNat / 16) :: hexDigit (c.toNat % 16) :: t from rfl, stringBody]
    simp only [hexAt, hzero, hhi, hlo]
    show andThen (codeBytes (((0 * 16 + 0) * 16 + c.toNat / 16) * 16 + c.toNat % 16)) (stringBody size t) = _
    rw [hcode, codeBytes, if_pos (by omega), Char.ofNat_toNat]
  · rename_i hquote hback _ _ _ _ _ _
    show stringBody size (c :: t) = _
    rw [stringBody.eq_def]
    split <;> simp_all

theorem stringBody_run (size : Nat) (cs rest : List Char) : stringBody size (cs.flatMap escape ++ '"' :: rest) = .ok (cs, rest) := by
  induction cs with
  | nil => rfl
  | cons c cs ih =>
    rw [List.flatMap_cons, List.append_assoc, stringBody_escape, ih]
    rfl

/-- Spaces before what is not one. -/
theorem dropWhile_space {ws s : List Char} (hws : ∀ c ∈ ws, isSpace c = true) (hs : Ends isSpace s) :
    (ws ++ s).dropWhile isSpace = s := (scan_while hws hs).2

theorem parseString_run (size : Nat) (s : String) (rest : List Char) :
    parseString size (writeEscaped s ++ rest) = .ok (.str s, rest) := by
  have hbody := stringBody_run size s.toList rest
  show (stringBody size (s.toList.flatMap escape ++ ['"'] ++ rest)).bind _ = _
  rw [List.append_assoc, show ['"'] ++ rest = '"' :: rest from rfl, hbody]
  show Except.ok (Value.str (String.ofList s.toList), rest) = _
  rw [String.ofList_toList]

/-! ## Values that come back -/

mutual

/-- Numbers are reread, the rest is as it was. -/
def rereadValue : Value → Option Value
  | .null => some .null
  | .bool b => some (.bool b)
  | .num x => (reread x).map .num
  | .str s => some (.str s)
  | .arr vs => (rereadItems vs).map .arr
  | .obj kvs => (rereadFields kvs).map .obj

def rereadItems : List Value → Option (List Value)
  | [] => some []
  | v :: vs => (rereadValue v).bind fun w => (rereadItems vs).map (w :: ·)

def rereadFields : List (String × Value) → Option Object
  | [] => some []
  | (key, v) :: kvs => (rereadValue v).bind fun w => (rereadFields kvs).map ((key, w) :: ·)

end

/-- Maps have their keys in order, each once. -/
inductive Sorted : Value → Prop
  | null : Sorted .null
  | bool (b : Bool) : Sorted (.bool b)
  | num (x : ℚ) : Sorted (.num x)
  | str (s : String) : Sorted (.str s)
  | arr {vs : List Value} : (∀ v ∈ vs, Sorted v) → Sorted (.arr vs)
  | obj {kvs : List (String × Value)} : (kvs.map (·.1)).Pairwise (· < ·) → (∀ kv ∈ kvs, Sorted kv.2) → Sorted (.obj kvs)

theorem set_last {o : Object} {key : String} (v : Value) (h : ∀ kv ∈ o, kv.1 < key) : o.set key v = o ++ [(key, v)] := by
  induction o with
  | nil => rfl
  | cons kv o ih =>
    obtain ⟨key', v'⟩ := kv
    have hlt : key' < key := h _ List.mem_cons_self
    rw [Object.set, if_neg (lt_asymm hlt), if_pos hlt, ih fun kv hkv => h kv (List.mem_cons_of_mem _ hkv)]
    rfl

/-- Setting fields in the order of their keys. -/
theorem foldl_set {kvs : Object} : ∀ {o : Object}, ((o ++ kvs).map (·.1)).Pairwise (· < ·) →
    kvs.foldl (fun o kv => o.set kv.1 kv.2) o = o ++ kvs := by
  induction kvs with
  | nil => intro o _; simp
  | cons kv kvs ih =>
    intro o h
    have hlast : o.set kv.1 kv.2 = o ++ [kv] := by
      refine set_last kv.2 fun kv' hkv' => ?_
      rw [List.map_append] at h
      exact (List.pairwise_append.mp h).2.2 _ (List.mem_map_of_mem hkv') _ List.mem_cons_self
    rw [List.foldl_cons, hlast, ih (by simpa using h)]
    simp

theorem rereadFields_keys : ∀ {kvs ws : List (String × Value)}, rereadFields kvs = some ws → ws.map (·.1) = kvs.map (·.1) := by
  intro kvs
  induction kvs with
  | nil => intro ws h; cases h; rfl
  | cons kv kvs ih =>
    intro ws h
    obtain ⟨key, v⟩ := kv
    rw [rereadFields] at h
    obtain ⟨w, -, h⟩ := Option.bind_eq_some_iff.mp h
    obtain ⟨ws', hws, rfl⟩ := Option.map_eq_some_iff.mp h
    rw [List.map_cons, List.map_cons, ih hws]

/-! ### One step of a loop -/

section Steps

variable {size n : Nat} {ws rest s : List Char} {c d : Char} {v : Value} {item : Parser Value}

theorem no_space : ∀ c ∈ ([] : List Char), isSpace c = true := by simp

theorem consume_hit (hws : ∀ c ∈ ws, isSpace c = true) (hc : isSpace c = false) :
    consume c (ws ++ c :: rest) = .ok (true, rest) := by
  have hends : Ends isSpace (c :: rest) := fun d hd => by cases hd; exact hc
  rw [consume, dropWhile_space hws hends]
  simp

theorem consume_miss (hws : ∀ c ∈ ws, isSpace c = true) (hd : isSpace d = false) (hne : d ≠ c) :
    consume c (ws ++ d :: rest) = .ok (false, d :: rest) := by
  have hends : Ends isSpace (d :: rest) := fun e he => by cases he; exact hd
  rw [consume, dropWhile_space hws hends]
  simp [hne]

theorem expect_hit {msg : String} (hws : ∀ c ∈ ws, isSpace c = true) (hc : isSpace c = false) :
    expect size c msg (ws ++ c :: rest) = .ok ((), rest) := by
  show (consume c (ws ++ c :: rest)).bind _ = _
  rw [consume_hit hws hc]
  rfl

theorem skipWs_run (hws : ∀ c ∈ ws, isSpace c = true) (hc : isSpace c = false) :
    skipWs (ws ++ c :: rest) = .ok ((), c :: rest) := by
  have hends : Ends isSpace (c :: rest) := fun d hd => by cases hd; exact hc
  rw [skipWs, dropWhile_space hws hends]

theorem bind_run {α β : Type} {r : Parser α} {f : α → Parser β} {x : α} {s' : List Char} (h : r s = .ok (x, s')) :
    (r >>= f) s = f x s' := by
  show (r s).bind _ = _
  rw [h]
  rfl

theorem bind_error {α β : Type} {r : Parser α} {f : α → Parser β} {e : Fault} (h : r s = .error e) : (r >>= f) s = .error e := by
  show (r s).bind _ = _
  rw [h]
  rfl

theorem result_ok {α β : Type} {r : Result α} {f : α → Result β} {x : α} (h : r = .ok x) : r.bind f = f x := by
  rw [h]
  rfl

theorem result_error {α β : Type} {r : Result α} {f : α → Result β} {e : Fault} (h : r = .error e) : r.bind f = .error e := by
  rw [h]
  rfl

theorem parseItems_error {e : Fault} (h : item s = .error e) : parseItems size item (n + 1) s = .error e := bind_error h

theorem parseItems_last (hws : ∀ c ∈ ws, isSpace c = true) (h : item s = .ok (v, ws ++ ']' :: rest)) :
    parseItems size item (n + 1) s = .ok ([v], rest) := by
  refine (bind_run h).trans ?_
  refine (bind_run (skipWs_run hws rfl)).trans ?_
  exact bind_run (consume_hit no_space rfl)

theorem parseItems_more (hws : ∀ c ∈ ws, isSpace c = true) (h : item s = .ok (v, ws ++ ',' :: rest)) :
    parseItems size item (n + 1) s = (parseItems size item n rest).bind fun t => .ok (v :: t.1, t.2) := by
  refine (bind_run h).trans ?_
  refine (bind_run (skipWs_run hws rfl)).trans ?_
  refine (bind_run (consume_miss no_space rfl (by decide))).trans ?_
  exact bind_run (expect_hit no_space rfl)

section Fields

variable {o : Object} {key : String} {s' kws : List Char}

theorem parseFields_error (hkws : ∀ c ∈ kws, isSpace c = true) (hkey : item s = .ok (.str key, kws ++ ':' :: s')) {e : Fault}
    (h : item s' = .error e) : parseFields size item (n + 1) o s = .error e := by
  refine (bind_run hkey).trans ?_
  refine (bind_run (show fieldKey size (.str key) (kws ++ ':' :: s') = .ok (key, kws ++ ':' :: s') from rfl)).trans ?_
  refine (bind_run (expect_hit hkws rfl)).trans ?_
  exact bind_error h

theorem parseFields_last (hkws : ∀ c ∈ kws, isSpace c = true) (hkey : item s = .ok (.str key, kws ++ ':' :: s'))
    (hws : ∀ c ∈ ws, isSpace c = true) (h : item s' = .ok (v, ws ++ '\x7d' :: rest)) :
    parseFields size item (n + 1) o s = .ok (o.set key v, rest) := by
  refine (bind_run hkey).trans ?_
  refine (bind_run (show fieldKey size (.str key) (kws ++ ':' :: s') = .ok (key, kws ++ ':' :: s') from rfl)).trans ?_
  refine (bind_run (expect_hit hkws rfl)).trans ?_
  refine (bind_run h).trans ?_
  refine (bind_run (skipWs_run hws rfl)).trans ?_
  exact bind_run (consume_hit no_space rfl)

theorem parseFields_more (hkws : ∀ c ∈ kws, isSpace c = true) (hkey : item s = .ok (.str key, kws ++ ':' :: s'))
    (hws : ∀ c ∈ ws, isSpace c = true) (h : item s' = .ok (v, ws ++ ',' :: rest)) :
    parseFields size item (n + 1) o s = parseFields size item n (o.set key v) rest := by
  refine (bind_run hkey).trans ?_
  refine (bind_run (show fieldKey size (.str key) (kws ++ ':' :: s') = .ok (key, kws ++ ':' :: s') from rfl)).trans ?_
  refine (bind_run (expect_hit hkws rfl)).trans ?_
  refine (bind_run h).trans ?_
  refine (bind_run (skipWs_run hws rfl)).trans ?_
  refine (bind_run (consume_miss no_space rfl (by decide))).trans ?_
  exact bind_run (expect_hit no_space rfl)

end Fields

/-- What follows a value. -/
theorem parseValue_dispatch (hws : ∀ c ∈ ws, isSpace c = true) (hc : isSpace c = false) :
    parseValue size (n + 1) (ws ++ c :: rest) =
      (if c = 'n' then parseNull size
      else if c = 't' ∨ c = 'f' then parseBool size
      else if c = '"' then parseString size
      else if c = '[' then parseArray size (parseValue size n) n
      else if c = '\x7b' then parseObject size (parseValue size n) n
      else if c = '-' ∨ c.isDigit then parseNumber size
      else failHere size ("unexpected character '" ++ String.singleton c ++ "'")) (c :: rest) := by
  refine (bind_run (skipWs_run hws hc)).trans ?_
  exact bind_run (show (get : Parser (List Char)) (c :: rest) = .ok (c :: rest, c :: rest) from rfl)

end Steps

/-! ### What is dumped -/

/-- By the items and fields. -/
theorem Value.induct {P : Value → Prop} (null : P .null) (bool : ∀ b, P (.bool b)) (num : ∀ x, P (.num x))
    (str : ∀ s, P (.str s)) (arr : ∀ vs, (∀ v ∈ vs, P v) → P (.arr vs))
    (obj : ∀ kvs : List (String × Value), (∀ kv ∈ kvs, P kv.2) → P (.obj kvs)) (v : Value) : P v := by
  refine @Value.rec P (fun vs => ∀ v ∈ vs, P v) (fun kvs => ∀ kv ∈ kvs, P kv.2) (fun kv => P kv.2) null bool num str arr obj
    ?_ ?_ ?_ ?_ ?_ v
  · simp
  · intro v vs hv hvs u hu
    rcases List.mem_cons.mp hu with rfl | hu
    · exact hv
    · exact hvs u hu
  · simp
  · intro kv kvs hkv hkvs e he
    rcases List.mem_cons.mp he with rfl | he
    · exact hkv
    · exact hkvs e he
  · exact fun _ _ h => h

theorem pad_space (pretty : Bool) (n : Nat) : ∀ c ∈ pad pretty n, isSpace c = true := by
  intro c hc
  unfold pad at hc
  split at hc
  · rw [List.eq_of_mem_replicate hc]
    rfl
  · cases hc

theorem newline_space (pretty : Bool) : ∀ c ∈ newline pretty, isSpace c = true := by
  intro c hc
  unfold newline at hc
  split at hc
  · rw [List.mem_singleton.mp hc]
    rfl
  · cases hc

theorem space_append {ws ws' : List Char} (h : ∀ c ∈ ws, isSpace c = true) (h' : ∀ c ∈ ws', isSpace c = true) :
    ∀ c ∈ ws ++ ws', isSpace c = true := by
  intro c hc
  rcases List.mem_append.mp hc with hc | hc
  · exact h c hc
  · exact h' c hc

theorem numberChar_of_space {c : Char} (hc : isSpace c = true) : numberChar c = false := by
  have hlt : c.toNat < 46 := by
    simp only [isSpace, Bool.or_eq_true, Bool.and_eq_true, decide_eq_true_eq] at hc
    rcases hc with rfl | hc
    · decide
    · omega
  by_contra hnum
  simp only [numberChar, Char.isDigit, Bool.or_eq_true, Bool.and_eq_true, decide_eq_true_eq, beq_iff_eq, Bool.not_eq_false,
    ge_iff_le, UInt32.le_iff_toNat_le] at hnum
  rcases hnum with ((h | rfl) | rfl) | rfl
  · have h48 : 48 ≤ c.toNat := h.1
    omega
  · exact absurd hlt (by decide)
  · exact absurd hlt (by decide)
  · exact absurd hlt (by decide)

/-- Spaces and what is no number do not go on with one. -/
theorem ends_number {ws rest : List Char} (hws : ∀ c ∈ ws, isSpace c = true) (hrest : Ends numberChar rest) :
    Ends numberChar (ws ++ rest) :=
  Ends.append (fun _ hc => numberChar_of_space (hws _ (List.mem_of_mem_head? hc))) hrest

theorem length_le_dumpItems (pretty : Bool) (indent : Nat) (v : Value) (vs : List Value) :
    vs.length ≤ (dumpItems pretty indent (v :: vs)).length := by
  induction vs generalizing v with
  | nil => exact Nat.zero_le _
  | cons u us ih =>
    have hu := ih u
    rw [dumpItems]
    simp only [List.length_append, List.length_cons, comma, List.isEmpty_cons, Bool.false_eq_true, if_false, List.length_nil]
    omega

theorem length_le_dumpFields (pretty : Bool) (indent : Nat) (kv : String × Value) (kvs : List (String × Value)) :
    kvs.length ≤ (dumpFields pretty indent (kv :: kvs)).length := by
  induction kvs generalizing kv with
  | nil => exact Nat.zero_le _
  | cons u us ih =>
    have hu := ih u
    rw [dumpFields]
    simp only [List.length_append, List.length_cons, comma, List.isEmpty_cons, Bool.false_eq_true, if_false, List.length_nil]
    omega

theorem dump_le_dumpItems (pretty : Bool) (indent : Nat) {v : Value} {vs : List Value} (hv : v ∈ vs) :
    (dump pretty indent v).length ≤ (dumpItems pretty indent vs).length := by
  induction vs with
  | nil => cases hv
  | cons u us ih =>
    rw [dumpItems]
    simp only [List.length_append]
    rcases List.mem_cons.mp hv with rfl | hv
    · omega
    · have h := ih hv
      omega

theorem dump_le_dumpFields (pretty : Bool) (indent : Nat) {kv : String × Value} {kvs : List (String × Value)} (hkv : kv ∈ kvs) :
    (writeEscaped kv.1).length + (dump pretty indent kv.2).length ≤ (dumpFields pretty indent kvs).length := by
  induction kvs with
  | nil => cases hkv
  | cons u us ih =>
    obtain ⟨key, v⟩ := u
    rw [dumpFields]
    simp only [List.length_append]
    rcases List.mem_cons.mp hkv with rfl | hkv
    · show (writeEscaped key).length + (dump pretty indent v).length ≤ _
      omega
    · have h := ih hkv
      omega

/-- The reader of an item reads `v`, after spaces. -/
def ReadsItem (pretty : Bool) (indent : Nat) (item : Parser Value) (v : Value) : Prop :=
  ∀ ws : List Char, (∀ c ∈ ws, isSpace c = true) → Parses (Ends numberChar) item (ws ++ dump pretty indent v) (rereadValue v)

section Loops

variable {indent n : Nat} {pretty : Bool} {item : Parser Value} {ws tws : List Char}

/-- The items `v :: vs` are read up to the closing bracket, `ws` standing for what comes before `v`. By the items. -/
theorem parseItems_dump (size : Nat) (htws : ∀ c ∈ tws, isSpace c = true) {vs : List Value} : ∀ {v : Value} {n : Nat} {ws : List Char},
    (∀ c ∈ ws, isSpace c = true) → (∀ u ∈ v :: vs, ReadsItem pretty indent item u) → vs.length < n →
    Parses (fun _ => True) (parseItems size item n)
      (ws ++ (dump pretty indent v ++ (comma vs ++ (newline pretty ++ (dumpItems pretty indent vs ++ (tws ++ [']'])))))) 
      (rereadItems (v :: vs)) := by
  induction vs with
  | nil =>
    intro v n ws hws hitem hn rest _
    obtain ⟨n, rfl⟩ := Nat.exists_eq_add_of_lt hn
    have hend : ∀ c ∈ newline pretty ++ tws, isSpace c = true := space_append (newline_space pretty) htws
    have hv := hitem v List.mem_cons_self ws hws
    have hD : Ends numberChar ((newline pretty ++ tws) ++ ']' :: rest) := ends_number hend fun c hc => by cases hc; rfl
    have htext : ws ++ (dump pretty indent v ++ (comma ([] : List Value) ++ (newline pretty ++ (dumpItems pretty indent [] ++ (tws ++ [']']))))) ++
        rest = ws ++ dump pretty indent v ++ ((newline pretty ++ tws) ++ ']' :: rest) := by
      simp [dumpItems, comma]
    rw [htext, rereadItems, rereadItems]
    cases hw : rereadValue v with
    | none =>
      rw [hw] at hv
      rcases hv.none_run hD with ⟨e, he⟩
      exact ⟨e, parseItems_error he⟩
    | some w =>
      rw [hw] at hv
      exact parseItems_last hend (hv.some_run hD)
  | cons u us ih =>
    intro v n ws hws hitem hn rest _
    obtain ⟨n, rfl⟩ := Nat.exists_eq_add_of_lt hn
    have hv := hitem v List.mem_cons_self ws hws
    have hnext := @ih u (us.length + 1 + n) (newline pretty ++ pad pretty indent)
      (space_append (newline_space pretty) (pad_space pretty indent))
      (fun w hw => hitem w (List.mem_cons_of_mem _ hw)) (by omega) rest trivial
    generalize hmid : newline pretty ++ pad pretty indent ++ (dump pretty indent u ++ (comma us ++ (newline pretty ++
      (dumpItems pretty indent us ++ (tws ++ [']']))))) = mid at hnext
    have htext : ws ++ (dump pretty indent v ++ (comma (u :: us) ++ (newline pretty ++ (dumpItems pretty indent (u :: us) ++
        (tws ++ [']']))))) ++ rest = ws ++ dump pretty indent v ++ ([] ++ ',' :: (mid ++ rest)) := by
      rw [← hmid, dumpItems]
      simp [comma]
    have hD : Ends numberChar ([] ++ ',' :: (mid ++ rest)) := fun c hc => by cases hc; rfl
    rw [htext, rereadItems]
    cases hw : rereadValue v with
    | none =>
      rw [hw] at hv
      rcases hv.none_run hD with ⟨e, he⟩
      exact ⟨e, parseItems_error he⟩
    | some w =>
      rw [hw] at hv
      have hmore : (parseItems size item (us.length + 1 + n + 1)).run _ = _ := parseItems_more no_space (hv.some_run hD)
      cases hws' : rereadItems (u :: us) with
      | none =>
        rw [hws'] at hnext
        rcases hnext with ⟨e, he⟩
        exact ⟨e, hmore.trans (result_error he)⟩
      | some ws' =>
        rw [hws'] at hnext
        exact hmore.trans (result_ok hnext)

theorem colon_eq (pretty : Bool) : ∃ ws, colon pretty = ':' :: ws ∧ ∀ c ∈ ws, isSpace c = true := by
  cases pretty with
  | false => exact ⟨[], rfl, no_space⟩
  | true => exact ⟨[' '], rfl, by simp [isSpace]⟩

/-- As `parseItems_dump`, of the fields. -/
theorem parseFields_dump (size : Nat) (htws : ∀ c ∈ tws, isSpace c = true)
    (hkey : ∀ (ws : List Char) (key : String) rest, (∀ c ∈ ws, isSpace c = true) →
      item (ws ++ (writeEscaped key ++ rest)) = .ok (.str key, rest)) {kvs : List (String × Value)} :
    ∀ {key : String} {v : Value} {n : Nat} {ws : List Char} {o : Object},
    (∀ c ∈ ws, isSpace c = true) → (∀ kv ∈ (key, v) :: kvs, ReadsItem pretty indent item kv.2) → kvs.length < n →
    Parses (fun _ => True) (parseFields size item n o) (ws ++ (writeEscaped key ++ (colon pretty ++ (dump pretty indent v ++
      (comma kvs ++ (newline pretty ++ (dumpFields pretty indent kvs ++ (tws ++ ['\x7d']))))))))
      ((rereadFields ((key, v) :: kvs)).map (List.foldl (fun o kv => o.set kv.1 kv.2) o)) := by
  rcases colon_eq pretty with ⟨sp, hcolon, hsp⟩
  induction kvs with
  | nil =>
    intro key v n ws o hws hitem hn rest _
    obtain ⟨n, rfl⟩ := Nat.exists_eq_add_of_lt hn
    have hend : ∀ c ∈ newline pretty ++ tws, isSpace c = true := space_append (newline_space pretty) htws
    have hv : Parses (Ends numberChar) item (sp ++ dump pretty indent v) (rereadValue v) := hitem (key, v) List.mem_cons_self sp hsp
    have hD : Ends numberChar ((newline pretty ++ tws) ++ '\x7d' :: rest) := ends_number hend fun c hc => by cases hc; rfl
    have htext : ws ++ (writeEscaped key ++ (colon pretty ++ (dump pretty indent v ++ (comma ([] : List (String × Value)) ++
        (newline pretty ++ (dumpFields pretty indent [] ++ (tws ++ ['\x7d']))))))) ++ rest =
        ws ++ (writeEscaped key ++ ':' :: (sp ++ dump pretty indent v ++ ((newline pretty ++ tws) ++ '\x7d' :: rest))) := by
      simp [hcolon, dumpFields, comma]
    rw [htext, rereadFields, rereadFields]
    cases hw : rereadValue v with
    | none =>
      rw [hw] at hv
      rcases hv.none_run hD with ⟨e, he⟩
      exact ⟨e, parseFields_error no_space (hkey ws key _ hws) he⟩
    | some w =>
      rw [hw] at hv
      exact parseFields_last no_space (hkey ws key _ hws) hend (hv.some_run hD)
  | cons kv kvs ih =>
    intro key v n ws o hws hitem hn rest _
    obtain ⟨key', u⟩ := kv
    obtain ⟨n, rfl⟩ := Nat.exists_eq_add_of_lt hn
    have hv : Parses (Ends numberChar) item (sp ++ dump pretty indent v) (rereadValue v) := hitem (key, v) List.mem_cons_self sp hsp
    have hnext := fun w => @ih key' u (kvs.length + 1 + n) (newline pretty ++ pad pretty indent) (o.set key w)
      (space_append (newline_space pretty) (pad_space pretty indent))
      (fun w hw => hitem w (List.mem_cons_of_mem _ hw)) (by omega) rest trivial
    generalize hmid : newline pretty ++ pad pretty indent ++ (writeEscaped key' ++ (colon pretty ++ (dump pretty indent u ++
      (comma kvs ++ (newline pretty ++ (dumpFields pretty indent kvs ++ (tws ++ ['\x7d']))))))) = mid at hnext
    have htext : ws ++ (writeEscaped key ++ (colon pretty ++ (dump pretty indent v ++ (comma ((key', u) :: kvs) ++
        (newline pretty ++ (dumpFields pretty indent ((key', u) :: kvs) ++ (tws ++ ['\x7d']))))))) ++ rest =
        ws ++ (writeEscaped key ++ ':' :: (sp ++ dump pretty indent v ++ ([] ++ ',' :: (mid ++ rest)))) := by
      rw [← hmid, dumpFields]
      simp [hcolon, comma]
    have hD : Ends numberChar ([] ++ ',' :: (mid ++ rest)) := fun c hc => by cases hc; rfl
    rw [htext, rereadFields]
    cases hw : rereadValue v with
    | none =>
      rw [hw] at hv
      rcases hv.none_run hD with ⟨e, he⟩
      exact ⟨e, parseFields_error no_space (hkey ws key _ hws) he⟩
    | some w =>
      rw [hw] at hv
      have hmore : (parseFields size item (kvs.length + 1 + n + 1) o).run _ = _ :=
        parseFields_more no_space (hkey ws key _ hws) no_space (hv.some_run hD)
      have hnext := hnext w
      cases hws' : rereadFields ((key', u) :: kvs) with
      | none =>
        rw [hws'] at hnext
        rcases hnext with ⟨e, he⟩
        exact ⟨e, hmore.trans he⟩
      | some ws' =>
        rw [hws'] at hnext
        exact hmore.trans hnext

end Loops

/-! ### Values -/

theorem numberLiteral_head (x : ℚ) : ∃ c cs, (numberLiteral x).text = c :: cs ∧ (c = '-' ∨ c.isDigit = true) := by
  have hok := numberLiteral_ok x
  rw [Literal.text]
  cases (numberLiteral x).neg with
  | true => exact ⟨'-', _, rfl, Or.inl rfl⟩
  | false =>
    cases hint : (numberLiteral x).int with
    | nil => exact absurd hint hok.nonempty
    | cons c cs => exact ⟨c, _, rfl, Or.inr (hok.int c (by rw [hint]; exact List.mem_cons_self))⟩

theorem digit_code {c : Char} (hc : c = '-' ∨ c.isDigit = true) : 45 ≤ c.toNat ∧ c.toNat ≤ 57 := by
  rcases hc with rfl | hc
  · decide
  · simp only [Char.isDigit, Bool.and_eq_true, decide_eq_true_eq, ge_iff_le, UInt32.le_iff_toNat_le] at hc
    have h : 48 ≤ c.toNat ∧ c.toNat ≤ 57 := hc
    omega

/-- A number is read as one. -/
theorem parseValue_number {size n : Nat} {ws rest : List Char} {c : Char} (hws : ∀ c ∈ ws, isSpace c = true)
    (hc : c = '-' ∨ c.isDigit = true) : parseValue size (n + 1) (ws ++ c :: rest) = parseNumber size (c :: rest) := by
  have hcode := digit_code hc
  have hne : ∀ d : Char, (57 < d.toNat ∨ d.toNat < 45) → c ≠ d := by
    rintro d hd rfl
    omega
  have hspace : isSpace c = false := by
    by_contra h
    simp only [isSpace, Bool.not_eq_false, Bool.or_eq_true, Bool.and_eq_true, decide_eq_true_eq] at h
    rcases h with rfl | h
    · exact hne ' ' (by decide) rfl
    · omega
  rw [parseValue_dispatch hws hspace, if_neg (hne 'n' (by decide)), if_neg (not_or.mpr ⟨hne 't' (by decide), hne 'f' (by decide)⟩),
    if_neg (hne '"' (by decide)), if_neg (hne '[' (by decide)), if_neg (hne '\x7b' (by decide)), if_pos hc]

theorem isSpace_number {c : Char} (hc : c = '-' ∨ c.isDigit = true) : isSpace c = false := by
  have hcode := digit_code hc
  by_contra h
  simp only [isSpace, Bool.not_eq_false, Bool.or_eq_true, Bool.and_eq_true, decide_eq_true_eq] at h
  rcases h with rfl | h
  · exact absurd hcode.1 (by decide)
  · omega

/-- A value's text starts with no space and no closing bracket. -/
theorem dump_head (pretty : Bool) (indent : Nat) (v : Value) :
    ∃ c cs, dump pretty indent v = c :: cs ∧ isSpace c = false ∧ c ≠ ']' := by
  cases v with
  | null => exact ⟨'n', _, rfl, rfl, by decide⟩
  | bool b =>
    cases b with
    | false => exact ⟨'f', _, rfl, rfl, by decide⟩
    | true => exact ⟨'t', _, rfl, rfl, by decide⟩
  | num x =>
    rcases numberLiteral_head x with ⟨c, cs, htext, hc⟩
    refine ⟨c, cs, by rw [dump, htext], isSpace_number hc, ?_⟩
    rintro rfl
    exact absurd (digit_code hc).2 (by decide)
  | str s => exact ⟨'"', _, rfl, rfl, by decide⟩
  | arr vs => cases vs <;> exact ⟨'[', _, rfl, rfl, by decide⟩
  | obj kvs => cases kvs <;> exact ⟨'\x7b', _, rfl, rfl, by decide⟩

section Brackets

variable {size n : Nat} {ws ws' s : List Char} {c : Char}

theorem parseValue_array (hws : ∀ c ∈ ws, isSpace c = true) (hws' : ∀ c ∈ ws', isSpace c = true) (hc : isSpace c = false)
    (hne : c ≠ ']') : (parseValue size (n + 1)).run (ws ++ '[' :: (ws' ++ c :: s)) =
      (parseItems size (parseValue size n) n (c :: s)).bind fun p => .ok (.arr p.1, p.2) := by
  refine (parseValue_dispatch hws rfl).trans ?_
  refine (bind_run (expect_hit no_space rfl)).trans ?_
  refine (bind_run (skipWs_run hws' hc)).trans ?_
  exact bind_run (consume_miss no_space hc hne)

theorem parseValue_object (hws : ∀ c ∈ ws, isSpace c = true) (hws' : ∀ c ∈ ws', isSpace c = true) :
    (parseValue size (n + 1)).run (ws ++ '\x7b' :: (ws' ++ '"' :: s)) =
      (parseFields size (parseValue size n) n [] ('"' :: s)).bind fun p => .ok (.obj p.1, p.2) := by
  refine (parseValue_dispatch hws rfl).trans ?_
  refine (bind_run (expect_hit no_space rfl)).trans ?_
  refine (bind_run (skipWs_run hws' rfl)).trans ?_
  exact bind_run (consume_miss no_space rfl (by decide))

end Brackets

/-- A string is an item. -/
theorem parseValue_key {size n : Nat} {ws : List Char} (hws : ∀ c ∈ ws, isSpace c = true) (key : String) (rest : List Char) :
    parseValue size (n + 1) (ws ++ (writeEscaped key ++ rest)) = .ok (.str key, rest) :=
  (parseValue_dispatch hws rfl).trans (parseString_run size key rest)

theorem array_readsItem {size n indent : Nat} {pretty : Bool} {v : Value} {vs : List Value}
    (hitem : ∀ u ∈ v :: vs, ReadsItem pretty (indent + 1) (parseValue size n) u) (hn : vs.length < n) :
    ReadsItem pretty indent (parseValue size (n + 1)) (.arr (v :: vs)) := by
  intro ws hws rest _
  have hitems := parseItems_dump size (pad_space pretty indent) no_space hitem hn rest trivial
  rcases dump_head pretty (indent + 1) v with ⟨c, cs, htext, hc, hne⟩
  have hsplit : ws ++ dump pretty indent (.arr (v :: vs)) ++ rest = ws ++ '[' :: ((newline pretty ++ pad pretty (indent + 1)) ++
      c :: (cs ++ (comma vs ++ (newline pretty ++ (dumpItems pretty (indent + 1) vs ++ (pad pretty indent ++ [']'])))) ++ rest)) := by
    rw [dump, dumpItems, htext]
    simp
  rw [hsplit, parseValue_array hws (space_append (newline_space pretty) (pad_space pretty (indent + 1))) hc hne, rereadValue]
  rw [htext] at hitems
  cases hvs : rereadItems (v :: vs) with
  | none =>
    rw [hvs] at hitems
    rcases hitems with ⟨e, he⟩
    exact ⟨e, result_error he⟩
  | some ws' =>
    rw [hvs] at hitems
    exact result_ok hitems

theorem object_readsItem {size n indent : Nat} {pretty : Bool} {key : String} {v : Value} {kvs : List (String × Value)}
    (hkeys : (((key, v) :: kvs).map (·.1)).Pairwise (· < ·))
    (hitem : ∀ kv ∈ (key, v) :: kvs, ReadsItem pretty (indent + 1) (parseValue size n) kv.2) (hn : kvs.length < n) :
    ReadsItem pretty indent (parseValue size (n + 1)) (.obj ((key, v) :: kvs)) := by
  intro ws hws rest _
  have hkey : ∀ (ws : List Char) (key : String) rest, (∀ c ∈ ws, isSpace c = true) →
      parseValue size n (ws ++ (writeEscaped key ++ rest)) = .ok (.str key, rest) := by
    intro ws key rest hws
    obtain ⟨m, rfl⟩ := Nat.exists_eq_add_of_lt hn
    exact parseValue_key hws key rest
  have hfields := parseFields_dump size (o := []) (pad_space pretty indent) hkey no_space hitem hn rest trivial
  have hsplit : ws ++ dump pretty indent (.obj ((key, v) :: kvs)) ++ rest = ws ++ '\x7b' :: ((newline pretty ++
      pad pretty (indent + 1)) ++ '"' :: (key.toList.flatMap escape ++ ['"'] ++ (colon pretty ++ (dump pretty (indent + 1) v ++
        (comma kvs ++ (newline pretty ++ (dumpFields pretty (indent + 1) kvs ++ (pad pretty indent ++ ['\x7d'])))))) ++ rest)) := by
    rw [dump, dumpFields, writeEscaped]
    simp
  rw [hsplit, parseValue_object hws (space_append (newline_space pretty) (pad_space pretty (indent + 1))), rereadValue]
  cases hvs : rereadFields ((key, v) :: kvs) with
  | none =>
    rw [hvs] at hfields
    rcases hfields with ⟨e, he⟩
    exact ⟨e, result_error he⟩
  | some kvs' =>
    -- the fields come in the order of their keys, so each goes to the end of the map
    have hsame : kvs'.foldl (fun o kv => Object.set o kv.1 kv.2) [] = kvs' := by
      refine (foldl_set ?_).trans (List.nil_append _)
      rw [List.nil_append, rereadFields_keys hvs]
      exact hkeys
    rw [hvs, Option.map_some, hsame] at hfields
    exact result_ok hfields

/-- By the value: the items of an array or object have less text, so less fuel is enough. -/
theorem parseValue_dump (size : Nat) (pretty : Bool) (v : Value) : ∀ {indent fuel : Nat}, Sorted v →
    (dump pretty indent v).length ≤ fuel → ReadsItem pretty indent (parseValue size fuel) v := by
  induction v using Value.induct with
  | null =>
    intro indent fuel _ hfuel ws hws rest _
    obtain ⟨n, rfl⟩ := Nat.exists_eq_add_of_lt (Nat.lt_of_lt_of_le (by decide : 0 < 4) hfuel)
    rw [List.append_assoc]
    exact parseValue_dispatch hws rfl
  | bool b =>
    intro indent fuel _ hfuel ws hws rest _
    rw [List.append_assoc]
    cases b with
    | false =>
      obtain ⟨n, rfl⟩ := Nat.exists_eq_add_of_lt (Nat.lt_of_lt_of_le (by decide : 0 < 5) hfuel)
      exact parseValue_dispatch hws rfl
    | true =>
      obtain ⟨n, rfl⟩ := Nat.exists_eq_add_of_lt (Nat.lt_of_lt_of_le (by decide : 0 < 4) hfuel)
      exact parseValue_dispatch hws rfl
  | num x =>
    intro indent fuel _ hfuel ws hws rest hrest
    have hparse := parseNumber_parses size x rest hrest
    rcases numberLiteral_head x with ⟨c, cs, htext, hc⟩
    rw [dump, htext] at hfuel ⊢
    rw [htext] at hparse
    obtain ⟨n, rfl⟩ := Nat.exists_eq_add_of_lt (Nat.lt_of_lt_of_le (Nat.succ_pos _) hfuel)
    rw [List.append_assoc]
    have hrun : (parseValue size (0 + n + 1)).run (ws ++ (c :: cs ++ rest)) = _ := parseValue_number hws hc
    rw [hrun]
    exact hparse
  | str s =>
    intro indent fuel _ hfuel ws hws rest _
    obtain ⟨n, rfl⟩ := Nat.exists_eq_add_of_lt (Nat.lt_of_lt_of_le (Nat.succ_pos _) hfuel)
    rw [List.append_assoc]
    exact (parseValue_dispatch hws rfl).trans (parseString_run size s rest)
  | arr vs ih =>
    intro indent fuel hsorted hfuel ws hws rest hrest
    cases hsorted with
    | arr hsorted =>
    cases vs with
    | nil =>
      obtain ⟨n, rfl⟩ := Nat.exists_eq_add_of_lt (Nat.lt_of_lt_of_le (by decide : 0 < 2) hfuel)
      rw [List.append_assoc]
      exact parseValue_dispatch hws rfl
    | cons v vs =>
      have hlen : (dumpItems pretty (indent + 1) (v :: vs)).length + 2 ≤ fuel := by
        rw [dump] at hfuel
        simp only [List.length_append, List.length_singleton] at hfuel
        omega
      obtain ⟨n, rfl⟩ := Nat.exists_eq_add_of_lt (Nat.lt_of_lt_of_le (by omega) hlen : 1 < fuel)
      have hcount := length_le_dumpItems pretty (indent + 1) v vs
      refine array_readsItem (fun u hu => ?_) (by omega) ws hws rest hrest
      have hu' := dump_le_dumpItems pretty (indent + 1) hu
      exact ih u hu (hsorted u hu) (by omega)
  | obj kvs ih =>
    intro indent fuel hsorted hfuel ws hws rest hrest
    cases hsorted with
    | obj hkeys hsorted =>
    cases kvs with
    | nil =>
      obtain ⟨n, rfl⟩ := Nat.exists_eq_add_of_lt (Nat.lt_of_lt_of_le (by decide : 0 < 2) hfuel)
      rw [List.append_assoc]
      exact parseValue_dispatch hws rfl
    | cons kv kvs =>
      obtain ⟨key, v⟩ := kv
      have hlen : (dumpFields pretty (indent + 1) ((key, v) :: kvs)).length + 2 ≤ fuel := by
        rw [dump] at hfuel
        simp only [List.length_append, List.length_singleton] at hfuel
        omega
      obtain ⟨n, rfl⟩ := Nat.exists_eq_add_of_lt (Nat.lt_of_lt_of_le (by omega) hlen : 1 < fuel)
      have hcount := length_le_dumpFields pretty (indent + 1) (key, v) kvs
      refine object_readsItem hkeys (fun kv hkv => ?_) (by omega) ws hws rest hrest
      have hkv' := dump_le_dumpFields pretty (indent + 1) hkv
      exact ih kv hkv (hsorted kv hkv) (by omega)

/-- What was written is read, each number as its own text is. -/
theorem parse_stringify (pretty : Bool) {v : Value} (hv : Sorted v) :
    (∀ w, rereadValue v = some w → parse (stringify pretty v) = .ok w) ∧
      (rereadValue v = none → ∃ e, parse (stringify pretty v) = .error e) := by
  have hlen : (dump pretty 0 v).length ≤ (stringify pretty v).length + 1 := by
    rw [stringify, String.length_ofList, List.length_append]
    omega
  have hread := parseValue_dump (stringify pretty v).length pretty v hv hlen [] no_space (newline pretty)
    (by simpa using ends_number (newline_space pretty) (show Ends numberChar [] from fun c hc => by cases hc))
  rw [List.nil_append] at hread
  have htext : (stringify pretty v).toList = dump pretty 0 v ++ newline pretty := String.toList_ofList
  have hnl : (newline pretty).dropWhile isSpace = [] := by
    have h := dropWhile_space (s := []) (newline_space pretty) fun c hc => by cases hc
    rwa [List.append_nil] at h
  apply And.intro
  · intro w hw
    rw [hw] at hread
    rw [parse, htext, show StateT.run _ _ = _ from hread, ok_bind]
    show (if (newline pretty).dropWhile isSpace = [] then _ else _) = _
    rw [if_pos hnl]
  · intro hw
    rw [hw] at hread
    rcases hread with ⟨e, he⟩
    refine ⟨e, ?_⟩
    rw [parse, htext, show StateT.run _ _ = _ from he, error_bind]

/-! ## Values of integers -/

/-- Built from null, booleans, integers below `10 ^ 15`, strings, arrays and maps. -/
inductive Integral : Value → Prop
  | null : Integral .null
  | bool (b : Bool) : Integral (.bool b)
  | num {n : ℤ} : |n| < 10 ^ 15 → Integral (.num n)
  | str (s : String) : Integral (.str s)
  | arr {vs : List Value} : (∀ v ∈ vs, Integral v) → Integral (.arr vs)
  | obj {kvs : List (String × Value)} : (kvs.map (·.1)).Pairwise (· < ·) → (∀ kv ∈ kvs, Integral kv.2) → Integral (.obj kvs)

theorem Integral.sorted {v : Value} (h : Integral v) : Sorted v := by
  induction h with
  | null => exact .null
  | bool b => exact .bool b
  | num _ => exact .num _
  | str s => exact .str s
  | arr _ ih => exact .arr ih
  | obj hkeys _ ih => exact .obj hkeys ih

theorem rereadItems_same {vs : List Value} (h : ∀ v ∈ vs, rereadValue v = some v) : rereadItems vs = some vs := by
  induction vs with
  | nil => rfl
  | cons v vs ih =>
    have hrest := ih fun u hu => h u (List.mem_cons_of_mem _ hu)
    simp [rereadItems, h v List.mem_cons_self, hrest]

theorem rereadFields_same {kvs : List (String × Value)} (h : ∀ kv ∈ kvs, rereadValue kv.2 = some kv.2) :
    rereadFields kvs = some kvs := by
  induction kvs with
  | nil => rfl
  | cons kv kvs ih =>
    have hrest := ih fun u hu => h u (List.mem_cons_of_mem _ hu)
    simp [rereadFields, h kv List.mem_cons_self, hrest]

theorem Integral.reread {v : Value} (h : Integral v) : rereadValue v = some v := by
  induction h with
  | null => rfl
  | bool b => rfl
  | @num n hn =>
    have hcast : |(n : ℚ)| < 10 ^ 15 := by exact_mod_cast hn
    simp [rereadValue, reread_iff.mpr (.inl ⟨by simp, hcast⟩)]
  | str s => rfl
  | arr _ ih => simp [rereadValue, rereadItems_same ih]
  | obj _ _ ih => simp [rereadValue, rereadFields_same ih]

/-- A value of integers is parsed from its text, with either layout. -/
theorem parse_stringify_integral (pretty : Bool) {v : Value} (h : Integral v) : parse (stringify pretty v) = .ok v :=
  (parse_stringify pretty h.sorted).1 v h.reread

theorem nested_parses : parse (stringify true (.arr [.obj [("\"\x01", .num (-7))], .arr [], .null])) =
    .ok (.arr [.obj [("\"\x01", .num (-7))], .arr [], .null]) := by
  have hinner : Integral (.num (-7)) := by
    have h := Integral.num (n := -7) (by decide)
    simpa using h
  refine parse_stringify_integral true (.arr ?_)
  intro v hv
  simp only [List.mem_cons, List.not_mem_nil, or_false] at hv
  rcases hv with rfl | rfl | rfl
  · refine .obj (by simp) fun kv hkv => ?_
    rw [List.mem_singleton] at hkv
    exact hkv ▸ hinner
  · exact .arr (by simp)
  · exact .null

end Uaii.Ir.Json

namespace Uaii.Ir

/-! ## Casts of doubles -/

theorem trunc_int (n : Int) : trunc n = n := by
  unfold trunc
  split
  · exact Int.floor_intCast n
  · exact Int.ceil_intCast n

/-- An integer is cast to itself, where it fits. -/
theorem castI64_int {n k : Int} (hlo : -2 ^ 63 ≤ k) (hhi : k < 2 ^ 63) : castI64 n = .ok k ↔ n = k := by
  unfold castI64
  rw [trunc_int]
  apply Iff.intro
  · intro h
    split at h
    · exact Except.ok.inj h
    · cases h
  · rintro rfl
    have hlo' : (-2 ^ 63 - 1 : ℚ) < n := by exact_mod_cast (by omega : (-2 ^ 63 - 1 : Int) < n)
    have hhi' : (n : ℚ) < 2 ^ 63 := by exact_mod_cast hhi
    rw [if_pos ⟨hlo', hhi'⟩]

theorem castUnsigned_int {bits k : Nat} {n : Int} (hk : k < 2 ^ bits) : castUnsigned bits n = .ok k ↔ n = k := by
  unfold castUnsigned
  rw [trunc_int]
  apply Iff.intro
  · intro h
    split at h
    · rename_i hn
      have hlo : -1 < n := by exact_mod_cast hn.1
      have hnk := Except.ok.inj h
      omega
    · cases h
  · rintro rfl
    have hlo : (-1 : ℚ) < ((k : Int) : ℚ) := by exact_mod_cast (by omega : (-1 : Int) < k)
    have hhi : ((k : Int) : ℚ) < 2 ^ bits := by exact_mod_cast hk
    rw [if_pos ⟨hlo, hhi⟩, Int.toNat_natCast]

end Uaii.Ir
