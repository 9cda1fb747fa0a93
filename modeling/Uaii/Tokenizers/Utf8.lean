/-
  Uaii.Tokenizers.Utf8 — `utf8_encode` and `utf8_next`
  (`libs/uaii-tokenizers/src/bpe_tokenizer.cpp`).

  A `std::string` is its bytes, a `char32_t` a number. `utf8_next` checks no
  continuation byte and accepts overlong forms, so it also reads what is not UTF-8.

  Proved: on scalar values the encoder writes UTF-8 (`utf8Encode_char`), and reading
  back what it wrote gives the code points (`codepoints_encode`).
-/

import Mathlib.Data.Nat.Bitwise

namespace Uaii.Tokenizers

abbrev Bytes := List UInt8

def utf8Encode (cp : Nat) : Bytes :=
  if cp ≤ 0x7F then [.ofNat cp]
  else if cp ≤ 0x7FF then [.ofNat (0xC0 ||| ((cp >>> 6) &&& 0x1F)), .ofNat (0x80 ||| (cp &&& 0x3F))]
  else if cp ≤ 0xFFFF then
    [.ofNat (0xE0 ||| ((cp >>> 12) &&& 0x0F)), .ofNat (0x80 ||| ((cp >>> 6) &&& 0x3F)), .ofNat (0x80 ||| (cp &&& 0x3F))]
  else
    [.ofNat (0xF0 ||| ((cp >>> 18) &&& 0x07)), .ofNat (0x80 ||| ((cp >>> 12) &&& 0x3F)),
      .ofNat (0x80 ||| ((cp >>> 6) &&& 0x3F)), .ofNat (0x80 ||| (cp &&& 0x3F))]

/-- The payload of the `i`-th byte after the first. -/
def tailBits (s : Bytes) (i : Nat) : Nat := (s.getD i 0).toNat &&& 0x3F

/-- The next code point and what follows it. -/
def utf8Next : Bytes → Option (Nat × Bytes)
  | [] => none
  | c0 :: s =>
    if c0.toNat < 0x80 then some (c0.toNat, s)
    else if c0.toNat &&& 0xE0 = 0xC0 ∧ 1 ≤ s.length then some ((c0.toNat &&& 0x1F) <<< 6 ||| tailBits s 0, s.drop 1)
    else if c0.toNat &&& 0xF0 = 0xE0 ∧ 2 ≤ s.length then
      some ((c0.toNat &&& 0x0F) <<< 12 ||| tailBits s 0 <<< 6 ||| tailBits s 1, s.drop 2)
    else if c0.toNat &&& 0xF8 = 0xF0 ∧ 3 ≤ s.length then
      some ((c0.toNat &&& 0x07) <<< 18 ||| tailBits s 0 <<< 12 ||| tailBits s 1 <<< 6 ||| tailBits s 2, s.drop 3)
    else some (c0.toNat, s)

def codepointsFrom : Nat → Bytes → List Nat
  | 0, _ => []
  | fuel + 1, s =>
    match utf8Next s with
    | none => []
    | some (cp, rest) => cp :: codepointsFrom fuel rest

/-- `while (utf8_next(s, &i, &cp))`. Every call takes at least one byte. -/
def codepoints (s : Bytes) : List Nat := codepointsFrom s.length s

/-! ## Code points -/

/-- A code point takes a byte or more. -/
theorem utf8Next_drop {s rest : Bytes} {cp : Nat} (h : utf8Next s = some (cp, rest)) :
    ∃ k, 0 < k ∧ k ≤ s.length ∧ rest = s.drop k := by
  cases s with
  | nil => cases h
  | cons c s =>
    rw [utf8Next] at h
    split_ifs at h with h1 h2 h3 h4
    · cases h
      exact ⟨1, by decide, by simp, rfl⟩
    · cases h
      exact ⟨2, by decide, Nat.succ_le_succ h2.2, rfl⟩
    · cases h
      exact ⟨3, by decide, Nat.succ_le_succ h3.2, rfl⟩
    · cases h
      exact ⟨4, by decide, Nat.succ_le_succ h4.2, rfl⟩
    · cases h
      exact ⟨1, by decide, by simp, rfl⟩

theorem utf8Next_shorter {s rest : Bytes} {cp : Nat} (h : utf8Next s = some (cp, rest)) : rest.length < s.length := by
  obtain ⟨k, hk, hle, rfl⟩ := utf8Next_drop h
  rw [List.length_drop]
  omega

theorem codepointsFrom_fuel : ∀ {fuel : Nat} {s : Bytes}, s.length ≤ fuel → codepointsFrom fuel s = codepoints s := by
  have hmore : ∀ (n fuel : Nat) (s : Bytes), s.length ≤ n → s.length ≤ fuel → codepointsFrom fuel s = codepointsFrom n s := by
    intro n
    induction n with
    | zero =>
      intro fuel s hn _
      rw [List.length_eq_zero_iff.mp (Nat.le_zero.mp hn)]
      cases fuel <;> rfl
    | succ n ih =>
      intro fuel s hn hf
      rcases fuel with _ | fuel
      · rw [List.length_eq_zero_iff.mp (Nat.le_zero.mp hf)]
        rfl
      · rw [codepointsFrom, codepointsFrom]
        cases hnext : utf8Next s with
        | none => rfl
        | some r =>
          obtain ⟨cp, rest⟩ := r
          have hlt := utf8Next_shorter hnext
          simp only [ih fuel rest (by omega) (by omega)]
  intro fuel s h
  exact hmore s.length fuel s (Nat.le_refl _) h

theorem codepoints_next {s rest : Bytes} {cp : Nat} (h : utf8Next s = some (cp, rest)) : codepoints s = cp :: codepoints rest := by
  have hlt := utf8Next_shorter h
  obtain ⟨n, hn⟩ := Nat.exists_eq_add_one_of_ne_zero (show s.length ≠ 0 by omega)
  rw [codepoints, hn, codepointsFrom, h]
  simp only [codepointsFrom_fuel (show rest.length ≤ n by omega)]

/-! ## Bits as arithmetic -/

theorem and_1F (n : Nat) : n &&& 0x1F = n % 32 := Nat.and_two_pow_sub_one_eq_mod n 5
theorem and_3F (n : Nat) : n &&& 0x3F = n % 64 := Nat.and_two_pow_sub_one_eq_mod n 6
theorem and_0F (n : Nat) : n &&& 0x0F = n % 16 := Nat.and_two_pow_sub_one_eq_mod n 4
theorem and_07 (n : Nat) : n &&& 0x07 = n % 8 := Nat.and_two_pow_sub_one_eq_mod n 3

theorem or_80 {n : Nat} (h : n < 64) : 0x80 ||| n = n + 0x80 := by
  rw [Nat.add_comm]
  exact (Nat.two_pow_add_eq_or_of_lt (show n < 2 ^ 7 by omega) 1).symm

theorem or_C0 {n : Nat} (h : n < 32) : 0xC0 ||| n = n + 0xC0 := by
  rw [Nat.add_comm]
  exact (Nat.two_pow_add_eq_or_of_lt (show n < 2 ^ 6 by omega) 3).symm

theorem or_E0 {n : Nat} (h : n < 16) : 0xE0 ||| n = n + 0xE0 := by
  rw [Nat.add_comm]
  exact (Nat.two_pow_add_eq_or_of_lt (show n < 2 ^ 5 by omega) 7).symm

theorem or_F0 {n : Nat} (h : n < 8) : 0xF0 ||| n = n + 0xF0 := by
  rw [Nat.add_comm]
  exact (Nat.two_pow_add_eq_or_of_lt (show n < 2 ^ 4 by omega) 15).symm

/-- Placing `b` under `a`. -/
theorem shift_or {a b k : Nat} (h : b < 2 ^ k) : a <<< k ||| b = a * 2 ^ k + b := by
  rw [Nat.shiftLeft_eq, Nat.mul_comm]
  exact (Nat.two_pow_add_eq_or_of_lt h a).symm

/-- The encoder is UTF-8. -/
theorem utf8Encode_char (c : Char) : utf8Encode c.toNat = String.utf8EncodeChar c := by
  have hdiv : ∀ k, c.toNat >>> k = c.toNat / 2 ^ k := Nat.shiftRight_eq_div_pow c.toNat
  have hmod : ∀ n : Nat, n % 64 < 64 := fun n => Nat.mod_lt n (by omega)
  unfold utf8Encode String.utf8EncodeChar
  simp only [and_1F, and_3F, and_0F, and_07, hdiv, or_80 (hmod _), or_C0 (Nat.mod_lt _ (show 0 < 32 by omega)),
    or_E0 (Nat.mod_lt _ (show 0 < 16 by omega)), or_F0 (Nat.mod_lt _ (show 0 < 8 by omega))]
  rfl

/-! ## Reading back -/

/-- The three marks a first byte is told by. -/
theorem mark_and {b : Nat} (h : b < 256) :
    b &&& 0xE0 = b / 32 * 32 ∧ b &&& 0xF0 = b / 16 * 16 ∧ b &&& 0xF8 = b / 8 * 8 := by
  have hall : ∀ b : Fin 256, b.val &&& 0xE0 = b.val / 32 * 32 ∧ b.val &&& 0xF0 = b.val / 16 * 16 ∧
      b.val &&& 0xF8 = b.val / 8 * 8 := by decide +kernel
  exact hall ⟨b, h⟩

theorem utf8Next_encode {cp : Nat} (h : cp < 2 ^ 21) (rest : Bytes) :
    utf8Next (utf8Encode cp ++ rest) = some (cp, rest) := by
  have hdiv : ∀ k, cp >>> k = cp / 2 ^ k := Nat.shiftRight_eq_div_pow cp
  have htail : ∀ n : Nat, (UInt8.ofNat (n % 64 + 0x80)).toNat % 64 = n % 64 := by
    intro n
    rw [UInt8.toNat_ofNat']
    omega
  have hmod : ∀ n : Nat, n % 64 < 64 := fun n => Nat.mod_lt n (by omega)
  have hlow : ∀ a n : Nat, a <<< 6 ||| n % 64 = a * 2 ^ 6 + n % 64 := fun a n => shift_or (hmod n)
  unfold utf8Encode
  simp only [and_1F, and_3F, and_0F, and_07, hdiv, or_80 (hmod _), or_C0 (Nat.mod_lt _ (show 0 < 32 by omega)),
    or_E0 (Nat.mod_lt _ (show 0 < 16 by omega)), or_F0 (Nat.mod_lt _ (show 0 < 8 by omega))]
  by_cases h1 : cp ≤ 0x7F
  · rw [if_pos h1]
    have hc : (UInt8.ofNat cp).toNat = cp := UInt8.toNat_ofNat_of_lt' (show cp < 256 by omega)
    show utf8Next (UInt8.ofNat cp :: rest) = _
    rw [utf8Next, hc, if_pos (by omega)]
  rw [if_neg h1]
  by_cases h2 : cp ≤ 0x7FF
  · rw [if_pos h2]
    have hc : (UInt8.ofNat (cp / 2 ^ 6 % 32 + 0xC0)).toNat = cp / 2 ^ 6 % 32 + 0xC0 :=
      UInt8.toNat_ofNat_of_lt' (show _ < 256 by omega)
    obtain ⟨hE0, -, -⟩ := mark_and (show cp / 2 ^ 6 % 32 + 0xC0 < 256 by omega)
    show utf8Next (_ :: _ :: rest) = _
    rw [utf8Next, hc, if_neg (by omega), if_pos ⟨by rw [hE0]; omega, by simp⟩]
    simp only [tailBits, List.getD_cons_zero, List.drop_one, List.tail_cons, and_1F, and_3F, htail, hlow,
      Option.some.injEq, Prod.mk.injEq, and_true]
    omega
  rw [if_neg h2]
  by_cases h3 : cp ≤ 0xFFFF
  · rw [if_pos h3]
    have hc : (UInt8.ofNat (cp / 2 ^ 12 % 16 + 0xE0)).toNat = cp / 2 ^ 12 % 16 + 0xE0 :=
      UInt8.toNat_ofNat_of_lt' (show _ < 256 by omega)
    obtain ⟨hE0, hF0, -⟩ := mark_and (show cp / 2 ^ 12 % 16 + 0xE0 < 256 by omega)
    show utf8Next (_ :: _ :: _ :: rest) = _
    rw [utf8Next, hc, if_neg (by omega), if_neg (fun hm => by rw [hE0] at hm; omega),
      if_pos ⟨by rw [hF0]; omega, by simp⟩]
    simp only [tailBits, List.getD_cons_zero, List.getD_cons_succ, List.drop_succ_cons, List.drop_zero, and_0F, and_3F, htail]
    rw [Nat.or_assoc, hlow, shift_or (show _ < 2 ^ 12 by omega)]
    simp only [Option.some.injEq, Prod.mk.injEq, and_true]
    omega
  · rw [if_neg h3]
    have hc : (UInt8.ofNat (cp / 2 ^ 18 % 8 + 0xF0)).toNat = cp / 2 ^ 18 % 8 + 0xF0 :=
      UInt8.toNat_ofNat_of_lt' (show _ < 256 by omega)
    obtain ⟨hE0, hF0, hF8⟩ := mark_and (show cp / 2 ^ 18 % 8 + 0xF0 < 256 by omega)
    show utf8Next (_ :: _ :: _ :: _ :: rest) = _
    rw [utf8Next, hc, if_neg (by omega), if_neg (fun hm => by rw [hE0] at hm; omega),
      if_neg (fun hm => by rw [hF0] at hm; omega), if_pos ⟨by rw [hF8]; omega, by simp⟩]
    simp only [tailBits, List.getD_cons_zero, List.getD_cons_succ, List.drop_succ_cons, List.drop_zero, and_07, and_3F, htail]
    rw [Nat.or_assoc, Nat.or_assoc, hlow, shift_or (show _ < 2 ^ 12 by omega), shift_or (show _ < 2 ^ 18 by omega)]
    simp only [Option.some.injEq, Prod.mk.injEq, and_true]
    omega

theorem utf8Encode_length_pos (cp : Nat) : 0 < (utf8Encode cp).length := by
  unfold utf8Encode
  repeat' split
  all_goals simp

/-- Code points that one `char32_t` of UTF-8 can hold. -/
theorem codepoints_encode : ∀ (cps : List Nat), (∀ cp ∈ cps, cp < 2 ^ 21) → codepoints (cps.flatMap utf8Encode) = cps := by
  have hfrom : ∀ (cps : List Nat) (fuel : Nat), (∀ cp ∈ cps, cp < 2 ^ 21) → (cps.flatMap utf8Encode).length ≤ fuel →
      codepointsFrom fuel (cps.flatMap utf8Encode) = cps := by
    intro cps
    induction cps with
    | nil => intro fuel _ _; cases fuel <;> rfl
    | cons cp cps ih =>
      intro fuel hlt hfuel
      rw [List.flatMap_cons, List.length_append] at hfuel
      have hpos := utf8Encode_length_pos cp
      cases fuel with
      | zero => omega
      | succ fuel =>
        rw [List.flatMap_cons, codepointsFrom, utf8Next_encode (hlt cp List.mem_cons_self)]
        show cp :: codepointsFrom fuel (cps.flatMap utf8Encode) = cp :: cps
        rw [ih fuel (fun c hc => hlt c (List.mem_cons_of_mem _ hc)) (by omega)]
  intro cps hlt
  exact hfrom cps _ hlt (Nat.le_refl _)

end Uaii.Tokenizers
