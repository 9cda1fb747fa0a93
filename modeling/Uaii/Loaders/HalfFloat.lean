/-
  Uaii.Loaders.HalfFloat — what the narrow formats of safetensors keep of a float
  (`libs/uaii-loaders/src/safetensors.cpp`: `f32_to_f16_bits`, `f32_to_bf16_bits` and the
  `F16` and `BF16` branches of `safetensors_load_tensor_f32`).

  Proved, of a float that is a number of the narrow format: written and read back as
  `BF16` it is as it was (`bfloat_survives`); as `F16`, exactly when it is not subnormal
  there (`half_survives_iff`). The writer keeps a subnormal, and the reader takes it for
  a zero.
-/

import Uaii.Lib.Binary
import Uaii.Loaders.Safetensors

namespace Uaii.Loaders

open Binary

/-- A number of the format. -/
def Representable (f : Format) (x : UInt32) : Prop := ∃ v h, f.number h = some v ∧ binary32.number x.toNat = some v

/-- A number between zero and the smallest normal half. -/
def HalfSubnormal (x : UInt32) : Prop := ∃ neg q, binary32.number x.toNat = some (.finite neg q) ∧ 0 < q ∧ q < (2 : ℚ) ^ (-14 : ℤ)

/-! ## Bits as numbers -/

/-- The sign, the exponent and the mantissa that the conversions take out of a float. -/
theorem f32_fields (x : UInt32) :
    ((x >>> 16) &&& 0x8000).toNat = x.toNat / 2 ^ 31 * 2 ^ 15 ∧ ((x >>> 23) &&& 0xFF).toNat = x.toNat / 2 ^ 23 % 2 ^ 8 ∧
      (x &&& 0x7FFFFF).toNat = x.toNat % 2 ^ 23 := by
  have hlt := x.toNat_lt
  refine ⟨?_, ?_, ?_⟩
  · have hnat : ((x >>> 16) &&& 0x8000).toNat = (x.toNat >>> 16) &&& 2 ^ 15 := by simp
    rw [hnat, Nat.and_two_pow, Nat.testBit_shiftRight, Nat.testBit_eq_decide_div_mod_eq]
    rcases (show x.toNat / 2 ^ (16 + 15) = 0 ∨ x.toNat / 2 ^ (16 + 15) = 1 by omega) with hs | hs
    · rw [hs]
      rfl
    · rw [hs]
      rfl
  · have hnat : ((x >>> 23) &&& 0xFF).toNat = (x.toNat >>> 23) &&& (2 ^ 8 - 1) := by simp
    rw [hnat, Nat.and_two_pow_sub_one_eq_mod, Nat.shiftRight_eq_div_pow]
  · have hnat : (x &&& 0x7FFFFF).toNat = x.toNat &&& (2 ^ 23 - 1) := by simp
    rw [hnat, Nat.and_two_pow_sub_one_eq_mod]

theorem f16_fields (h : UInt16) :
    ((h.toUInt32 >>> 15) &&& 1).toNat = h.toNat / 2 ^ 15 ∧ ((h.toUInt32 >>> 10) &&& 0x1F).toNat = h.toNat / 2 ^ 10 % 2 ^ 5 ∧
      (h.toUInt32 &&& 0x3FF).toNat = h.toNat % 2 ^ 10 := by
  have hlt := h.toNat_lt
  refine ⟨?_, ?_, ?_⟩
  · have hnat : ((h.toUInt32 >>> 15) &&& 1).toNat = (h.toNat >>> 15) &&& (2 ^ 1 - 1) := by simp
    rw [hnat, Nat.and_two_pow_sub_one_eq_mod, Nat.shiftRight_eq_div_pow]
    omega
  · have hnat : ((h.toUInt32 >>> 10) &&& 0x1F).toNat = (h.toNat >>> 10) &&& (2 ^ 5 - 1) := by simp
    rw [hnat, Nat.and_two_pow_sub_one_eq_mod, Nat.shiftRight_eq_div_pow]
  · have hnat : (h.toUInt32 &&& 0x3FF).toNat = h.toNat &&& (2 ^ 10 - 1) := by simp
    rw [hnat, Nat.and_two_pow_sub_one_eq_mod]

/-- Bits set beside those of a smaller number. -/
theorem or_add {a b i : Nat} (h : b < 2 ^ i) : a * 2 ^ i ||| b = a * 2 ^ i + b := by
  rw [Nat.mul_comm]
  exact (Nat.two_pow_add_eq_or_of_lt h a).symm

/-- How the reader widens a half: a subnormal loses its mantissa. -/
theorem f16ToF32Bits_toNat (h : UInt16) {s e m : Nat} (hs : s < 2) (he : e < 32) (hm : m < 1024)
    (hh : h.toNat = s * 2 ^ 15 + e * 2 ^ 10 + m) :
    (f16ToF32Bits h).toNat =
      s * 2 ^ 31 + if e = 0 then 0 else if e = 31 then 255 * 2 ^ 23 + m * 2 ^ 13 else (e + 112) * 2 ^ 23 + m * 2 ^ 13 := by
  obtain ⟨hsign, hexp, hmant⟩ := f16_fields h
  have hs' : ((h.toUInt32 >>> 15) &&& 1).toNat = s := by omega
  have he' : ((h.toUInt32 >>> 10) &&& 0x1F).toNat = e := by omega
  have hm' : (h.toUInt32 &&& 0x3FF).toNat = m := by omega
  have hzero : (h.toUInt32 >>> 10) &&& 0x1F = 0 ↔ e = 0 := by rw [← UInt32.toNat_inj, he']; rfl
  have hinf : (h.toUInt32 >>> 10) &&& 0x1F = 31 ↔ e = 31 := by rw [← UInt32.toNat_inj, he']; rfl
  unfold f16ToF32Bits
  simp only [hzero, hinf]
  generalize (h.toUInt32 >>> 15) &&& 1 = S at hs'
  generalize (h.toUInt32 >>> 10) &&& 0x1F = E at he'
  generalize h.toUInt32 &&& 0x3FF = M at hm'
  have hS : (S <<< 31).toNat = s * 2 ^ 31 := by
    simp [hs', Nat.shiftLeft_eq]
    omega
  have hM : (M <<< 13).toNat = m * 2 ^ 13 := by
    simp [hm', Nat.shiftLeft_eq]
    omega
  split
  · simpa using hS
  split
  · rw [UInt32.toNat_or, UInt32.toNat_or, hS, hM, or_add (by decide), show s * 2 ^ 31 + (0x7F800000 : UInt32).toNat = (s * 2 ^ 8 + 255) * 2 ^ 23 by simp; omega,
      or_add (by omega)]
    omega
  · have hE : ((E + 112) <<< 23).toNat = (e + 112) * 2 ^ 23 := by
      simp [he', Nat.shiftLeft_eq]
      omega
    rw [UInt32.toNat_or, UInt32.toNat_or, hS, hM, hE, or_add (by omega),
      show s * 2 ^ 31 + (e + 112) * 2 ^ 23 = (s * 2 ^ 8 + (e + 112)) * 2 ^ 23 by omega, or_add (by omega)]
    omega


section Narrowing

variable {x : UInt32} {s e m : Nat}

theorem f32_parts (he : e < 256) (hm : m < 2 ^ 23) (hx : x.toNat = s * 2 ^ 31 + e * 2 ^ 23 + m) :
    ((x >>> 16) &&& 0x8000).toNat = s * 2 ^ 15 ∧ ((x >>> 23) &&& 0xFF).toNat = e ∧ (x &&& 0x7FFFFF).toNat = m := by
  have hs : x.toNat / 2 ^ 31 = s := by omega
  have he : x.toNat / 2 ^ 23 % 2 ^ 8 = e := by omega
  have hm : x.toNat % 2 ^ 23 = m := by omega
  have hfields := f32_fields x
  rwa [hs, he, hm] at hfields

/-- Below the smallest normal half the exponent field is 0. -/
theorem f32ToF16Bits_small (hs : s < 2) (he : e ≤ 112) (hm : m < 2 ^ 23) (hx : x.toNat = s * 2 ^ 31 + e * 2 ^ 23 + m) :
    ∃ k < 1024, (f32ToF16Bits x).toNat = s * 2 ^ 15 + k := by
  obtain ⟨hs', he', hm'⟩ := f32_parts (by omega) hm hx
  have hnot : ¬ (x >>> 23) &&& 0xFF = 0xFF := by
    rw [← UInt32.toNat_inj, he']
    show ¬ e = 255
    omega
  unfold f32ToF16Bits
  simp only [hnot, if_false, he']
  generalize (x >>> 16) &&& 0x8000 = S at hs'
  generalize x &&& 0x7FFFFF = M at hm'
  rw [if_pos (by omega)]
  split
  · refine ⟨0, by decide, ?_⟩
    rw [UInt32.toNat_toUInt16, hs']
    omega
  · have hshift : (1 - ((e : Int) - 127 + 15)).toNat.toUInt32.toNat % 32 = 113 - e := by
      rw [Nat.toUInt32, UInt32.toNat_ofNat']
      omega
    have hfull : (M ||| 0x800000).toNat = 2 ^ 23 + m := by
      rw [UInt32.toNat_or, hm', Nat.or_comm]
      exact (or_add (a := 1) hm).trans (by omega)
    refine ⟨(2 ^ 23 + m) / 2 ^ (113 - e) / 2 ^ 13, ?_, ?_⟩
    · have hle : (2 ^ 23 + m) / 2 ^ (113 - e) ≤ (2 ^ 23 + m) / 2 ^ 1 :=
        Nat.div_le_div_left (Nat.pow_le_pow_right (by decide) (by omega)) (by decide)
      omega
    · have hle : (2 ^ 23 + m) / 2 ^ (113 - e) ≤ (2 ^ 23 + m) / 2 ^ 1 :=
        Nat.div_le_div_left (Nat.pow_le_pow_right (by decide) (by omega)) (by decide)
      have hm2 : ((M ||| 0x800000) >>> (1 - ((e : Int) - 127 + 15)).toNat.toUInt32 >>> 13).toNat =
          (2 ^ 23 + m) / 2 ^ (113 - e) / 2 ^ 13 := by
        rw [UInt32.toNat_shiftRight, UInt32.toNat_shiftRight, hshift, hfull, Nat.shiftRight_eq_div_pow, Nat.shiftRight_eq_div_pow]
        rfl
      rw [UInt32.toNat_toUInt16, UInt32.toNat_or, hs', hm2, or_add (by omega)]
      omega

theorem f32ToF16Bits_infinite (hs : s < 2) (hx : x.toNat = s * 2 ^ 31 + 255 * 2 ^ 23) :
    (f32ToF16Bits x).toNat = s * 2 ^ 15 + 31 * 2 ^ 10 := by
  obtain ⟨hs', hexp, hmant⟩ := f32_parts (x := x) (s := s) (e := 255) (m := 0) (by decide) (by decide) (by rw [hx, Nat.add_zero])
  have he' : (x >>> 23) &&& 0xFF = 0xFF := UInt32.toNat_inj.mp hexp
  have hm' : x &&& 0x7FFFFF = 0 := UInt32.toNat_inj.mp hmant
  unfold f32ToF16Bits
  simp only [he', hm', if_true]
  rw [UInt32.toNat_toUInt16, UInt32.toNat_or, UInt32.toNat_or, hs', or_add (by decide)]
  show (s * 2 ^ 15 + 0x7C00 ||| 0) % 2 ^ 16 = _
  rw [Nat.or_zero]
  omega

/-- A normal half keeps the upper bits of the mantissa. -/
theorem f32ToF16Bits_normal (hs : s < 2) (he : 113 ≤ e) (he' : e ≤ 142) (hm : m < 2 ^ 23)
    (hx : x.toNat = s * 2 ^ 31 + e * 2 ^ 23 + m) :
    (f32ToF16Bits x).toNat = s * 2 ^ 15 + (e - 112) * 2 ^ 10 + m / 2 ^ 13 := by
  obtain ⟨hs', he'', hm'⟩ := f32_parts (by omega) hm hx
  have hnot : ¬ (x >>> 23) &&& 0xFF = 0xFF := by
    rw [← UInt32.toNat_inj, he'']
    show ¬ e = 255
    omega
  unfold f32ToF16Bits
  simp only [hnot, if_false, he'']
  generalize (x >>> 16) &&& 0x8000 = S at hs'
  generalize x &&& 0x7FFFFF = M at hm'
  rw [if_neg (by omega), if_neg (by omega)]
  have hexp16 : (((e : Int) - 127 + 15).toNat.toUInt32 <<< 10).toNat = (e - 112) * 2 ^ 10 := by
    rw [UInt32.toNat_shiftLeft, Nat.toUInt32, UInt32.toNat_ofNat', Nat.shiftLeft_eq]
    show (((e : Int) - 127 + 15).toNat % 2 ^ 32 * 2 ^ 10) % 2 ^ 32 = _
    omega
  have hmant16 : (M >>> 13).toNat = m / 2 ^ 13 := by
    rw [UInt32.toNat_shiftRight, hm', Nat.shiftRight_eq_div_pow]
    rfl
  rw [UInt32.toNat_toUInt16, UInt32.toNat_or, UInt32.toNat_or, hs', hexp16, hmant16, or_add (by omega),
    show s * 2 ^ 15 + (e - 112) * 2 ^ 10 = (s * 2 ^ 5 + (e - 112)) * 2 ^ 10 by omega, or_add (by omega)]
  omega

end Narrowing

/-! ## What survives -/

section Survives

variable {x : UInt32}

/-- The fields of a float. -/
theorem f32_split (x : UInt32) : x.toNat = x.toNat / 2 ^ 31 * 2 ^ 31 + binary32.exponent x.toNat * 2 ^ 23 + binary32.fraction x.toNat ∧
    x.toNat / 2 ^ 31 < 2 ∧ binary32.exponent x.toNat < 256 ∧ binary32.fraction x.toNat < 2 ^ 23 := by
  have hlt := x.toNat_lt
  show x.toNat = x.toNat / 2 ^ 31 * 2 ^ 31 + x.toNat / 2 ^ 23 % 2 ^ 8 * 2 ^ 23 + x.toNat % 2 ^ 23 ∧ _ ∧ x.toNat / 2 ^ 23 % 2 ^ 8 < 256 ∧
    x.toNat % 2 ^ 23 < 2 ^ 23
  omega

/-- A half that is a float's number: infinite, normal, or below the normal halves. -/
theorem half_cases (h : Representable binary16 x) :
    (binary32.exponent x.toNat = 255 ∧ binary32.fraction x.toNat = 0) ∨
      (113 ≤ binary32.exponent x.toNat ∧ binary32.exponent x.toNat ≤ 142 ∧ binary32.fraction x.toNat % 2 ^ 13 = 0) ∨
      binary32.exponent x.toNat ≤ 112 := by
  obtain ⟨v, w, hw, hv⟩ := h
  obtain ⟨-, ⟨-, -, hexp, hfrac⟩ | ⟨hexpH, hexp, hunits⟩⟩ := number_both (d := 125) (by decide) hw hv
  · exact .inl ⟨hexp, hfrac⟩
  · rcases Nat.lt_or_ge 112 (binary32.exponent x.toNat) with hbig | hsmall
    · have hzero : binary16.exponent w ≠ 0 := by
        intro hz
        have hfrac := binary16.fraction_lt w
        rw [units_zero hz, units_normal (show binary32.exponent x.toNat ≠ 0 by omega)] at hunits
        have hpow : 2 ^ 112 ≤ 2 ^ (binary32.exponent x.toNat - 1) := Nat.pow_le_pow_right (by decide) (by omega)
        have hlow : 2 ^ 23 * 2 ^ 112 ≤ (2 ^ binary32.mbits + binary32.fraction x.toNat) * 2 ^ (binary32.exponent x.toNat - 1) :=
          Nat.mul_le_mul (Nat.le_add_right _ _) hpow
        have hhigh : binary16.fraction w * 2 ^ 125 < 2 ^ 10 * 2 ^ 125 := Nat.mul_lt_mul_of_pos_right hfrac (by positivity)
        rw [hunits] at hhigh
        exact absurd hlow (not_le.mpr (hhigh.trans_eq (by norm_num)))
      obtain ⟨hfrac, hexp'⟩ := normal_fields (f := binary16) (g := binary32) (d := 13) (k := 112) rfl hunits hzero (by omega)
      have hlt : binary16.exponent w < 32 := Nat.mod_lt _ (by decide)
      have hne : binary16.exponent w ≠ 31 := hexpH
      exact .inr (.inl ⟨by omega, by omega, by omega⟩)
    · exact .inr (.inr hsmall)

theorem halfSubnormal_iff (h : binary32.exponent x.toNat ≠ 255) :
    HalfSubnormal x ↔ binary32.exponent x.toNat ≤ 112 ∧ binary32.units x.toNat ≠ 0 := by
  have hnumber : binary32.number x.toNat = some (.finite (binary32.sign x.toNat) (binary32.units x.toNat * (2 : ℚ) ^ (-149 : ℤ))) :=
    if_neg h
  have hulp : (0 : ℚ) < (2 : ℚ) ^ (-149 : ℤ) := by positivity
  have hpow : (2 : ℚ) ^ (-14 : ℤ) = 2 ^ 135 * (2 : ℚ) ^ (-149 : ℤ) := by norm_num
  have hsmall : binary32.units x.toNat < 2 ^ 135 ↔ binary32.exponent x.toNat ≤ 112 := by
    have hfrac : binary32.fraction x.toNat < 2 ^ 23 := binary32.fraction_lt _
    by_cases hz : binary32.exponent x.toNat = 0
    · rw [units_zero hz, hz]
      omega
    · rw [units_normal hz]
      show (2 ^ 23 + _) * _ < _ ↔ _
      rcases Nat.lt_or_ge 112 (binary32.exponent x.toNat) with hbig | hle
      · have hpow : 2 ^ 112 ≤ 2 ^ (binary32.exponent x.toNat - 1) := Nat.pow_le_pow_right (by decide) (by omega)
        have hlow : 2 ^ 23 * 2 ^ 112 ≤ (2 ^ 23 + binary32.fraction x.toNat) * 2 ^ (binary32.exponent x.toNat - 1) :=
          Nat.mul_le_mul (Nat.le_add_right _ _) hpow
        exact ⟨fun hlt => absurd hlow (not_le.mpr (hlt.trans_eq (by norm_num))), fun hle => by omega⟩
      · have hpow : 2 ^ (binary32.exponent x.toNat - 1) ≤ 2 ^ 111 := Nat.pow_le_pow_right (by decide) (by omega)
        have hhigh : (2 ^ 23 + binary32.fraction x.toNat) * 2 ^ (binary32.exponent x.toNat - 1) < 2 ^ 24 * 2 ^ 111 :=
          Nat.mul_lt_mul_of_lt_of_le (by omega) hpow (by positivity)
        exact ⟨fun _ => hle, fun _ => hhigh.trans_eq (by norm_num)⟩
  rw [← hsmall]
  apply Iff.intro
  · intro ⟨neg, q, hq, hpos, hlt⟩
    obtain ⟨-, rfl⟩ := Number.finite.inj (Option.some.inj (hnumber.symm.trans hq))
    rw [hpow, mul_lt_mul_iff_left₀ hulp] at hlt
    refine ⟨by exact_mod_cast hlt, ?_⟩
    intro hz
    rw [hz] at hpos
    simp at hpos
  · intro ⟨hlt, hne⟩
    refine ⟨_, _, hnumber, mul_pos (by exact_mod_cast Nat.pos_of_ne_zero hne) hulp, ?_⟩
    rw [hpow, mul_lt_mul_iff_left₀ hulp]
    exact_mod_cast hlt

/-- What `F16` keeps: a number that is not subnormal there. -/
theorem half_survives_iff (h : Representable binary16 x) : f16ToF32Bits (f32ToF16Bits x) = x ↔ ¬ HalfSubnormal x := by
  obtain ⟨hx, hs, hE, hM⟩ := f32_split x
  rw [← UInt32.toNat_inj]
  rcases half_cases h with ⟨hinf, hzero⟩ | ⟨hlo, hhi, hlow⟩ | hsmall
  · rw [hinf, hzero, Nat.add_zero] at hx
    have hhalf := (f32ToF16Bits_infinite hs hx).trans (Nat.add_zero _).symm
    rw [f16ToF32Bits_toNat (e := 31) (m := 0) _ hs (by decide) (by decide) hhalf, if_neg (by decide), if_pos rfl]
    have hno : ¬ HalfSubnormal x := by
      intro ⟨neg, q, hq, _⟩
      have hnumber : binary32.number x.toNat = some (.infinite (binary32.sign x.toNat)) := by
        exact (if_pos hinf).trans (if_pos hzero)
      rw [hnumber] at hq
      cases hq
    exact ⟨fun _ => hno, fun _ => by omega⟩
  · rw [f16ToF32Bits_toNat _ hs (by omega) (by omega) (f32ToF16Bits_normal hs hlo hhi hM hx), halfSubnormal_iff (by omega),
      if_neg (by omega), if_neg (by omega)]
    exact ⟨fun _ h => by omega, fun _ => by omega⟩
  · obtain ⟨k, hk, hbits⟩ := f32ToF16Bits_small hs hsmall hM hx
    rw [f16ToF32Bits_toNat (e := 0) _ hs (by decide) hk (by rw [hbits, Nat.zero_mul, Nat.add_zero]), halfSubnormal_iff (by omega), if_pos rfl]
    have hunits : binary32.units x.toNat = 0 ↔ binary32.exponent x.toNat = 0 ∧ binary32.fraction x.toNat = 0 := by
      by_cases hz : binary32.exponent x.toNat = 0
      · rw [units_zero hz]
        simp [hz]
      · rw [units_normal hz]
        have hpos : 0 < (2 ^ binary32.mbits + binary32.fraction x.toNat) * 2 ^ (binary32.exponent x.toNat - 1) := by positivity
        omega
    omega

/-- `BF16` keeps its numbers. -/
theorem bfloat_survives (h : Representable bfloat16 x) : bf16ToF32Bits (f32ToBf16Bits x) = x := by
  have hlt := x.toNat_lt
  have hlow : x.toNat % 2 ^ 16 = 0 := by
    obtain ⟨hx, -, -, -⟩ := f32_split x
    obtain ⟨v, w, hw, hv⟩ := h
    obtain ⟨-, ⟨-, -, hexp, hfrac⟩ | ⟨hexpB, hexp, hunits⟩⟩ := number_both (d := 16) (by decide) hw hv
    · omega
    · have hfrac : bfloat16.fraction w < 2 ^ 7 := bfloat16.fraction_lt w
      have hfrac' : binary32.fraction x.toNat < 2 ^ 23 := binary32.fraction_lt _
      by_cases hz : bfloat16.exponent w = 0
      · rw [units_zero hz] at hunits
        by_cases hz' : binary32.exponent x.toNat = 0
        · rw [units_zero hz'] at hunits
          omega
        · rw [units_normal hz'] at hunits
          have hpos : 0 < 2 ^ (binary32.exponent x.toNat - 1) := by positivity
          have hle := Nat.le_mul_of_pos_right (2 ^ binary32.mbits + binary32.fraction x.toNat) hpos
          have hmb : binary32.mbits = 23 := rfl
          rw [hmb] at hle hunits
          omega
      · by_cases hz' : binary32.exponent x.toNat = 0
        · rw [units_normal hz, units_zero hz'] at hunits
          have hpos : 0 < 2 ^ (bfloat16.exponent w - 1) := by positivity
          have hle := Nat.le_mul_of_pos_right (2 ^ bfloat16.mbits + bfloat16.fraction w) hpos
          have hmb : bfloat16.mbits = 7 := rfl
          rw [hmb] at hle hunits
          omega
        · obtain ⟨hf, -⟩ := normal_fields (f := bfloat16) (g := binary32) (d := 16) (k := 0) rfl hunits hz hz'
          omega
  have hlsb : ((x >>> 16) &&& 1).toNat ≤ 1 := by
    have hnat : ((x >>> 16) &&& 1).toNat = (x.toNat >>> 16) &&& (2 ^ 1 - 1) := by simp
    rw [hnat, Nat.and_two_pow_sub_one_eq_mod]
    omega
  have hround : (f32ToBf16Bits x).toNat = x.toNat / 2 ^ 16 := by
    unfold f32ToBf16Bits
    generalize (x >>> 16) &&& 1 = l at hlsb
    have hsum : (x + (0x7FFF + l)).toNat = x.toNat + (0x7FFF + l.toNat) := by
      have hl : (0x7FFF + l).toNat = 0x7FFF + l.toNat := by
        have hconst : (0x7FFF : UInt32).toNat = 0x7FFF := rfl
        rw [UInt32.toNat_add, hconst]
        omega
      rw [UInt32.toNat_add, hl]
      omega
    show ((x + (0x7FFF + l)) >>> 16).toUInt16.toNat = _
    generalize x + (0x7FFF + l) = y at hsum
    have hdiv : (y >>> 16).toNat = y.toNat / 2 ^ 16 := by
      rw [UInt32.toNat_shiftRight, Nat.shiftRight_eq_div_pow]
      rfl
    rw [UInt32.toNat_toUInt16, hdiv]
    omega
  have hwide : (f32ToBf16Bits x).toUInt32.toNat = x.toNat / 2 ^ 16 := by rw [UInt16.toNat_toUInt32, hround]
  unfold bf16ToF32Bits
  generalize (f32ToBf16Bits x).toUInt32 = y at hwide
  have hshift : (y <<< 16).toNat = y.toNat * 2 ^ 16 % 2 ^ 32 := by
    rw [UInt32.toNat_shiftLeft, Nat.shiftLeft_eq]
    rfl
  rw [← UInt32.toNat_inj, hshift]
  omega

end Survives

end Uaii.Loaders
