/-
  Uaii.Lib.Binary — binary interchange formats: what a bit pattern stands for.

  A pattern is a sign, an exponent field and a fraction. Magnitudes are counted in the
  format's smallest number (`Format.units`, `Format.ulp`); a pattern that is no number
  stands for none.

  A significand of full length and its shift are determined by what they make
  (`normal_inj`). A number of two formats has the same units, up to the ratio of the
  smallest numbers (`number_both`).
-/

import Mathlib.Data.Rat.Defs
import Mathlib.Algebra.Order.Field.Rat
import Mathlib.Tactic.FieldSimp
import Mathlib.Tactic.Linarith
import Mathlib.Tactic.Positivity
import Mathlib.Tactic.Ring

namespace Binary

/-- The widths of the exponent and the fraction. -/
structure Format where
  ebits : Nat
  mbits : Nat
  deriving DecidableEq, Repr

inductive Number where
  | finite (neg : Bool) (magnitude : ℚ)
  | infinite (neg : Bool)
  deriving DecidableEq

namespace Format

variable (f : Format)

def sign (x : Nat) : Bool := x / 2 ^ (f.ebits + f.mbits) % 2 = 1

def exponent (x : Nat) : Nat := x / 2 ^ f.mbits % 2 ^ f.ebits

def fraction (x : Nat) : Nat := x % 2 ^ f.mbits

/-- The magnitude, in the smallest number. -/
def units (x : Nat) : Nat :=
  if f.exponent x = 0 then f.fraction x else (2 ^ f.mbits + f.fraction x) * 2 ^ (f.exponent x - 1)

/-- The exponent of the smallest number. -/
def ulp : ℤ := 2 - 2 ^ (f.ebits - 1) - f.mbits

def number (x : Nat) : Option Number :=
  if f.exponent x = 2 ^ f.ebits - 1 then if f.fraction x = 0 then some (.infinite (f.sign x)) else none
  else some (.finite (f.sign x) (f.units x * 2 ^ f.ulp))

end Format

def binary32 : Format := ⟨8, 23⟩

def binary16 : Format := ⟨5, 10⟩

def bfloat16 : Format := ⟨8, 7⟩

/-! ## Units -/

/-- A significand of `p + 1` bits and its shift. -/
theorem normal_inj {p a b i j : Nat} (ha : 2 ^ p ≤ a) (ha' : a < 2 ^ (p + 1)) (hb : 2 ^ p ≤ b) (hb' : b < 2 ^ (p + 1))
    (h : a * 2 ^ i = b * 2 ^ j) : a = b ∧ i = j := by
  have hle : ∀ {a b i j : Nat}, 2 ^ p ≤ a → b < 2 ^ (p + 1) → a * 2 ^ i = b * 2 ^ j → i ≤ j := by
    intro a b i j ha hb h
    by_contra hlt
    obtain ⟨k, rfl⟩ := Nat.exists_eq_add_of_lt (not_le.mp hlt)
    have hpos : 0 < 2 ^ j := by positivity
    have hcancel : a * 2 ^ (k + 1) * 2 ^ j = b * 2 ^ j := by
      rw [← h]
      ring
    have hb2 : b = a * 2 ^ k * 2 := by
      rw [← Nat.eq_of_mul_eq_mul_right hpos hcancel]
      ring
    have hk : a ≤ a * 2 ^ k := Nat.le_mul_of_pos_right a (by positivity)
    rw [Nat.pow_succ] at hb
    omega
  have hij : i = j := le_antisymm (hle ha hb' h) (hle hb ha' h.symm)
  subst hij
  exact ⟨Nat.eq_of_mul_eq_mul_right (by positivity) h, rfl⟩

section Fields

variable {f g : Format} {x y : Nat}

theorem Format.fraction_lt (f : Format) (x : Nat) : f.fraction x < 2 ^ f.mbits := Nat.mod_lt _ (by positivity)

theorem units_zero {f : Format} {n : Nat} (h : f.exponent n = 0) : f.units n = f.fraction n := by rw [Format.units, if_pos h]

theorem units_normal {f : Format} {n : Nat} (h : f.exponent n ≠ 0) :
    f.units n = (2 ^ f.mbits + f.fraction n) * 2 ^ (f.exponent n - 1) := by rw [Format.units, if_neg h]

/-- The narrower significand and its shift, in the units of the wider. -/
theorem normal_fields {f g : Format} {h n d : Nat} (hm : g.mbits = f.mbits + d) {k : Nat} (hk : f.units h * 2 ^ (d + k) = g.units n)
    (hf : f.exponent h ≠ 0) (hg : g.exponent n ≠ 0) :
    g.fraction n = f.fraction h * 2 ^ d ∧ g.exponent n = f.exponent h + k := by
  have hfrac := f.fraction_lt h
  have hfrac' := g.fraction_lt n
  rw [units_normal hf, units_normal hg] at hk
  have hpow : 2 ^ g.mbits = 2 ^ f.mbits * 2 ^ d := by rw [hm, Nat.pow_add]
  have hpos : 0 < 2 ^ d := by positivity
  have hprod : (2 ^ f.mbits + f.fraction h) * 2 ^ d * 2 ^ (f.exponent h - 1 + k) =
      (2 ^ g.mbits + g.fraction n) * 2 ^ (g.exponent n - 1) := by
    rw [← hk, Nat.pow_add, Nat.pow_add]
    ring
  have hlow : 2 ^ g.mbits ≤ (2 ^ f.mbits + f.fraction h) * 2 ^ d := by
    rw [hpow]
    exact Nat.mul_le_mul_right _ (Nat.le_add_right _ _)
  have hhigh : (2 ^ f.mbits + f.fraction h) * 2 ^ d < 2 ^ (g.mbits + 1) := by
    rw [Nat.pow_succ, hpow, Nat.mul_right_comm]
    exact Nat.mul_lt_mul_of_pos_right (by omega) hpos
  obtain ⟨hsig, hexp⟩ := normal_inj hlow hhigh (Nat.le_add_right _ _) (by rw [Nat.pow_succ]; omega) hprod
  rw [Nat.add_mul, ← hpow] at hsig
  omega

/-- What a number of both formats is in each. -/
theorem number_both {v : Number} {d : Nat} (hulp : f.ulp = g.ulp + d) (hx : f.number x = some v) (hy : g.number y = some v) :
    f.sign x = g.sign y ∧
      ((f.exponent x = 2 ^ f.ebits - 1 ∧ f.fraction x = 0 ∧ g.exponent y = 2 ^ g.ebits - 1 ∧ g.fraction y = 0) ∨
        (f.exponent x ≠ 2 ^ f.ebits - 1 ∧ g.exponent y ≠ 2 ^ g.ebits - 1 ∧ f.units x * 2 ^ d = g.units y)) := by
  unfold Format.number at hx hy
  by_cases hfx : f.exponent x = 2 ^ f.ebits - 1
  · rw [if_pos hfx] at hx
    split at hx
    · rename_i hfrac
      obtain rfl := Option.some.inj hx
      by_cases hgy : g.exponent y = 2 ^ g.ebits - 1
      · rw [if_pos hgy] at hy
        split at hy
        · rename_i hfrac'
          have hsign := Number.infinite.inj (Option.some.inj hy)
          exact ⟨hsign.symm, .inl ⟨hfx, hfrac, hgy, hfrac'⟩⟩
        · cases hy
      · rw [if_neg hgy] at hy
        cases hy
    · cases hx
  · rw [if_neg hfx] at hx
    obtain rfl := Option.some.inj hx
    by_cases hgy : g.exponent y = 2 ^ g.ebits - 1
    · rw [if_pos hgy] at hy
      split at hy <;> cases hy
    · rw [if_neg hgy] at hy
      obtain ⟨hsign, hmag⟩ := Number.finite.inj (Option.some.inj hy)
      refine ⟨hsign.symm, .inr ⟨hfx, hgy, ?_⟩⟩
      have hpos : (0 : ℚ) < 2 ^ g.ulp := zpow_pos (by norm_num) _
      rw [hulp, zpow_add₀ (by norm_num), zpow_natCast] at hmag
      have hcancel : (g.units y : ℚ) = f.units x * 2 ^ d := by
        apply mul_right_cancel₀ hpos.ne'
        rw [hmag]
        ring
      exact_mod_cast hcancel.symm

end Fields

end Binary
