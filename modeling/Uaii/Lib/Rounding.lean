/-
  Uaii.Lib.Rounding — rounding to the nearest number of so many digits, ties to even.

  `round b p emin` keeps `p` digits in base `b` and no digit below `b ^ emin`; binary64 is
  `round 2 53 (-1074)` (without its largest exponent). What is near a decimal of `p`
  digits, by far less than its last digit, rounds to it (`round_near`).
-/

import Mathlib.Data.Int.Log
import Mathlib.Data.Rat.Floor
import Mathlib.Tactic.Linarith
import Mathlib.Tactic.FieldSimp
import Mathlib.Tactic.Positivity
import Mathlib.Tactic.Ring

namespace Rounding

/-- The nearest integer, the even one of two. -/
def halfEven (q : ℚ) : ℤ :=
  if 2 * (q - ⌊q⌋) < 1 then ⌊q⌋
  else if 1 < 2 * (q - ⌊q⌋) then ⌊q⌋ + 1
  else if ⌊q⌋ % 2 = 0 then ⌊q⌋ else ⌊q⌋ + 1

theorem abs_halfEven_sub_le (q : ℚ) : |(halfEven q : ℚ) - q| ≤ 1 / 2 := by
  have hlo := Int.floor_le q
  have hhi := Int.lt_floor_add_one q
  unfold halfEven
  rw [abs_le]
  split
  · constructor <;> linarith
  · split
    · push_cast
      constructor <;> linarith
    · split
      · constructor <;> linarith
      · push_cast
        constructor <;> linarith

/-- There is no other integer as near. -/
theorem halfEven_eq {q : ℚ} {n : ℤ} (h : |q - n| < 1 / 2) : halfEven q = n := by
  have hq := abs_halfEven_sub_le q
  have hlt : |((halfEven q - n : ℤ) : ℚ)| < 1 := by
    push_cast
    calc |(halfEven q : ℚ) - n| = |((halfEven q : ℚ) - q) + (q - n)| := by ring_nf
      _ ≤ |(halfEven q : ℚ) - q| + |q - n| := abs_add_le _ _
      _ < 1 := by linarith
  rw [← Int.cast_abs] at hlt
  have hzero := Int.abs_lt_one_iff.mp (by exact_mod_cast hlt)
  omega

@[simp] theorem halfEven_intCast (n : ℤ) : halfEven n = n := halfEven_eq (by simp)

theorem halfEven_zero : halfEven 0 = 0 := by exact_mod_cast halfEven_intCast 0

theorem halfEven_nearest (q : ℚ) (n : ℤ) : |q - halfEven q| ≤ |q - n| := by
  by_cases h : |q - n| < 1 / 2
  · rw [halfEven_eq h]
  · have hhalf := abs_halfEven_sub_le q
    rw [abs_sub_comm] at hhalf
    linarith

theorem le_halfEven {q : ℚ} {n : ℤ} (h : (n : ℚ) ≤ q) : n ≤ halfEven q := by
  have hhalf := abs_le.mp (abs_halfEven_sub_le q)
  have hlt : ((n - 1 : ℤ) : ℚ) < halfEven q := by
    push_cast
    linarith
  have hint : n - 1 < halfEven q := by exact_mod_cast hlt
  omega

theorem halfEven_le {q : ℚ} {n : ℤ} (h : q ≤ n) : halfEven q ≤ n := by
  have hhalf := abs_le.mp (abs_halfEven_sub_le q)
  have hlt : (halfEven q : ℚ) < ((n + 1 : ℤ) : ℚ) := by
    push_cast
    linarith
  have hint : halfEven q < n + 1 := by exact_mod_cast hlt
  omega

/-- Rounding and then clamping gives the nearest integer within the bounds. -/
theorem clamp_nearest {lo hi : ℤ} (hle : lo ≤ hi) (q : ℚ) (n : ℤ) :
    |max (lo : ℚ) (min (hi : ℚ) q) - ((max lo (min hi (halfEven q)) : ℤ) : ℚ)| ≤ |max (lo : ℚ) (min (hi : ℚ) q) - n| := by
  have hle' : (lo : ℚ) ≤ hi := by exact_mod_cast hle
  by_cases h₁ : q ≤ lo
  · have hround := halfEven_le h₁
    rw [min_eq_right (h₁.trans hle'), max_eq_left h₁, min_eq_right (hround.trans hle), max_eq_left hround, sub_self, abs_zero]
    exact abs_nonneg _
  by_cases h₂ : (hi : ℚ) ≤ q
  · have hround := le_halfEven h₂
    rw [min_eq_left h₂, max_eq_right hle', min_eq_left hround, max_eq_right hle, sub_self, abs_zero]
    exact abs_nonneg _
  have h₁' := (not_le.mp h₁).le
  have h₂' := (not_le.mp h₂).le
  rw [min_eq_right h₂', max_eq_right h₁', min_eq_right (halfEven_le h₂'), max_eq_right (le_halfEven h₁')]
  exact halfEven_nearest q n

/-! ## To so many digits -/

variable {b p : ℕ}

/-- To a multiple of `b ^ e`. -/
def roundAt (b : ℕ) (e : ℤ) (q : ℚ) : ℚ := halfEven (q / (b : ℚ) ^ e) * (b : ℚ) ^ e

/-- The exponent of the last of `q`'s first `p` digits. -/
def lastDigit (b p : ℕ) (q : ℚ) : ℤ := Int.log b |q| - (p - 1)

theorem roundAt_zero (e : ℤ) : roundAt b e 0 = 0 := by simp [roundAt, halfEven_zero]

theorem base_pos (hb : 0 < b) (e : ℤ) : (0 : ℚ) < (b : ℚ) ^ e := zpow_pos (by exact_mod_cast hb) e

/-- A number is off by half of what it is rounded to. -/
theorem abs_roundAt_sub_le (hb : 0 < b) (e : ℤ) (q : ℚ) : |roundAt b e q - q| ≤ (b : ℚ) ^ e / 2 := by
  have hpos := base_pos hb e
  have heq : roundAt b e q - q = (halfEven (q / (b : ℚ) ^ e) - q / (b : ℚ) ^ e) * (b : ℚ) ^ e := by
    unfold roundAt
    field_simp
  rw [heq, abs_mul, abs_of_pos hpos]
  calc _ ≤ 1 / 2 * (b : ℚ) ^ e := mul_le_mul_of_nonneg_right (abs_halfEven_sub_le _) hpos.le
    _ = _ := by ring

/-- What is nearer than half of it to a multiple rounds to that multiple. -/
theorem roundAt_eq (hb : 0 < b) {e f m : ℤ} (he : e ≤ f) {q : ℚ} (hq : |q - m * (b : ℚ) ^ f| < (b : ℚ) ^ e / 2) :
    roundAt b e q = m * (b : ℚ) ^ f := by
  have hpos := base_pos hb e
  obtain ⟨k, hk⟩ := Int.eq_ofNat_of_zero_le (sub_nonneg.mpr he)
  have hpow : (b : ℚ) ^ f = (b : ℚ) ^ k * (b : ℚ) ^ e := by
    rw [← zpow_natCast, ← zpow_add₀ (by positivity)]
    congr 1
    omega
  have hint : halfEven (q / (b : ℚ) ^ e) = m * (b : ℤ) ^ k := by
    apply halfEven_eq
    have hdiff : q / (b : ℚ) ^ e - ((m * (b : ℤ) ^ k : ℤ) : ℚ) = (q - m * (b : ℚ) ^ f) / (b : ℚ) ^ e := by
      rw [hpow]
      push_cast
      field_simp
    rw [hdiff, abs_div, abs_of_pos hpos, div_lt_iff₀ hpos]
    linarith
  rw [roundAt, hint, hpow]
  push_cast
  ring

/-- A multiple is not rounded. -/
theorem roundAt_multiple (hb : 0 < b) {e f m : ℤ} (he : e ≤ f) : roundAt b e (m * (b : ℚ) ^ f) = m * (b : ℚ) ^ f := by
  have hpos := base_pos hb e
  apply roundAt_eq hb he
  rw [sub_self, abs_zero]
  linarith

/-- An integer is rounded to an integer. -/
theorem roundAt_intCast (hb : 0 < b) (e n : ℤ) : ∃ m : ℤ, roundAt b e n = m := by
  by_cases he : e ≤ 0
  · refine ⟨n, ?_⟩
    have hmul := roundAt_multiple hb (m := n) he
    rwa [zpow_zero, mul_one] at hmul
  · obtain ⟨k, hk⟩ := Int.eq_ofNat_of_zero_le (not_le.mp he).le
    refine ⟨halfEven (n / (b : ℚ) ^ e) * (b : ℤ) ^ k, ?_⟩
    rw [roundAt, hk]
    push_cast
    rfl

/-- `p` digits are the first `p` digits. -/
theorem lastDigit_le (hb : 1 < b) {m e : ℤ} (hm : |m| < (b : ℤ) ^ p) (hz : m ≠ 0) :
    lastDigit b p (m * (b : ℚ) ^ e) ≤ e := by
  have hb0 : 0 < b := by omega
  have hpos := base_pos hb0 e
  have hlt : |(m : ℚ) * (b : ℚ) ^ e| < (b : ℚ) ^ (p + e) := by
    rw [abs_mul, abs_of_pos hpos, zpow_add₀ (by positivity), zpow_natCast]
    have hcast : |(m : ℚ)| < (b : ℚ) ^ p := by exact_mod_cast hm
    exact mul_lt_mul_of_pos_right hcast hpos
  have hne : (m : ℚ) * (b : ℚ) ^ e ≠ 0 := mul_ne_zero (by exact_mod_cast hz) hpos.ne'
  have hlog := (Int.lt_zpow_iff_log_lt hb (abs_pos.mpr hne)).mp hlt
  unfold lastDigit
  omega

/-- A number is less than `b ^ p` times its last digit. -/
theorem abs_lt_lastDigit (hb : 1 < b) (p : ℕ) (q : ℚ) : |q| < (b : ℚ) ^ p * (b : ℚ) ^ lastDigit b p q := by
  have hb0 : 0 < b := by omega
  have hlog := Int.lt_zpow_succ_log_self hb |q|
  rw [← zpow_natCast, ← zpow_add₀ (by positivity)]
  refine hlog.trans_le (le_of_eq ?_)
  congr 1
  unfold lastDigit
  omega

/-- A number has its last digit's size `b ^ (p - 1)` times at least. -/
theorem lastDigit_mul_le (hb : 1 < b) {q : ℚ} (hq : q ≠ 0) : (b : ℚ) ^ ((p : ℤ) - 1) * (b : ℚ) ^ lastDigit b p q ≤ |q| := by
  have hb0 : 0 < b := by omega
  have hlog := Int.zpow_log_le_self hb (abs_pos.mpr hq)
  rw [← zpow_add₀ (by positivity)]
  refine le_of_eq_of_le ?_ hlog
  congr 1
  unfold lastDigit
  omega

/-- A number of `p` digits is a number of `p` digits at its own last one. -/
theorem exists_at_lastDigit (hb : 1 < b) {m e : ℤ} (hm : |m| < (b : ℤ) ^ p) (hz : m ≠ 0) :
    ∃ n : ℤ, (m : ℚ) * (b : ℚ) ^ e = n * (b : ℚ) ^ lastDigit b p ((m : ℚ) * (b : ℚ) ^ e) ∧ |(n : ℚ)| ≤ (b : ℚ) ^ p - 1 := by
  have hb0 : 0 < b := by omega
  have hle := lastDigit_le hb hm hz (e := e)
  generalize hd : (m : ℚ) * (b : ℚ) ^ e = d at hle
  obtain ⟨k, hk⟩ := Int.eq_ofNat_of_zero_le (sub_nonneg.mpr hle)
  have hn : d = (m * (b : ℤ) ^ k : ℤ) * (b : ℚ) ^ lastDigit b p d := by
    rw [show e = k + lastDigit b p d by omega, zpow_add₀ (by positivity), zpow_natCast] at hd
    push_cast
    linarith
  generalize m * (b : ℤ) ^ k = n at hn
  refine ⟨n, hn, ?_⟩
  have hlt := abs_lt_lastDigit hb p d
  rw [hn, abs_mul, abs_of_pos (base_pos hb0 _), ← hn] at hlt
  have hcast := lt_of_mul_lt_mul_right hlt (base_pos hb0 _).le
  have hnlt : |n| < (b : ℤ) ^ p := by exact_mod_cast hcast
  have hle : |n| ≤ (b : ℤ) ^ p - 1 := by omega
  exact_mod_cast hle

/-- What is much nearer to a number of `p` digits than its last digit rounds to it. -/
theorem roundAt_near (hb : 1 < b) {m e : ℤ} (hm : |m| < (b : ℤ) ^ p) {q : ℚ}
    (hq : |q - m * (b : ℚ) ^ e| * (4 * (b : ℚ) ^ p) < |(m : ℚ) * (b : ℚ) ^ e|) :
    roundAt b (lastDigit b p q) q = m * (b : ℚ) ^ e := by
  have hb0 : 0 < b := by omega
  have hone : (1 : ℚ) ≤ (b : ℚ) ^ p := one_le_pow₀ (by exact_mod_cast hb0)
  have hz : m ≠ 0 := by
    rintro rfl
    simp only [Int.cast_zero, zero_mul, sub_zero, abs_zero] at hq
    nlinarith [abs_nonneg q]
  have hq0 : q ≠ 0 := by
    rintro rfl
    rw [zero_sub, abs_neg] at hq
    nlinarith [abs_nonneg ((m : ℚ) * (b : ℚ) ^ e)]
  obtain ⟨n, hn, hnle⟩ := exists_at_lastDigit hb hm hz (e := e)
  generalize (m : ℚ) * (b : ℚ) ^ e = d at hn hq
  generalize lastDigit b p d = t at hn
  have ht := base_pos hb0 t
  have habs : |d| = |(n : ℚ)| * (b : ℚ) ^ t := by rw [hn, abs_mul, abs_of_pos ht]
  have htri : |q| ≤ |d| + |q - d| := by
    have h := abs_add_le d (q - d)
    rwa [add_sub_cancel] at h
  have hquarter : |q - d| < (b : ℚ) ^ t / 4 := by
    by_contra hge
    push Not at hge
    nlinarith
  have hlast : lastDigit b p q ≤ t := by
    have hlt : |q| < (b : ℚ) ^ ((p : ℤ) + t) := by
      rw [zpow_add₀ (by positivity), zpow_natCast]
      nlinarith
    have hlog := (Int.lt_zpow_iff_log_lt hb (abs_pos.mpr hq0)).mp hlt
    unfold lastDigit
    omega
  rw [hn]
  apply roundAt_eq hb0 hlast
  rw [← hn]
  have hlt := abs_lt_lastDigit hb p q
  have htri' : |d| ≤ |q| + |q - d| := by
    have h := abs_sub_abs_le_abs_sub d q
    rw [abs_sub_comm] at h
    linarith
  by_contra hge
  push Not at hge
  have hs := base_pos hb0 (lastDigit b p q)
  nlinarith

end Rounding
