/-
  Uaii.Lib.Decimal — numbers as decimal text.

  A literal is a sign, digits, a fraction and an exponent, kept as digits. `formatG p` is
  what `%.{p}g` prints: `p` significant digits, without trailing zeros, with an exponent
  below -4 and from `p` on. Its value is the number rounded to `p` digits
  (`formatG_value`).
-/

import Mathlib.Data.List.DropRight
import Uaii.Lib.Rounding

namespace Decimal

open Rounding

structure Literal where
  neg : Bool
  int : List Char
  frac : List Char
  /-- Whether it is negative, and its digits. -/
  exp : Option (Bool × List Char)
  deriving DecidableEq, Repr

/-- The number digits spell. -/
def digits (cs : List Char) : Nat := Nat.ofDigitChars 10 cs 0

def exponent : Option (Bool × List Char) → ℤ
  | none => 0
  | some (neg, ds) => if neg then -(digits ds : ℤ) else digits ds

def expText : Option (Bool × List Char) → List Char
  | none => []
  | some (neg, ds) => 'e' :: (if neg then '-' else '+') :: ds

namespace Literal

def text (l : Literal) : List Char :=
  (if l.neg then ['-'] else []) ++ (l.int ++ ((if l.frac = [] then [] else '.' :: l.frac) ++ expText l.exp))

def value (l : Literal) : ℚ :=
  (if l.neg then -1 else 1) * digits (l.int ++ l.frac) * (10 : ℚ) ^ (exponent l.exp - l.frac.length)

/-- Digits where they belong, and no leading zero. -/
structure Ok (l : Literal) : Prop where
  nonempty : l.int ≠ []
  int : ∀ c ∈ l.int, c.isDigit = true
  leading : l.int.head? = some '0' → l.int = ['0']
  frac : ∀ c ∈ l.frac, c.isDigit = true
  exp : ∀ neg ds, l.exp = some (neg, ds) → ds ≠ [] ∧ ∀ c ∈ ds, c.isDigit = true

end Literal

/-! ## Digits -/

@[simp] theorem digits_toDigits (n : Nat) : digits (Nat.toDigits 10 n) = n := Nat.ofDigitChars_ten_toDigits

theorem toDigits_isDigit {n : Nat} {c : Char} (h : c ∈ Nat.toDigits 10 n) : c.isDigit = true :=
  Nat.isDigit_of_mem_toDigits (by decide) (by decide) h

theorem toDigits_head {n : Nat} (h : 0 < n) : (Nat.toDigits 10 n).head? ≠ some '0' := by
  induction n using Nat.strong_induction_on with
  | _ n ih =>
    by_cases hlt : n < 10
    · rw [Nat.toDigits_of_lt_base hlt]
      simp
      omega
    · rw [Nat.toDigits_of_base_le (by decide) (by omega), List.head?_append_of_ne_nil _ (by simp)]
      exact ih (n / 10) (by omega) (by omega)

/-- `p` digits for a number of `p` digits. -/
theorem toDigits_length {p n : Nat} (hp : 1 ≤ p) (hlo : 10 ^ (p - 1) ≤ n) (hhi : n < 10 ^ p) :
    (Nat.toDigits 10 n).length = p := by
  have hle := (Nat.length_toDigits_le_iff (b := 10) (by decide) (by omega)).mpr hhi
  by_cases hp1 : p = 1
  · have hpos := Nat.length_toDigits_pos (b := 10) (n := n)
    omega
  · have hgt : ¬ (Nat.toDigits 10 n).length ≤ p - 1 := by
      rw [Nat.length_toDigits_le_iff (by decide) (by omega)]
      omega
    omega

theorem digits_zeros (k : Nat) (cs : List Char) : digits (List.replicate k '0' ++ cs) = digits cs := by
  rw [digits, Nat.ofDigitChars_append, Nat.ofDigitChars_replicate_zero, Nat.mul_zero]
  rfl

/-- Without the zeros at the end. -/
def strip (cs : List Char) : List Char := cs.rdropWhile (· == '0')

theorem strip_subset {cs : List Char} {c : Char} (h : c ∈ strip cs) : c ∈ cs := (List.rdropWhile_prefix _ _).subset h

/-- Zeros at the end of a fraction do not count. -/
theorem strip_value (as bs : List Char) (z : ℤ) :
    (digits (as ++ strip bs) : ℚ) * (10 : ℚ) ^ (z - (strip bs).length) = digits (as ++ bs) * (10 : ℚ) ^ (z - bs.length) := by
  induction bs using List.reverseRecOn with
  | nil => rfl
  | append_singleton bs b ih =>
    by_cases hb : b = '0'
    · subst hb
      have hstrip : strip (bs ++ ['0']) = strip bs := List.rdropWhile_concat_pos _ _ _ (by simp)
      have hval : digits (as ++ (bs ++ ['0'])) = 10 * digits (as ++ bs) := by
        rw [← List.append_assoc, digits, Nat.ofDigitChars_append]
        rfl
      have hlen : z - ((bs ++ ['0']).length : ℤ) = (z - bs.length) - 1 := by
        simp
        omega
      rw [hstrip, ih, hval, hlen, zpow_sub_one₀ (by decide)]
      push_cast
      ring
    · have hstrip : strip (bs ++ [b]) = bs ++ [b] := List.rdropWhile_concat_neg _ _ _ (by simpa using hb)
      rw [hstrip]

/-! ## Integers -/

def intLiteral (i : ℤ) : Literal := ⟨i < 0, Nat.toDigits 10 i.natAbs, [], none⟩

theorem intLiteral_ok (i : ℤ) : (intLiteral i).Ok where
  nonempty := by simp [intLiteral]
  int c hc := toDigits_isDigit hc
  leading h := by
    by_cases hz : i.natAbs = 0
    · simp [intLiteral, hz]
    · exact absurd h (toDigits_head (Nat.pos_of_ne_zero hz))
  frac := by simp [intLiteral]
  exp := by simp [intLiteral]

theorem intLiteral_value (i : ℤ) : (intLiteral i).value = i := by
  have hdigits : digits ((intLiteral i).int ++ (intLiteral i).frac) = i.natAbs := by simp [intLiteral]
  have hexp : exponent (intLiteral i).exp - (intLiteral i).frac.length = 0 := by simp [intLiteral, exponent]
  rw [Literal.value, hdigits, hexp, zpow_zero, mul_one]
  by_cases hi : i < 0
  · have habs : ((i.natAbs : ℤ) : ℚ) = ((-i : ℤ) : ℚ) := by
      congr 1
      omega
    simp only [intLiteral, hi, decide_true, if_true, Int.cast_natCast] at habs ⊢
    rw [habs]
    push_cast
    ring
  · have habs : ((i.natAbs : ℤ) : ℚ) = (i : ℚ) := by
      congr 1
      omega
    simp only [intLiteral, hi, decide_false, Bool.false_eq_true, if_false, Int.cast_natCast, one_mul] at habs ⊢
    exact habs

/-! ## `%g` -/

/-- The first `p` digits, rounded, and the exponent of the first one. -/
def significand (p : ℕ) (x : ℚ) : ℕ × ℤ :=
  let n := (halfEven (|x| / (10 : ℚ) ^ lastDigit 10 p x)).toNat
  if n = 10 ^ p then (10 ^ (p - 1), Int.log 10 |x| + 1) else (n, Int.log 10 |x|)

/-- At least two digits. -/
def exponentDigits (e : ℤ) : List Char := if e.natAbs < 10 then '0' :: Nat.toDigits 10 e.natAbs else Nat.toDigits 10 e.natAbs

def formatG (p : ℕ) (x : ℚ) : Literal :=
  let n := (significand p x).1
  let e := (significand p x).2
  let ds := Nat.toDigits 10 n
  if e < -4 ∨ p ≤ e then ⟨x < 0, ds.take 1, strip (ds.drop 1), some (e < 0, exponentDigits e)⟩
  else if 0 ≤ e then ⟨x < 0, ds.take (e.toNat + 1), strip (ds.drop (e.toNat + 1)), none⟩
  else ⟨x < 0, ['0'], List.replicate (-e - 1).toNat '0' ++ strip ds, none⟩

/-- `x`, rounded to its first `p` digits. -/
def roundSig (p : ℕ) (x : ℚ) : ℚ := (if x < 0 then -1 else 1) * roundAt 10 (lastDigit 10 p x) |x|

section Format

variable {p : ℕ} {x : ℚ}

theorem significand_spec (hp : 1 ≤ p) (hx : x ≠ 0) :
    10 ^ (p - 1) ≤ (significand p x).1 ∧ (significand p x).1 < 10 ^ p ∧
      ((significand p x).1 : ℚ) * (10 : ℚ) ^ ((significand p x).2 - (p - 1)) = roundAt 10 (lastDigit 10 p x) |x| := by
  have hpow : (0 : ℚ) < (10 : ℚ) ^ lastDigit 10 p x := base_pos (b := 10) (by decide) _
  have hlo : (10 : ℚ) ^ (p - 1) ≤ |x| / (10 : ℚ) ^ lastDigit 10 p x := by
    have h := lastDigit_mul_le (b := 10) (p := p) (by decide) hx
    rw [le_div_iff₀ hpow, ← zpow_natCast]
    rw [show ((p - 1 : ℕ) : ℤ) = (p : ℤ) - 1 by omega]
    exact_mod_cast h
  have hhi : |x| / (10 : ℚ) ^ lastDigit 10 p x < (10 : ℚ) ^ p := by
    have h := abs_lt_lastDigit (b := 10) (by decide) p x
    rw [div_lt_iff₀ hpow]
    exact_mod_cast h
  have hround := abs_le.mp (abs_halfEven_sub_le (|x| / (10 : ℚ) ^ lastDigit 10 p x))
  generalize hn : halfEven (|x| / (10 : ℚ) ^ lastDigit 10 p x) = n at hround
  have hnlo : (10 : ℤ) ^ (p - 1) ≤ n := by
    have h : ((10 ^ (p - 1) : ℤ) : ℚ) - 1 < n := by
      push_cast
      linarith [hround.1]
    have hint : (10 : ℤ) ^ (p - 1) - 1 < n := by exact_mod_cast h
    omega
  have hnhi : n ≤ (10 : ℤ) ^ p := by
    have h : (n : ℚ) < ((10 ^ p : ℤ) : ℚ) + 1 := by
      push_cast
      linarith [hround.2]
    have hint : n < (10 : ℤ) ^ p + 1 := by exact_mod_cast h
    omega
  obtain ⟨m, rfl⟩ := Int.eq_ofNat_of_zero_le (le_trans (by positivity) hnlo)
  have hmlo : 10 ^ (p - 1) ≤ m := by exact_mod_cast hnlo
  have hmhi : m ≤ 10 ^ p := by exact_mod_cast hnhi
  have hvalue : roundAt 10 (lastDigit 10 p x) |x| = m * (10 : ℚ) ^ lastDigit 10 p x := by
    rw [roundAt]
    push_cast
    rw [hn]
    rfl
  have hpow10 : 10 ^ p = 10 * 10 ^ (p - 1) := by
    rw [← pow_succ']
    congr 1
    omega
  rw [hvalue]
  unfold significand
  rw [hn]
  by_cases hm : m = 10 ^ p
  · -- rounded up to the next power of ten
    have hpos : 0 < 10 ^ (p - 1) := by positivity
    rw [if_pos (by simpa using hm)]
    refine ⟨le_refl _, by omega, ?_⟩
    rw [hm, lastDigit]
    push_cast
    rw [← zpow_natCast, ← zpow_natCast, ← zpow_add₀ (by decide), ← zpow_add₀ (by decide)]
    congr 1
    omega
  · rw [if_neg (by simpa using hm)]
    exact ⟨by simpa using hmlo, by simp; omega, by simp [lastDigit]⟩

/-- What is printed is the rounded number. -/
theorem formatG_value (hp : 1 ≤ p) (hx : x ≠ 0) : (formatG p x).value = roundSig p x := by
  obtain ⟨hlo, hhi, hval⟩ := significand_spec hp hx
  have hlen := toDigits_length hp hlo hhi
  unfold roundSig
  rw [← hval]
  unfold formatG
  generalize (significand p x).1 = n at hlo hhi hlen
  generalize (significand p x).2 = e
  simp only
  split
  · rename_i he
    have hexp : exponent (some (decide (e < 0), exponentDigits e)) = e := by
      have hdigits : digits (exponentDigits e) = e.natAbs := by
        unfold exponentDigits
        split
        · exact (digits_zeros 1 _).trans (digits_toDigits _)
        · exact digits_toDigits _
      by_cases hneg : e < 0
      · simp only [exponent, hdigits, hneg, decide_true, if_true]
        omega
      · simp only [exponent, hdigits, hneg, decide_false, Bool.false_eq_true, if_false]
        omega
    have hstrip := strip_value ((Nat.toDigits 10 n).take 1) ((Nat.toDigits 10 n).drop 1) e
    rw [List.take_append_drop, digits_toDigits, List.length_drop, hlen] at hstrip
    have hp' : ((p - 1 : ℕ) : ℤ) = (p : ℤ) - 1 := by omega
    rw [hp'] at hstrip
    simp only [Literal.value, hexp, decide_eq_true_eq]
    rw [mul_assoc, hstrip]
  · split
    · rename_i he hpos
      have hstrip := strip_value ((Nat.toDigits 10 n).take (e.toNat + 1)) ((Nat.toDigits 10 n).drop (e.toNat + 1)) 0
      rw [List.take_append_drop, digits_toDigits, List.length_drop, hlen] at hstrip
      have hlen' : (0 : ℤ) - ((p - (e.toNat + 1) : ℕ) : ℤ) = e - (p - 1) := by omega
      rw [hlen'] at hstrip
      simp only [Literal.value, exponent, decide_eq_true_eq]
      rw [mul_assoc, hstrip]
    · rename_i he hneg
      have hstrip := strip_value [] (Nat.toDigits 10 n) (e + 1)
      rw [List.nil_append, List.nil_append, digits_toDigits, hlen] at hstrip
      have hzeros : digits (['0'] ++ (List.replicate (-e - 1).toNat '0' ++ strip (Nat.toDigits 10 n))) =
          digits (strip (Nat.toDigits 10 n)) := by
        rw [← List.append_assoc, show ['0'] ++ List.replicate (-e - 1).toNat '0' = List.replicate ((-e - 1).toNat + 1) '0' from rfl,
          digits_zeros]
      have hlen' : (0 : ℤ) - ((List.replicate (-e - 1).toNat '0' ++ strip (Nat.toDigits 10 n)).length : ℤ) =
          e + 1 - (strip (Nat.toDigits 10 n)).length := by
        simp
        omega
      simp only [Literal.value, exponent, decide_eq_true_eq]
      rw [hzeros, hlen', mul_assoc, hstrip]
      congr 2
      congr 1
      omega

theorem exponentDigits_ok (e : ℤ) : exponentDigits e ≠ [] ∧ ∀ c ∈ exponentDigits e, c.isDigit = true := by
  unfold exponentDigits
  split
  · refine ⟨by simp, fun c hc => ?_⟩
    rcases List.mem_cons.mp hc with rfl | hc
    · rfl
    · exact toDigits_isDigit hc
  · exact ⟨by simp, fun c hc => toDigits_isDigit hc⟩

theorem formatG_ok (hp : 1 ≤ p) (hx : x ≠ 0) : (formatG p x).Ok := by
  obtain ⟨hlo, hhi, -⟩ := significand_spec hp hx
  have hpos : 0 < (significand p x).1 := lt_of_lt_of_le (by positivity) hlo
  unfold formatG
  generalize (significand p x).1 = n at hpos
  generalize (significand p x).2 = e
  have hhead : ∀ k, ((Nat.toDigits 10 n).take (k + 1)).head? ≠ some '0' := by
    intro k
    rw [List.head?_take]
    simpa using toDigits_head hpos
  have hne : ∀ k, (Nat.toDigits 10 n).take (k + 1) ≠ [] := by
    intro k
    simp
  have htake : ∀ k, ∀ c ∈ (Nat.toDigits 10 n).take k, c.isDigit = true := fun k c hc => toDigits_isDigit (List.mem_of_mem_take hc)
  have hdrop : ∀ k, ∀ c ∈ strip ((Nat.toDigits 10 n).drop k), c.isDigit = true :=
    fun k c hc => toDigits_isDigit (List.mem_of_mem_drop (strip_subset hc))
  simp only
  split
  · refine ⟨hne 0, htake 1, fun h => absurd h (hhead 0), hdrop 1, fun neg ds h => ?_⟩
    obtain ⟨-, rfl⟩ := Prod.mk.inj (Option.some.inj h)
    exact exponentDigits_ok e
  · split
    · exact ⟨hne _, htake _, fun h => absurd h (hhead _), hdrop _, fun neg ds h => by cases h⟩
    · refine ⟨by simp, by simp, fun _ => rfl, fun c hc => ?_, fun neg ds h => by cases h⟩
      rcases List.mem_append.mp hc with hc | hc
      · rw [List.eq_of_mem_replicate hc]
        rfl
      · exact toDigits_isDigit (strip_subset hc)

/-- A printed number has `p` digits. -/
theorem roundSig_digits (hp : 1 ≤ p) (hx : x ≠ 0) : ∃ m e : ℤ, |m| < 10 ^ p ∧ roundSig p x = m * (10 : ℚ) ^ e := by
  obtain ⟨-, hhi, hval⟩ := significand_spec hp hx
  have hcast : ((significand p x).1 : ℤ) < 10 ^ p := by exact_mod_cast hhi
  by_cases hneg : x < 0
  · refine ⟨-(significand p x).1, (significand p x).2 - (p - 1), ?_, ?_⟩
    · rw [abs_neg, Nat.abs_cast]
      exact hcast
    · rw [roundSig, if_pos hneg, ← hval]
      push_cast
      ring
  · refine ⟨(significand p x).1, (significand p x).2 - (p - 1), ?_, ?_⟩
    · rw [Nat.abs_cast]
      exact hcast
    · rw [roundSig, if_neg hneg, ← hval]
      push_cast
      ring

/-- Numbers of `p` digits are printed for what is near them. -/
theorem roundSig_near {m e : ℤ} (hm : |m| < 10 ^ p)
    (hx : |x - m * (10 : ℚ) ^ e| * (4 * 10 ^ p) < |(m : ℚ) * (10 : ℚ) ^ e|) : roundSig p x = m * (10 : ℚ) ^ e := by
  have hpow : (0 : ℚ) < (10 : ℚ) ^ e := base_pos (b := 10) (by decide) e
  have hone : (1 : ℚ) ≤ 10 ^ p := one_le_pow₀ (by norm_num)
  have habs : ((|m| : ℤ) : ℚ) * ((10 : ℕ) : ℚ) ^ e = |(m : ℚ) * (10 : ℚ) ^ e| := by
    rw [abs_mul, abs_of_pos hpow]
    push_cast
    rfl
  have hround : roundAt 10 (lastDigit 10 p x) |x| = |(m : ℚ) * (10 : ℚ) ^ e| := by
    have hlast : lastDigit 10 p x = lastDigit 10 p |x| := by rw [lastDigit, lastDigit, abs_abs]
    rw [hlast, ← habs]
    apply roundAt_near (by decide) (by rw [abs_abs]; exact_mod_cast hm)
    rw [habs, abs_abs]
    refine lt_of_le_of_lt ?_ hx
    push_cast
    exact mul_le_mul_of_nonneg_right (abs_abs_sub_abs_le_abs_sub _ _) (by positivity)
  rw [roundSig, hround]
  -- the number has the sign of what it is near to
  generalize (m : ℚ) * (10 : ℚ) ^ e = d at hx
  have hclose : |x - d| < |d| := by nlinarith [abs_nonneg (x - d)]
  by_cases hneg : x < 0
  · have hd : d < 0 := by
      by_contra hd
      rw [abs_of_nonneg (not_lt.mp hd), abs_sub_comm, abs_of_nonneg (by linarith)] at hclose
      linarith
    rw [if_pos hneg, abs_of_neg hd]
    ring
  · have hd : 0 < d := by
      by_contra hd
      rw [abs_of_nonpos (not_lt.mp hd), abs_of_nonneg (by linarith)] at hclose
      linarith
    rw [if_neg hneg, abs_of_pos hd]
    ring

end Format

end Decimal
