/-
  Uaii.Lib.Rotary — rotating the pairs of a vector, each by an angle of its own.

  A pairing says which two channels a pair has; every channel is in one pair. `cos` and
  `sin` are any two functions on a circle: the addition formulas and Pythagoras.

  Proved: turning two vectors by the same further angles, pair by pair, keeps their dot
  product (`dot_shift`).
-/

import Mathlib.Algebra.BigOperators.Group.Finset.Basic
import Mathlib.Algebra.BigOperators.Group.Finset.Sigma
import Mathlib.Data.Fintype.BigOperators
import Mathlib.Tactic.LinearCombination

namespace Rotary

open Finset

/-- `half` pairs of the channels below `2 * half`. -/
structure Pairing (half : Nat) where
  fst : Nat → Nat
  snd : Nat → Nat
  /-- The pair of a channel, and whether the channel is its second one. -/
  index : Nat → Nat
  second : Nat → Bool
  fst_lt : ∀ j < half, fst j < 2 * half
  snd_lt : ∀ j < half, snd j < 2 * half
  at_fst : ∀ j < half, index (fst j) = j ∧ second (fst j) = false
  at_snd : ∀ j < half, index (snd j) = j ∧ second (snd j) = true
  index_lt : ∀ u < 2 * half, index u < half
  channel : ∀ u < 2 * half, (if second u then snd (index u) else fst (index u)) = u

variable {half : Nat} {K : Type}

/-- Channels `j` and `j + half`. -/
def Pairing.halves (half : Nat) : Pairing half where
  fst j := j
  snd j := j + half
  index u := if u < half then u else u - half
  second u := decide (half ≤ u)
  fst_lt j hj := by omega
  snd_lt j hj := by omega
  at_fst j hj := ⟨if_pos hj, decide_eq_false (by omega)⟩
  at_snd j hj := ⟨by rw [if_neg (by omega)]; omega, decide_eq_true (by omega)⟩
  index_lt u hu := by split <;> omega
  channel u hu := by
    by_cases h : u < half
    · rw [if_neg (by simpa using h), if_pos h]
    · rw [if_pos (by simpa using h), if_neg h]
      omega

/-- Channels `2j` and `2j + 1`. -/
def Pairing.adjacent (half : Nat) : Pairing half where
  fst j := 2 * j
  snd j := 2 * j + 1
  index u := u / 2
  second u := decide (u % 2 = 1)
  fst_lt j hj := by omega
  snd_lt j hj := by omega
  at_fst j hj := ⟨by omega, decide_eq_false (by omega)⟩
  at_snd j hj := ⟨by omega, decide_eq_true (by omega)⟩
  index_lt u hu := by omega
  channel u hu := by
    by_cases h : u % 2 = 1
    · rw [if_pos (by simpa using h)]
      omega
    · rw [if_neg (by simpa using h)]
      omega

/-- The channels, pair by pair. -/
theorem Pairing.sum_pairs [AddCommMonoid K] (P : Pairing half) (f : Nat → K) :
    ∑ u ∈ range (2 * half), f u = ∑ j ∈ range half, (f (P.fst j) + f (P.snd j)) := by
  have hsplit : ∑ u ∈ range (2 * half), f u =
      ∑ p ∈ range half ×ˢ (univ : Finset Bool), f (if p.2 then P.snd p.1 else P.fst p.1) := by
    refine sum_bij' (fun u _ => (P.index u, P.second u)) (fun p _ => if p.2 then P.snd p.1 else P.fst p.1) ?_ ?_ ?_ ?_ ?_
    · intro u hu
      exact mem_product.mpr ⟨mem_range.mpr (P.index_lt u (mem_range.mp hu)), mem_univ _⟩
    · intro p hp
      have hj := mem_range.mp (mem_product.mp hp).1
      cases hs : p.2 with
      | false => simpa using P.fst_lt _ hj
      | true => simpa using P.snd_lt _ hj
    · intro u hu
      exact P.channel u (mem_range.mp hu)
    · intro p hp
      have hj := mem_range.mp (mem_product.mp hp).1
      obtain ⟨j, second⟩ := p
      cases second with
      | false => simpa using P.at_fst j hj
      | true => simpa using P.at_snd j hj
    · intro u hu
      rw [P.channel u (mem_range.mp hu)]
  rw [hsplit, sum_product]
  refine sum_congr rfl fun j _ => ?_
  rw [Fintype.sum_bool]
  exact add_comm _ _

/-- The vector with each pair turned. -/
def rotate [Ring K] (P : Pairing half) (cos sin : Nat → K) (x : Nat → K) (u : Nat) : K :=
  if P.second u then x (P.fst (P.index u)) * sin (P.index u) + x (P.snd (P.index u)) * cos (P.index u)
  else x (P.fst (P.index u)) * cos (P.index u) - x (P.snd (P.index u)) * sin (P.index u)

section

variable [CommRing K] {P : Pairing half} {c s : Nat → K} {x : Nat → K} {j : Nat}

theorem rotate_fst (hj : j < half) : rotate P c s x (P.fst j) = x (P.fst j) * c j - x (P.snd j) * s j := by
  obtain ⟨hi, hs⟩ := P.at_fst j hj
  rw [rotate, hi, hs, if_neg Bool.false_ne_true]

theorem rotate_snd (hj : j < half) : rotate P c s x (P.snd j) = x (P.fst j) * s j + x (P.snd j) * c j := by
  obtain ⟨hi, hs⟩ := P.at_snd j hj
  rw [rotate, hi, hs, if_pos rfl]

/-- What `cos` and `sin` are used for. -/
structure Circle (cos sin : K → K) : Prop where
  cos_add : ∀ a b, cos (a + b) = cos a * cos b - sin a * sin b
  sin_add : ∀ a b, sin (a + b) = sin a * cos b + cos a * sin b
  pythagoras : ∀ a, cos a * cos a + sin a * sin a = 1

/-- The dot product of two vectors whose pairs are turned and scaled. -/
def dot (P : Pairing half) (cos sin : K → K) (m : K) (a b : Nat → K) (x y : Nat → K) : K :=
  ∑ u ∈ range (2 * half), rotate P (fun j => cos (a j) * m) (fun j => sin (a j) * m) x u *
    rotate P (fun j => cos (b j) * m) (fun j => sin (b j) * m) y u

theorem dot_shift {cos sin : K → K} (h : Circle cos sin) (P : Pairing half) (m : K) (a b shift : Nat → K) (x y : Nat → K) :
    dot P cos sin m (fun j => a j + shift j) (fun j => b j + shift j) x y = dot P cos sin m a b x y := by
  unfold dot
  rw [P.sum_pairs, P.sum_pairs]
  refine sum_congr rfl fun j hj => ?_
  have hlt := mem_range.mp hj
  simp only [rotate_fst hlt, rotate_snd hlt, h.cos_add, h.sin_add]
  -- the further turn multiplies the pair's product by cos² + sin²
  linear_combination (m * m *
    ((x (P.fst j) * cos (a j) - x (P.snd j) * sin (a j)) * (y (P.fst j) * cos (b j) - y (P.snd j) * sin (b j)) +
      (x (P.fst j) * sin (a j) + x (P.snd j) * cos (a j)) * (y (P.fst j) * sin (b j) + y (P.snd j) * cos (b j)))) *
    h.pythagoras (shift j)

end

end Rotary
