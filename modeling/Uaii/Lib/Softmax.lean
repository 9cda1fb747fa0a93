/-
  Uaii.Lib.Softmax — a softmax over scores of which some are masked, and the mean of
  values under it.

  A masked score is `none` and has the weight 0. The largest score that is not masked is
  taken off before `exp`, which is a parameter; the weights are divided by their sum,
  where that is positive.

  Proved: masked scores after the others change nothing (`mix_append_masked`), and two
  rows of one length have the same softmax exactly when they differ by a constant
  (`row_eq_iff`).
-/

import Mathlib.Algebra.BigOperators.Group.List.Basic
import Mathlib.Algebra.BigOperators.Ring.List
import Mathlib.Algebra.Order.BigOperators.Group.List
import Mathlib.Algebra.Order.Field.Basic
import Mathlib.Order.Lattice
import Mathlib.Tactic.FieldSimp
import Mathlib.Tactic.Linarith
import Mathlib.Tactic.Ring

namespace Softmax

variable {K : Type} [Field K] [LinearOrder K] (exp : K → K)

def larger (m s : Option K) : Option K :=
  match m, s with
  | none, s => s
  | some m, none => some m
  | some m, some s => some (max m s)

/-- The largest score, if one is not masked. -/
def peak (scores : List (Option K)) : Option K := scores.foldl larger none

def weight (m : Option K) (score : Option K) : K :=
  match score with
  | none => 0
  | some s => exp (s - m.getD 0)

/-- The mean of `v`, element by element. -/
def mix (scores : List (Option K)) (v : Nat → K) : K :=
  let total := (scores.map (weight exp (peak scores))).sum
  let inv := if 0 < total then 1 / total else 0
  (scores.mapIdx fun j s => weight exp (peak scores) s * inv * v j).sum

omit [Field K] in
@[simp] theorem larger_none (m : Option K) : larger m none = m := by cases m <;> rfl

omit [Field K] in
theorem peak_append_masked (scores : List (Option K)) (n : Nat) : peak (scores ++ List.replicate n none) = peak scores := by
  unfold peak
  rw [List.foldl_append]
  generalize scores.foldl larger none = m
  induction n with
  | zero => rfl
  | succ n ih => rw [List.replicate_succ, List.foldl_cons, larger_none, ih]

/-- Masked scores at the end. -/
theorem mix_append_masked (scores : List (Option K)) (n : Nat) (v : Nat → K) :
    mix exp (scores ++ List.replicate n none) v = mix exp scores v := by
  have htail : ∀ x : K, ∀ f : Nat → K, ((List.replicate n (none : Option K)).mapIdx fun j s =>
      weight exp (peak scores) s * x * f j).sum = 0 := by
    intro x f
    apply List.sum_eq_zero
    intro y hy
    rcases List.mem_mapIdx.mp hy with ⟨i, hi, rfl⟩
    simp [weight]
  simp only [mix, peak_append_masked, List.map_append, List.sum_append, List.map_replicate, List.mapIdx_append]
  rw [htail]
  simp [weight]

/-- Only the values that are mixed matter. -/
theorem mix_congr {scores : List (Option K)} {v w : Nat → K} (h : ∀ j < scores.length, v j = w j) :
    mix exp scores v = mix exp scores w := by
  unfold mix
  dsimp only
  congr 1
  refine List.ext_getElem (by simp) fun j hj _ => ?_
  rw [List.length_mapIdx] at hj
  simp only [List.getElem_mapIdx, h j hj]

/-! ## A row -/

/-- A row without masked scores. -/
def row (xs : List K) : List K :=
  let scores := xs.map some
  let total := (scores.map (weight exp (peak scores))).sum
  let inv := if 0 < total then 1 / total else 0
  scores.map fun s => weight exp (peak scores) s * inv

/-- What is used of `exp`. -/
structure ExpLaws : Prop where
  pos : ∀ x, 0 < exp x
  add : ∀ x y, exp (x + y) = exp x * exp y
  injective : Function.Injective exp

section Laws

variable {exp}

theorem ExpLaws.sub (h : ExpLaws exp) (x y : K) : exp (x - y) = exp x / exp y := by
  rw [eq_div_iff (h.pos y).ne', ← h.add, sub_add_cancel]

variable [IsStrictOrderedRing K]

theorem ExpLaws.sum_pos (h : ExpLaws exp) {xs : List K} (hne : xs ≠ []) : 0 < (xs.map exp).sum := by
  refine List.sum_pos _ (fun y hy => ?_) (by simpa using hne)
  obtain ⟨x, -, rfl⟩ := List.mem_map.mp hy
  exact h.pos x

/-- Taking the largest score off changes nothing. -/
theorem row_eq (h : ExpLaws exp) (xs : List K) : row exp xs = xs.map fun x => exp x / (xs.map exp).sum := by
  rcases eq_or_ne xs [] with rfl | hne
  · rfl
  unfold row
  dsimp only
  generalize peak (xs.map some) = m
  have hm := h.pos (m.getD 0)
  have hsum := h.sum_pos hne
  have hweight : ∀ x, weight exp m (some x) = exp x * (exp (m.getD 0))⁻¹ := fun x => by
    rw [← div_eq_mul_inv]
    exact h.sub x _
  have htotal : ((xs.map some).map (weight exp m)).sum = (xs.map exp).sum * (exp (m.getD 0))⁻¹ := by
    rw [List.map_map, ← List.sum_map_mul_right]
    exact congrArg List.sum (List.map_congr_left fun x _ => hweight x)
  have hpos : 0 < (xs.map exp).sum * (exp (m.getD 0))⁻¹ := mul_pos hsum (inv_pos.mpr hm)
  rw [htotal, if_pos hpos, List.map_map]
  refine List.map_congr_left fun x _ => ?_
  rw [Function.comp_apply, hweight]
  field_simp

/-- Two rows have one softmax when they differ by a constant, and only then. -/
theorem row_eq_iff (h : ExpLaws exp) (f : K → K) (xs : List K) :
    row exp (xs.map f) = row exp xs ↔ ∃ c, ∀ x ∈ xs, f x = x - c := by
  rw [row_eq h, row_eq h, List.map_map, List.map_map, List.map_inj_left]
  rcases eq_or_ne xs [] with rfl | hne
  · simp
  have hsum := h.sum_pos hne
  have hsum' : 0 < (xs.map (exp ∘ f)).sum := by
    have hne' : xs.map f ≠ [] := by simpa using hne
    have hpos := h.sum_pos hne'
    rwa [List.map_map] at hpos
  simp only [Function.comp_apply, div_eq_div_iff hsum'.ne' hsum.ne']
  constructor
  · intro heq
    obtain ⟨y, hy⟩ := List.exists_mem_of_ne_nil xs hne
    refine ⟨y - f y, fun x hx => ?_⟩
    -- the ratio of the two sums is `exp` of every difference
    have hsame : exp (f x - x) = exp (f y - y) := by
      rw [h.sub, h.sub, div_eq_div_iff (h.pos x).ne' (h.pos y).ne']
      have hx' := heq x hx
      have hy' := heq y hy
      refine mul_right_cancel₀ (mul_pos hsum hsum').ne' ?_
      calc exp (f x) * exp y * ((xs.map exp).sum * (xs.map (exp ∘ f)).sum)
          = (exp (f x) * (xs.map exp).sum) * (exp y * (xs.map (exp ∘ f)).sum) := by ring
        _ = (exp x * (xs.map (exp ∘ f)).sum) * (exp (f y) * (xs.map exp).sum) := by rw [hx', hy']
        _ = exp (f y) * exp x * ((xs.map exp).sum * (xs.map (exp ∘ f)).sum) := by ring
    have hdiff := h.injective hsame
    linarith
  · rintro ⟨c, hc⟩ x hx
    have htotal : (xs.map (exp ∘ f)).sum = (xs.map exp).sum * (exp c)⁻¹ := by
      rw [← List.sum_map_mul_right]
      refine congrArg List.sum (List.map_congr_left fun y hy => ?_)
      rw [Function.comp_apply, hc y hy, h.sub, div_eq_mul_inv]
    rw [htotal, hc x hx, h.sub]
    ring

end Laws

end Softmax
