/-
  Uaii.Lib.Poison — arithmetic on values that may be indeterminate.

  `none` is what a read outside the data gives; every operation on it gives it again.
  Sums accumulate from the left, as a loop does.

  Proved: a sum is determinate exactly when all its terms are (`sumOver_isSome`), and
  depends on its terms only (`sumOver_congr`).
-/

import Mathlib.Data.List.Basic

namespace Poison

variable {α K : Type} [Zero K] [Add K] [Mul K]

def mul (x y : Option K) : Option K := do
  let x ← x
  let y ← y
  some (x * y)

def add (x y : Option K) : Option K := do
  let x ← x
  let y ← y
  some (x + y)

/-- `s = 0; for (a : l) s += f(a);` -/
def sumOver (l : List α) (f : α → Option K) : Option K := l.foldl (fun s a => add s (f a)) (some 0)

def sumTo (n : Nat) (f : Nat → Option K) : Option K := sumOver (List.range n) f

omit [Zero K] [Add K] in
theorem mul_isSome (x y : Option K) : (mul x y).isSome = (x.isSome && y.isSome) := by cases x <;> cases y <;> rfl

omit [Zero K] [Mul K] in
theorem add_isSome (x y : Option K) : (add x y).isSome = (x.isSome && y.isSome) := by cases x <;> cases y <;> rfl

omit [Zero K] [Mul K] in
theorem foldl_isSome (f : α → Option K) : ∀ (l : List α) (s : Option K),
    (l.foldl (fun s a => add s (f a)) s).isSome = true ↔ s.isSome = true ∧ ∀ a ∈ l, (f a).isSome = true := by
  intro l
  induction l with
  | nil => intro s; simp
  | cons a l ih =>
    intro s
    rw [List.foldl_cons, ih, add_isSome, Bool.and_eq_true]
    simp only [List.mem_cons, forall_eq_or_imp, and_assoc]

omit [Mul K] in
theorem sumOver_isSome (l : List α) (f : α → Option K) :
    (sumOver l f).isSome = true ↔ ∀ a ∈ l, (f a).isSome = true := by
  rw [sumOver, foldl_isSome]
  simp

omit [Mul K] in
theorem sumOver_congr {l : List α} {f g : α → Option K} (h : ∀ a ∈ l, f a = g a) : sumOver l f = sumOver l g := by
  unfold sumOver
  generalize (some 0 : Option K) = s
  induction l generalizing s with
  | nil => rfl
  | cons a l ih =>
    rw [List.foldl_cons, List.foldl_cons, h a List.mem_cons_self]
    exact ih (fun b hb => h b (List.mem_cons_of_mem _ hb)) _

omit [Mul K] in
theorem sumTo_isSome (n : Nat) (f : Nat → Option K) : (sumTo n f).isSome = true ↔ ∀ i < n, (f i).isSome = true := by
  rw [sumTo, sumOver_isSome]
  simp only [List.mem_range]

omit [Mul K] in
theorem sumTo_congr {n : Nat} {f g : Nat → Option K} (h : ∀ i < n, f i = g i) : sumTo n f = sumTo n g :=
  sumOver_congr fun i hi => h i (List.mem_range.mp hi)

end Poison
