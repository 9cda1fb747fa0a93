/-
  Uaii.Kernels.RefGemm — `RefGemm::gemm_f32` (`libs/uaii-kernels/src/gemm_ref.cpp`) over
  `parallel_for` (`libs/uaii-kernels/src/thread_pool.cpp`).

  Numbers are exact, in any commutative ring. Arrays are functions of the index; C is
  apart from A and B. A row tile is a job of updates `c[i * ldc + j] += alpha * sum`, and
  the workers' updates interleave in any way.

  Proved: a call returns, and whatever the workers and their order, C is
  `alpha * op(A) op(B) + beta * C` on its m × n elements and unchanged elsewhere
  (`gemm_f32_exact`).
-/

import Mathlib.Algebra.Ring.Basic
import Mathlib.Algebra.Ring.Int.Defs
import Mathlib.Logic.Function.Basic
import Mathlib.Tactic.Ring
import Uaii.Core.Error
import Uaii.Kernels.ThreadPool

namespace Uaii.Kernels

/-! ## The kernel -/

section Gemm

variable {K : Type} [CommRing K] [DecidableEq K]

def kTile : Nat := 64

/-- `for (t0 = 0; t0 < n; t0 += kTile)`. -/
def tileStarts (n : Nat) : List Nat := (List.range ((n + kTile - 1) / kTile)).map (· * kTile)

/-- `t0` up to `min(t0 + kTile, n)`. -/
def tileSpan (t0 n : Nat) : List Nat := List.range' t0 (min (t0 + kTile) n - t0)

structure GemmArgs (K : Type) where
  m : Nat
  n : Nat
  k : Nat
  a : Nat → K
  lda : Nat
  transposeA : Bool
  b : Nat → K
  ldb : Nat
  transposeB : Bool
  ldc : Nat
  alpha : K
  beta : K

namespace GemmArgs

variable (g : GemmArgs K)

def loadA (i kk : Nat) : K := if g.transposeA then g.a (kk * g.lda + i) else g.a (i * g.lda + kk)

def loadB (kk j : Nat) : K := if g.transposeB then g.b (j * g.ldb + kk) else g.b (kk * g.ldb + j)

/-- A loop over the m × n elements of C. -/
def overC (f : K → K) (c : Nat → K) : Nat → K :=
  (List.range g.m).foldl (fun c i =>
    (List.range g.n).foldl (fun c j => Function.update c (i * g.ldc + j) (f (c (i * g.ldc + j)))) c) c

/-- `memset` for a `beta` of 0, nothing for 1. -/
def scaleC (c : Nat → K) : Nat → K :=
  if g.beta = 0 then g.overC (fun _ => 0) c else if g.beta ≠ 1 then g.overC (· * g.beta) c else c

/-- `sum` over one k-tile. -/
def tileSum (k0 i j : Nat) : K := ((tileSpan k0 g.k).map fun kk => g.loadA i kk * g.loadB kk j).sum

/-- The updates of row tile `ti`: an index of C, and what is added there. -/
def tileUpdates (ti : Nat) : List (Nat × K) :=
  (tileStarts g.n).flatMap fun j0 =>
    (tileStarts g.k).flatMap fun k0 =>
      (tileSpan (ti * kTile) g.m).flatMap fun i =>
        (tileSpan j0 g.n).map fun j => (i * g.ldc + j, g.alpha * g.tileSum k0 i j)

/-- `c[p] += x`. -/
def addAt (u : Nat × K) (c : Nat → K) : Nat → K := Function.update c u.1 (c u.1 + u.2)

/-- `op(A) op(B)` at `(i, j)`. -/
def product (i j : Nat) : K := ((List.range g.k).map fun kk => g.loadA i kk * g.loadB kk j).sum

end GemmArgs

/-- What `gemm_f32` can return; `none` is a null pointer. -/
def GemmF32 (hardware : Nat) (m n k : Int) (a : Option (Nat → K)) (lda : Nat) (transposeA : Bool) (b : Option (Nat → K))
    (ldb : Nat) (transposeB : Bool) (c : Option (Nat → K)) (ldc : Nat) (alpha beta : K) (r : Result (Nat → K)) : Prop :=
  match a, b, c with
  | some a, some b, some c =>
    if m ≤ 0 ∨ n ≤ 0 ∨ k ≤ 0 then r = fail .invalidArgument "ref gemm args"
    else
      let g : GemmArgs K := ⟨m.toNat, n.toNat, k.toNat, a, lda, transposeA, b, ldb, transposeB, ldc, alpha, beta⟩
      ∃ c', ParallelFor hardware ((g.m + kTile - 1) / kTile) g.tileUpdates GemmArgs.addAt (g.scaleC c) c' ∧ r = .ok c'
  | _, _, _ => r = fail .invalidArgument "ref gemm args"

/-! ## Tiles -/

/-- The tiles of a dimension are the dimension. -/
theorem tiles_range (n : Nat) : (tileStarts n).flatMap (tileSpan · n) = List.range n := by
  have hpre : ∀ t, (((List.range t).map (· * kTile)).flatMap (tileSpan · n)) = List.range (min (t * kTile) n) := by
    intro t
    induction t with
    | zero => simp
    | succ t ih =>
      rw [List.range_succ, List.map_append, List.flatMap_append, ih]
      simp only [List.map_cons, List.map_nil, List.flatMap_cons, List.flatMap_nil, List.append_nil, tileSpan]
      by_cases hlt : t * kTile ≤ n
      · have hmin : min (t * kTile) n = t * kTile := by omega
        have hsucc : min ((t + 1) * kTile) n = t * kTile + (min (t * kTile + kTile) n - t * kTile) := by
          rw [Nat.succ_mul]
          omega
        rw [hmin, hsucc, List.range_eq_range', List.range_eq_range', ← List.range'_append_1, Nat.zero_add]
      · have hmin : min (t * kTile) n = n := by omega
        have hsucc : min ((t + 1) * kTile) n = n := by
          rw [Nat.succ_mul]
          omega
        have hnone : min (t * kTile + kTile) n - t * kTile = 0 := by omega
        rw [hmin, hsucc, hnone]
        simp
  have hcover : min ((n + kTile - 1) / kTile * kTile) n = n := by
    have hdiv := Nat.div_add_mod (n + kTile - 1) kTile
    have hmod := Nat.mod_lt (n + kTile - 1) (show 0 < kTile by decide)
    rw [Nat.mul_comm] at hdiv
    have hk : kTile = 64 := rfl
    omega
  rw [tileStarts, hpre, hcover]

section

omit [DecidableEq K]

variable {β : Type}

theorem sum_flatMap (l : List β) (f : β → List K) : (l.flatMap f).sum = (l.map fun x => (f x).sum).sum := by
  induction l with
  | nil => rfl
  | cons x l ih => rw [List.flatMap_cons, List.sum_append, ih, List.map_cons, List.sum_cons]

/-- A sum over tiles is the sum over the dimension. -/
theorem sum_tiles (n : Nat) (f : Nat → K) :
    ((tileStarts n).map fun t0 => ((tileSpan t0 n).map f).sum).sum = ((List.range n).map f).sum := by
  rw [← tiles_range n, List.map_flatMap, sum_flatMap]

theorem sum_zero (l : List β) : (l.map fun _ => (0 : K)).sum = 0 := by
  induction l with
  | nil => rfl
  | cons x l ih => rw [List.map_cons, List.sum_cons, ih, add_zero]

theorem sum_mul (l : List β) (x : K) (f : β → K) : (l.map fun y => x * f y).sum = x * (l.map f).sum := by
  induction l with
  | nil => simp
  | cons y l ih => rw [List.map_cons, List.sum_cons, ih, List.map_cons, List.sum_cons, mul_add]

/-- Of a sum over distinct numbers one term. -/
theorem sum_pick {l : List Nat} (hl : l.Nodup) (i : Nat) (f : Nat → K) :
    (l.map fun x => if x = i then f x else 0).sum = if i ∈ l then f i else 0 := by
  induction l with
  | nil => simp
  | cons x l ih =>
    obtain ⟨hx, hnd⟩ := List.nodup_cons.mp hl
    rw [List.map_cons, List.sum_cons, ih hnd]
    by_cases he : x = i
    · subst he
      simp [hx]
    · simp [he, Ne.symm he]

theorem mem_tileSpan {t0 n i : Nat} (h : i ∈ tileSpan t0 n) : i < n := by
  simp only [tileSpan, List.mem_range'_1] at h
  omega

theorem tileSpan_nodup (t0 n : Nat) : (tileSpan t0 n).Nodup := by
  simp [tileSpan, List.nodup_range']

/-- A number below `n` is in one tile. -/
theorem sum_tile_pick {n i : Nat} (hi : i < n) (x : K) :
    ((tileStarts n).map fun t0 => if i ∈ tileSpan t0 n then x else 0).sum = x := by
  have htile : ∀ t0, (if i ∈ tileSpan t0 n then x else 0) = ((tileSpan t0 n).map fun j => if j = i then x else 0).sum :=
    fun t0 => (sum_pick (tileSpan_nodup t0 n) i fun _ => x).symm
  simp only [htile]
  rw [sum_tiles n, sum_pick List.nodup_range i, if_pos (List.mem_range.mpr hi)]

/-- Of a double sum over distinct numbers one term. -/
theorem sum_pick_pair {l l' : List Nat} (hl : l.Nodup) (hl' : l'.Nodup) (i j : Nat) (f : Nat → Nat → K) :
    (l.map fun x => (l'.map fun y => if x = i ∧ y = j then f x y else 0).sum).sum = if i ∈ l ∧ j ∈ l' then f i j else 0 := by
  have hinner : ∀ x, (l'.map fun y => if x = i ∧ y = j then f x y else 0).sum =
      if x = i then (if j ∈ l' then f x j else 0) else 0 := by
    intro x
    by_cases hx : x = i
    · simp only [hx, true_and, if_true]
      exact sum_pick hl' j (f i)
    · simp only [hx, false_and, if_false]
      exact sum_zero l'
  simp only [hinner]
  rw [sum_pick hl i fun x => if j ∈ l' then f x j else 0]
  by_cases hi : i ∈ l <;> simp [hi]

end

/-! ## What the updates leave -/

namespace GemmArgs

variable (g : GemmArgs K)

section

omit [DecidableEq K]

/-- What is added at an index. -/
def added (us : List (Nat × K)) (p : Nat) : K := (us.map fun u => if u.1 = p then u.2 else 0).sum

theorem perform_addAt : ∀ (us : List (Nat × K)) (c : Nat → K) (p : Nat), Workers.perform addAt us c p = c p + added us p := by
  intro us
  induction us with
  | nil => intro c p; simp [Workers.perform, added]
  | cons u us ih =>
    intro c p
    have hrest := ih (addAt u c) p
    rw [Workers.perform] at hrest ⊢
    rw [List.foldl_cons, hrest, added, added, List.map_cons, List.sum_cons, addAt]
    by_cases hp : u.1 = p
    · subst hp
      rw [Function.update_self, if_pos rfl, add_assoc]
    · rw [Function.update_of_ne (Ne.symm hp), if_neg hp, zero_add]

/-- In C an element has one row and one column. -/
theorem index_inj (i i' : Nat) {j j' ldc : Nat} (hj : j < ldc) (hj' : j' < ldc) : i * ldc + j = i' * ldc + j' ↔ i = i' ∧ j = j' := by
  constructor
  · intro h
    have hpos : 0 < ldc := by omega
    have hrow := congrArg (· / ldc) h
    simp only [Nat.mul_comm _ ldc, Nat.mul_add_div hpos, Nat.div_eq_of_lt hj, Nat.div_eq_of_lt hj', Nat.add_zero] at hrow
    subst hrow
    exact ⟨rfl, by omega⟩
  · rintro ⟨rfl, rfl⟩
    rfl

theorem added_flatMap {β : Type} (l : List β) (f : β → List (Nat × K)) (p : Nat) :
    added (l.flatMap f) p = (l.map fun x => added (f x) p).sum := by
  rw [added, List.map_flatMap, sum_flatMap]
  rfl

/-- What one depth of a tile adds to an element: its part of the product, where it is in the tile. -/
theorem added_block {i j : Nat} (hj : j < g.n) (hldc : g.n ≤ g.ldc) (i0 j0 k0 : Nat) :
    added ((tileSpan i0 g.m).flatMap fun x => (tileSpan j0 g.n).map fun y => (x * g.ldc + y, g.alpha * g.tileSum k0 x y))
        (i * g.ldc + j) =
      if i ∈ tileSpan i0 g.m ∧ j ∈ tileSpan j0 g.n then g.alpha * g.tileSum k0 i j else 0 := by
  rw [added_flatMap, ← sum_pick_pair (tileSpan_nodup i0 g.m) (tileSpan_nodup j0 g.n) i j fun x y => g.alpha * g.tileSum k0 x y]
  congr 1
  apply List.map_congr_left
  intro x _
  rw [added, List.map_map]
  congr 1
  apply List.map_congr_left
  intro y hy
  have hlt := mem_tileSpan hy
  simp only [Function.comp_apply, index_inj x i (show y < g.ldc by omega) (show j < g.ldc by omega)]

/-- The depths of a tile add up to the product. -/
theorem sum_depths (i j : Nat) (inside : Prop) [Decidable inside] :
    ((tileStarts g.k).map fun k0 => if inside then g.alpha * g.tileSum k0 i j else 0).sum =
      if inside then g.alpha * g.product i j else 0 := by
  split
  · rw [sum_mul]
    congr 1
    exact sum_tiles g.k fun kk => g.loadA i kk * g.loadB kk j
  · exact sum_zero _

/-- One tile of the row has the element. -/
theorem sum_row {i j : Nat} (hj : j < g.n) (i0 : Nat) (z : K) :
    ((tileStarts g.n).map fun j0 => if i ∈ tileSpan i0 g.m ∧ j ∈ tileSpan j0 g.n then z else 0).sum =
      if i ∈ tileSpan i0 g.m then z else 0 := by
  by_cases hmem : i ∈ tileSpan i0 g.m
  · simp only [hmem, true_and, if_true]
    exact sum_tile_pick hj _
  · simp only [hmem, false_and, if_false]
    exact sum_zero _

theorem added_tile {i j : Nat} (hj : j < g.n) (hldc : g.n ≤ g.ldc) (ti : Nat) : added (g.tileUpdates ti) (i * g.ldc + j) =
    if i ∈ tileSpan (ti * kTile) g.m then g.alpha * g.product i j else 0 := by
  rw [tileUpdates, added_flatMap, ← g.sum_row hj (ti * kTile)]
  congr 1
  apply List.map_congr_left
  intro j0 _
  rw [added_flatMap, ← g.sum_depths]
  congr 1
  exact List.map_congr_left fun k0 _ => g.added_block hj hldc (ti * kTile) j0 k0

/-- The updates of all tiles add `alpha * op(A) op(B)` to an element of C. -/
theorem added_tiles {i j : Nat} (hi : i < g.m) (hj : j < g.n) (hldc : g.n ≤ g.ldc) :
    added ((List.range ((g.m + kTile - 1) / kTile)).flatMap g.tileUpdates) (i * g.ldc + j) = g.alpha * g.product i j := by
  have hall := sum_tile_pick hi (g.alpha * g.product i j)
  rw [tileStarts, List.map_map] at hall
  rw [added_flatMap, ← hall]
  congr 1
  exact List.map_congr_left fun ti _ => g.added_tile hj hldc ti

/-- No update is outside the m × n elements. -/
theorem added_outside {p : Nat} (hp : ∀ i < g.m, ∀ j < g.n, p ≠ i * g.ldc + j) :
    added ((List.range ((g.m + kTile - 1) / kTile)).flatMap g.tileUpdates) p = 0 := by
  have hne : ∀ u ∈ (List.range ((g.m + kTile - 1) / kTile)).flatMap g.tileUpdates, (if u.1 = p then u.2 else 0) = 0 := by
    intro u hu
    simp only [tileUpdates, List.mem_flatMap, List.mem_map] at hu
    obtain ⟨ti, -, j0, -, k0, -, i, hi, j, hj, rfl⟩ := hu
    exact if_neg fun he => hp i (mem_tileSpan hi) j (mem_tileSpan hj) he.symm
  rw [added, List.map_congr_left hne]
  exact sum_zero _

end

/-! ## Scaling -/

omit [CommRing K] [DecidableEq K] in
theorem overRow (f : K → K) (r p : Nat) : ∀ (n : Nat) (c : Nat → K),
    (List.range n).foldl (fun c j => Function.update c (r + j) (f (c (r + j)))) c p =
      if r ≤ p ∧ p < r + n then f (c p) else c p := by
  intro n
  induction n with
  | zero =>
    intro c
    have hno : ¬ (r ≤ p ∧ p < r + 0) := by omega
    rw [if_neg hno]
    rfl
  | succ n ih =>
    intro c
    rw [List.range_succ, List.foldl_append, List.foldl_cons, List.foldl_nil]
    by_cases hp : p = r + n
    · subst hp
      have hold := ih c
      rw [if_neg (by omega)] at hold
      rw [Function.update_self, hold, if_pos (by omega)]
    · have hsame : (r ≤ p ∧ p < r + n) ↔ (r ≤ p ∧ p < r + (n + 1)) := by omega
      rw [Function.update_of_ne hp, ih c]
      simp only [hsame]

omit [CommRing K] [DecidableEq K] in
theorem overRows (f : K → K) {n ldc : Nat} (hldc : n ≤ ldc) (p : Nat) : ∀ (m : Nat) (c : Nat → K),
    ((∃ i < m, i * ldc ≤ p ∧ p < i * ldc + n) → (List.range m).foldl (fun c i =>
      (List.range n).foldl (fun c j => Function.update c (i * ldc + j) (f (c (i * ldc + j)))) c) c p = f (c p)) ∧
    ((¬ ∃ i < m, i * ldc ≤ p ∧ p < i * ldc + n) → (List.range m).foldl (fun c i =>
      (List.range n).foldl (fun c j => Function.update c (i * ldc + j) (f (c (i * ldc + j)))) c) c p = c p) := by
  intro m
  induction m with
  | zero => intro c; exact ⟨fun ⟨i, hi, _⟩ => by omega, fun _ => rfl⟩
  | succ m ih =>
    intro c
    obtain ⟨hin, hout⟩ := ih c
    rw [List.range_succ, List.foldl_append, List.foldl_cons, List.foldl_nil, overRow]
    by_cases hlast : m * ldc ≤ p ∧ p < m * ldc + n
    · -- the last row is past all earlier ones
      have hnone : ¬ ∃ i < m, i * ldc ≤ p ∧ p < i * ldc + n := by
        rintro ⟨i, hi, -, hlt⟩
        have hle : (i + 1) * ldc ≤ m * ldc := Nat.mul_le_mul_right _ hi
        rw [Nat.succ_mul] at hle
        omega
      rw [if_pos hlast, hout hnone]
      exact ⟨fun _ => rfl, fun hno => absurd ⟨m, Nat.lt_succ_self m, hlast⟩ hno⟩
    · rw [if_neg hlast]
      refine ⟨fun ⟨i, hi, hp⟩ => hin ⟨i, ?_, hp⟩, fun hno => hout fun ⟨i, hi, hp⟩ => hno ⟨i, Nat.lt_succ_of_lt hi, hp⟩⟩
      rcases Nat.lt_succ_iff_lt_or_eq.mp hi with hi | rfl
      · exact hi
      · exact absurd hp hlast

theorem scaleC_inside (hldc : g.n ≤ g.ldc) (c : Nat → K) {i j : Nat} (hi : i < g.m) (hj : j < g.n) :
    g.scaleC c (i * g.ldc + j) = g.beta * c (i * g.ldc + j) := by
  have hrow : ∃ x < g.m, x * g.ldc ≤ i * g.ldc + j ∧ i * g.ldc + j < x * g.ldc + g.n := ⟨i, hi, by omega, by omega⟩
  unfold scaleC
  split
  · rename_i hzero
    rw [hzero, zero_mul]
    exact (overRows (fun _ => 0) hldc _ g.m c).1 hrow
  · split
    · exact ((overRows (· * g.beta) hldc _ g.m c).1 hrow).trans (mul_comm _ _)
    · rename_i hone
      rw [not_not.mp hone, one_mul]

theorem scaleC_outside (hldc : g.n ≤ g.ldc) (c : Nat → K) {p : Nat} (hp : ∀ i < g.m, ∀ j < g.n, p ≠ i * g.ldc + j) :
    g.scaleC c p = c p := by
  have hrow : ¬ ∃ i < g.m, i * g.ldc ≤ p ∧ p < i * g.ldc + g.n := by
    rintro ⟨i, hi, hle, hlt⟩
    exact hp i hi (p - i * g.ldc) (by omega) (by omega)
  unfold scaleC
  split
  · exact (overRows (fun _ => 0) hldc _ g.m c).2 hrow
  · split
    · exact (overRows (· * g.beta) hldc _ g.m c).2 hrow
    · rfl

end GemmArgs

/-- A call returns, and what it returns is `alpha * op(A) op(B) + beta * C`, with the rest of
    C as it was, for any workers and any order of their updates. -/
theorem gemm_f32_exact (hardware : Nat) {m n k : Int} (hm : 0 < m) (hn : 0 < n) (hk : 0 < k) (a : Nat → K) (lda : Nat)
    (transposeA : Bool) (b : Nat → K) (ldb : Nat) (transposeB : Bool) (c : Nat → K) {ldc : Nat} (hldc : n ≤ ldc)
    (alpha beta : K) :
    (∃ r, GemmF32 hardware m n k (some a) lda transposeA (some b) ldb transposeB (some c) ldc alpha beta r) ∧
    ∀ r, GemmF32 hardware m n k (some a) lda transposeA (some b) ldb transposeB (some c) ldc alpha beta r →
      ∃ c', r = .ok c' ∧
        (∀ i < m.toNat, ∀ j < n.toNat, c' (i * ldc + j) =
          alpha * ((List.range k.toNat).map fun kk => (if transposeA then a (kk * lda + i) else a (i * lda + kk)) *
            (if transposeB then b (j * ldb + kk) else b (kk * ldb + j))).sum + beta * c (i * ldc + j)) ∧
        ∀ p, (∀ i < m.toNat, ∀ j < n.toNat, p ≠ i * ldc + j) → c' p = c p := by
  have hpos : ¬ (m ≤ 0 ∨ n ≤ 0 ∨ k ≤ 0) := by omega
  simp only [GemmF32, if_neg hpos]
  constructor
  · obtain ⟨c', hc'⟩ := ParallelFor.returns hardware ((m.toNat + kTile - 1) / kTile)
      (GemmArgs.tileUpdates ⟨m.toNat, n.toNat, k.toNat, a, lda, transposeA, b, ldb, transposeB, ldc, alpha, beta⟩)
      GemmArgs.addAt
      (GemmArgs.scaleC ⟨m.toNat, n.toNat, k.toNat, a, lda, transposeA, b, ldb, transposeB, ldc, alpha, beta⟩ c)
    exact ⟨.ok c', c', hc', rfl⟩
  · rintro r ⟨c', hrun, rfl⟩
    obtain ⟨order, hperm, rfl⟩ := hrun.order
    have hadded : ∀ p, GemmArgs.added order p = GemmArgs.added _ p := fun p => (hperm.map _).sum_eq
    refine ⟨_, rfl, fun i hi j hj => ?_, fun p hp => ?_⟩
    · rw [GemmArgs.perform_addAt, hadded, GemmArgs.added_tiles _ hi hj (by simpa using hldc),
        GemmArgs.scaleC_inside _ (by simpa using hldc) c hi hj, add_comm]
      rfl
    · rw [GemmArgs.perform_addAt, hadded, GemmArgs.added_outside _ hp, GemmArgs.scaleC_outside _ (by simpa using hldc) c hp,
        add_zero]

/-- `[1 2] [3 4]ᵀ + 2 * 5`, in a C of two elements. -/
theorem gemm_one_by_one : ∃ c' : Nat → Int,
    GemmF32 8 1 1 2 (some fun p => (p : Int) + 1) 2 false (some fun p => (p : Int) + 3) 2 true (some fun _ => 5) 2 1 2 (.ok c') ∧
      c' 0 = 21 ∧ c' 1 = 5 := by
  obtain ⟨⟨r, hr⟩, hall⟩ := gemm_f32_exact 8 (m := 1) (n := 1) (k := 2) (by decide) (by decide) (by decide)
    (fun p => (p : Int) + 1) 2 false (fun p => (p : Int) + 3) 2 true (fun _ => 5) (show (1 : Int) ≤ (2 : Nat) by decide) 1 2
  obtain ⟨c', rfl, hin, hout⟩ := hall r hr
  refine ⟨c', hr, (hin 0 (by decide) 0 (by decide)).trans (by decide), hout 1 fun i hi j hj => ?_⟩
  have hi' : i < 1 := hi
  have hj' : j < 1 := hj
  omega

end Gemm

end Uaii.Kernels
