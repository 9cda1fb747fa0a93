/-
  Uaii.Lib.Rows — a flat buffer as rows of one width, and copies of whole rows.

  `blit` is `memcpy` and `memmove` alike: it reads its source as it was before.
-/

import Mathlib.Data.List.GetD
import Uaii.Lib.Lists

namespace Rows

variable {α : Type}

/-- Row `i` of rows of `d` elements. -/
def row (d : Nat) (xs : List α) (i : Nat) : List α := (xs.drop (i * d)).take d

/-- `n` elements of `src` from `s` on, written to `dst` at `t`. -/
def blit (dst : List α) (t : Nat) (src : List α) (s n : Nat) : List α :=
  dst.take t ++ (src.drop s).take n ++ dst.drop (t + n)

theorem getElem?_row (d : Nat) (xs : List α) (i j : Nat) : (row d xs i)[j]? = if j < d then xs[i * d + j]? else none := by
  rw [row, List.getElem?_take, List.getElem?_drop]

theorem getD_row {d j : Nat} (hj : j < d) (xs : List α) (i : Nat) (x : α) : (row d xs i).getD j x = xs.getD (i * d + j) x := by
  rw [List.getD_eq_getElem?_getD, getElem?_row, if_pos hj, List.getD_eq_getElem?_getD]

theorem row_length {d i : Nat} {xs : List α} (h : (i + 1) * d ≤ xs.length) : (row d xs i).length = d := by
  rw [Nat.add_mul] at h
  rw [row, List.length_take, List.length_drop]
  omega

/-- Row `i` of the rows of group `b`. -/
theorem row_grid {g : Nat → Nat → List α} {d T B : Nat} (hg : ∀ b < B, ∀ i < T, (g b i).length = d) {b i : Nat} (hb : b < B)
    (hi : i < T) : row d ((List.range B).flatMap fun b => (List.range T).flatMap (g b)) (b * T + i) = g b i := by
  have hgroup : ∀ b < B, ((List.range T).flatMap (g b)).length = T * d := fun b hb => Lists.length_flatMap_range (hg b hb)
  have hlen := hg b hb i hi
  apply List.ext_getElem?
  intro j
  rw [getElem?_row]
  by_cases hj : j < d
  · have hle : (i + 1) * d ≤ T * d := Nat.mul_le_mul_right d hi
    rw [Nat.add_mul] at hle
    rw [if_pos hj, Nat.add_mul, Nat.mul_assoc, Nat.add_assoc,
      Lists.getElem?_flatMap_range B hgroup b hb (i * d + j) (by omega), Lists.getElem?_flatMap_range T (hg b hb) i hi j hj]
  · rw [if_neg hj, List.getElem?_eq_none (by omega)]

/-- Row `i` of rows that are concatenated. -/
theorem row_flatMap {f : Nat → List α} {d n : Nat} (hf : ∀ i < n, (f i).length = d) {i : Nat} (hi : i < n) :
    row d ((List.range n).flatMap f) i = f i := by
  apply List.ext_getElem?
  intro j
  rw [getElem?_row]
  split
  · rename_i hj
    exact Lists.getElem?_flatMap_range n hf i hi j hj
  · rename_i hj
    have hlen := hf i hi
    rw [List.getElem?_eq_none (by omega)]

theorem blit_length {dst src : List α} {t s n : Nat} (hd : t + n ≤ dst.length) (hs : s + n ≤ src.length) :
    (blit dst t src s n).length = dst.length := by
  simp only [blit, List.length_append, List.length_take, List.length_drop]
  omega

theorem getElem?_blit {dst src : List α} {t s n : Nat} (hd : t + n ≤ dst.length) (hs : s + n ≤ src.length) (i : Nat) :
    (blit dst t src s n)[i]? = if t ≤ i ∧ i < t + n then src[s + (i - t)]? else dst[i]? := by
  have hpre : (dst.take t).length = t := List.length_take_of_le (by omega)
  have hmid : ((src.drop s).take n).length = n := by
    rw [List.length_take, List.length_drop]
    omega
  unfold blit
  by_cases hlt : i < t
  · rw [List.append_assoc, List.getElem?_append_left (by omega), List.getElem?_take_of_lt hlt, if_neg (by omega)]
  · by_cases hin : i < t + n
    · rw [List.append_assoc, List.getElem?_append_right (by omega), hpre, List.getElem?_append_left (by omega),
        List.getElem?_take_of_lt (by omega), List.getElem?_drop, if_pos (by omega)]
    · rw [List.getElem?_append_right (by rw [List.length_append]; omega), List.length_append, hpre, hmid,
        List.getElem?_drop, if_neg (by omega)]
      congr 1
      omega

/-- Copying rows. -/
theorem row_blit {dst src : List α} {d r q n : Nat} (hd : (r + n) * d ≤ dst.length) (hs : (q + n) * d ≤ src.length)
    (i : Nat) : row d (blit dst (r * d) src (q * d) (n * d)) i =
      if r ≤ i ∧ i < r + n then row d src (q + (i - r)) else row d dst i := by
  rw [Nat.add_mul] at hd hs
  have hin : r ≤ i ∧ i < r + n → ∀ j < d, r * d ≤ i * d + j ∧ i * d + j < r * d + n * d := by
    intro h j hj
    have hlo := Nat.mul_le_mul_right d h.1
    have hhi := Nat.mul_le_mul_right d (show i + 1 ≤ r + n from h.2)
    rw [Nat.add_mul, Nat.add_mul] at hhi
    omega
  have hout : ¬ (r ≤ i ∧ i < r + n) → ∀ j < d, ¬ (r * d ≤ i * d + j ∧ i * d + j < r * d + n * d) := by
    intro h j hj hc
    by_cases hlt : i < r
    · have hmul := Nat.mul_le_mul_right d (show i + 1 ≤ r from hlt)
      rw [Nat.add_mul] at hmul
      omega
    · have hmul := Nat.mul_le_mul_right d (show r + n ≤ i by omega)
      rw [Nat.add_mul] at hmul
      omega
  apply List.ext_getElem?
  intro j
  by_cases hj : j < d
  · rw [getElem?_row, if_pos hj, getElem?_blit hd hs]
    by_cases h : r ≤ i ∧ i < r + n
    · rw [if_pos (hin h j hj), if_pos h, getElem?_row, if_pos hj, Nat.add_mul, Nat.sub_mul]
      have hlo := Nat.mul_le_mul_right d h.1
      congr 1
      omega
    · rw [if_neg (hout h j hj), if_neg h, getElem?_row, if_pos hj]
  · rw [getElem?_row, if_neg hj]
    split
    · rw [getElem?_row, if_neg hj]
    · rw [getElem?_row, if_neg hj]

/-- Copying one row. -/
theorem row_blit_one {dst src : List α} {d r q : Nat} (hd : (r + 1) * d ≤ dst.length) (hs : (q + 1) * d ≤ src.length)
    (i : Nat) : row d (blit dst (r * d) src (q * d) d) i = if i = r then row d src q else row d dst i := by
  have hone := row_blit hd hs i
  rw [Nat.one_mul] at hone
  rw [hone]
  by_cases h : i = r
  · subst h
    rw [if_pos ⟨by omega, by omega⟩, if_pos rfl, Nat.sub_self, Nat.add_zero]
  · rw [if_neg (by omega), if_neg h]

/-- A run of rows. -/
theorem slice_rows (d : Nat) (xs : List α) (r n : Nat) :
    (xs.drop (r * d)).take (n * d) = (List.range n).flatMap fun i => row d xs (r + i) := by
  induction n with
  | zero => simp
  | succ n ih =>
    rw [Nat.succ_mul, List.take_add, ih, List.drop_drop, ← Nat.add_mul, List.range_succ, List.flatMap_append]
    simp [row]

end Rows
