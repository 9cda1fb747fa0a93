/-
  Uaii.Lib.Weighted — items with weights: the shortest prefix that reaches a mass, and
  the item that a number falls on when the weights are laid end to end.

  Proved: the prefix reaches the mass and no shorter one does (`upTo_shortest`), and an
  item is drawn by the numbers of an interval as long as its weight (`drawn_interval`).
-/

import Mathlib.Algebra.BigOperators.Group.List.Basic
import Mathlib.Algebra.Order.BigOperators.Group.List
import Mathlib.Algebra.Order.Field.Basic
import Mathlib.Tactic.Linarith

namespace Weighted

variable {α K : Type} [Field K]

def mass (w : α → K) (l : List α) : K := (l.map w).sum

@[simp] theorem mass_nil (w : α → K) : mass w [] = 0 := rfl

@[simp] theorem mass_cons (w : α → K) (a : α) (l : List α) : mass w (a :: l) = w a + mass w l := List.sum_cons

theorem mass_perm {w : α → K} {l l' : List α} (h : l.Perm l') : mass w l = mass w l' := (h.map w).sum_eq

/-- The weights over their sum. -/
theorem mass_div (w : α → K) (l : List α) (c : K) : mass (fun a => w a / c) l = mass w l / c := by
  induction l with
  | nil => simp
  | cons a l ih => rw [mass_cons, mass_cons, ih, add_div]

variable [LinearOrder K] [IsStrictOrderedRing K] {w : α → K} {l : List α}

theorem mass_nonneg (h : ∀ a ∈ l, 0 < w a) : 0 ≤ mass w l := by
  induction l with
  | nil => exact le_refl _
  | cons a l ih =>
    rw [mass_cons]
    exact add_nonneg (h a List.mem_cons_self).le (ih fun b hb => h b (List.mem_cons_of_mem _ hb))

theorem mass_pos (h : ∀ a ∈ l, 0 < w a) (hne : l ≠ []) : 0 < mass w l := by
  cases l with
  | nil => exact absurd rfl hne
  | cons a l =>
    rw [mass_cons]
    exact add_pos_of_pos_of_nonneg (h a List.mem_cons_self) (mass_nonneg fun b hb => h b (List.mem_cons_of_mem _ hb))

/-! ## The shortest prefix -/

/-- The items up to a mass of `p`, on top of `cum`. -/
def upTo (w : α → K) (p cum : K) : List α → List α
  | [] => []
  | a :: l => if p ≤ cum + w a then [a] else a :: upTo w p (cum + w a) l

structure Shortest (w : α → K) (p : K) (l pre : List α) : Prop where
  reaches : p ≤ mass w pre
  isPrefix : ∃ n, pre = l.take n ∧ ∀ m < n, mass w (l.take m) < p

omit [IsStrictOrderedRing K] in
theorem upTo_take (w : α → K) (p cum : K) (l : List α) (hcum : cum < p) (hreach : p ≤ cum + mass w l) :
    p ≤ cum + mass w (upTo w p cum l) ∧ ∃ n, upTo w p cum l = l.take n ∧ ∀ m < n, cum + mass w (l.take m) < p := by
  induction l generalizing cum with
  | nil =>
    rw [mass_nil, add_zero] at hreach
    exact absurd hcum (not_lt.mpr hreach)
  | cons a l ih =>
    rw [upTo]
    by_cases hstop : p ≤ cum + w a
    · rw [if_pos hstop]
      refine ⟨by rwa [mass_cons, mass_nil, add_zero], 1, rfl, fun m hm => ?_⟩
      obtain rfl : m = 0 := Nat.lt_one_iff.mp hm
      rwa [List.take_zero, mass_nil, add_zero]
    · rw [if_neg hstop]
      rw [mass_cons, ← add_assoc] at hreach
      obtain ⟨hmass, n, htake, hshort⟩ := ih (cum + w a) (not_le.mp hstop) hreach
      refine ⟨by rwa [mass_cons, ← add_assoc], n + 1, by rw [htake, List.take_succ_cons], fun m hm => ?_⟩
      cases m with
      | zero => rwa [List.take_zero, mass_nil, add_zero]
      | succ m =>
        rw [List.take_succ_cons, mass_cons, ← add_assoc]
        exact hshort m (Nat.lt_of_succ_lt_succ hm)

omit [IsStrictOrderedRing K] in
theorem upTo_shortest {p : K} (hp : 0 < p) (hreach : p ≤ mass w l) : Shortest w p l (upTo w p 0 l) := by
  obtain ⟨hmass, n, htake, hshort⟩ := upTo_take w p 0 l hp (by rwa [zero_add])
  refine ⟨by rwa [zero_add] at hmass, n, htake, fun m hm => ?_⟩
  have hlt := hshort m hm
  rwa [zero_add] at hlt

/-! ## Drawing -/

/-- The item that `r` falls on, or the last. -/
def drawn (w : α → K) (r cum : K) : List α → Option α
  | [] => none
  | a :: l => if r ≤ cum + w a ∨ l = [] then some a else drawn w r (cum + w a) l

omit [IsStrictOrderedRing K] in
theorem drawn_mem (w : α → K) (r cum : K) (l : List α) (hne : l ≠ []) : ∃ a ∈ l, drawn w r cum l = some a := by
  induction l generalizing cum with
  | nil => exact absurd rfl hne
  | cons a l ih =>
    rw [drawn]
    by_cases hstop : r ≤ cum + w a ∨ l = []
    · exact ⟨a, List.mem_cons_self, if_pos hstop⟩
    · obtain ⟨b, hb, hdrawn⟩ := ih (cum + w a) fun h => hstop (.inr h)
      exact ⟨b, List.mem_cons_of_mem _ hb, by rw [if_neg hstop, hdrawn]⟩

/-- Laid end to end from `cum`, an item has an interval of its own. -/
theorem drawn_interval (hpos : ∀ a ∈ l, 0 < w a) (hnodup : l.Nodup) (cum : K) {a : α} (ha : a ∈ l) :
    ∃ lo hi, hi - lo = w a ∧ cum ≤ lo ∧ hi ≤ cum + mass w l ∧
      ∀ r, cum < r → r ≤ cum + mass w l → (drawn w r cum l = some a ↔ lo < r ∧ r ≤ hi) := by
  induction l generalizing cum with
  | nil => cases ha
  | cons b l ih =>
    obtain ⟨hnew, hrest⟩ := List.nodup_cons.mp hnodup
    have hposRest : ∀ a ∈ l, 0 < w a := fun a ha => hpos a (List.mem_cons_of_mem _ ha)
    have hb := hpos b List.mem_cons_self
    have hnonneg := mass_nonneg hposRest
    rw [mass_cons]
    rcases List.mem_cons.mp ha with rfl | hmem
    · refine ⟨cum, cum + w a, add_sub_cancel_left cum (w a), le_refl _, by linarith, fun r hlo hhi => ?_⟩
      rw [drawn]
      by_cases hstop : r ≤ cum + w a ∨ l = []
      · rw [if_pos hstop]
        refine iff_of_true rfl ⟨hlo, ?_⟩
        rcases hstop with hle | hnil
        · exact hle
        · rwa [hnil, mass_nil, add_zero] at hhi
      · rw [if_neg hstop]
        obtain ⟨c, hc, hdrawn⟩ := drawn_mem w r (cum + w a) l fun h => hstop (.inr h)
        rw [hdrawn]
        refine iff_of_false (fun h => ?_) fun h => hstop (.inl h.2)
        cases h
        exact hnew hc
    · obtain ⟨lo, hi, hlen, hlo, hhi, hiff⟩ := ih hposRest hrest (cum + w b) hmem
      refine ⟨lo, hi, hlen, by linarith, by linarith, fun r hr hle => ?_⟩
      rw [drawn]
      have hne : l ≠ [] := List.ne_nil_of_mem hmem
      by_cases hstop : r ≤ cum + w b
      · rw [if_pos (.inl hstop)]
        refine iff_of_false (fun h => ?_) fun h => ?_
        · cases h
          exact hnew hmem
        · linarith [h.1]
      · rw [if_neg (by simp [hstop, hne])]
        exact hiff r (not_le.mp hstop) (by linarith)

end Weighted
