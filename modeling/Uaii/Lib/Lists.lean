/-
  Uaii.Lib.Lists — facts about lists that several modules use.
-/

import Mathlib.Algebra.Order.BigOperators.Group.List
import Mathlib.Algebra.Order.Group.Nat
import Mathlib.Data.List.Nodup

namespace Lists

variable {α β : Type}

/-- In a list of disjoint groups an element is in one group only. -/
theorem eq_of_mem_flatMap {f : α → List β} {l : List α} (h : (l.flatMap f).Nodup) {a b : α} {x : β} (ha : a ∈ l)
    (hb : b ∈ l) (hxa : x ∈ f a) (hxb : x ∈ f b) : a = b := by
  induction l with
  | nil => cases ha
  | cons c l ih =>
    rw [List.flatMap_cons, List.nodup_append] at h
    obtain ⟨-, hl, hdis⟩ := h
    have hmem : ∀ d ∈ l, x ∈ f d → x ∈ l.flatMap f := fun d hd hx => List.mem_flatMap.mpr ⟨d, hd, hx⟩
    rcases List.mem_cons.mp ha with hac | hal
    · rcases List.mem_cons.mp hb with hbc | hbl
      · exact hac.trans hbc.symm
      · exact absurd rfl (hdis x (hac ▸ hxa) x (hmem b hbl hxb))
    · rcases List.mem_cons.mp hb with hbc | hbl
      · exact absurd rfl (hdis x (hbc ▸ hxb) x (hmem a hal hxa))
      · exact ih hl hal hbl

/-- Rows of equally long groups are equal group by group. -/
theorem flatMap_range_inj {f g : Nat → List β} {m : Nat} (hf : ∀ i, (f i).length = m) (hg : ∀ i, (g i).length = m) :
    ∀ n, (List.range n).flatMap f = (List.range n).flatMap g ↔ ∀ i < n, f i = g i := by
  intro n
  induction n with
  | zero => simp
  | succ n ih =>
    simp only [List.range_succ, List.flatMap_append, List.flatMap_cons, List.flatMap_nil, List.append_nil]
    constructor
    · intro h i hi
      obtain ⟨hinit, hlast⟩ := List.append_inj' h (by rw [hf, hg])
      rcases Nat.lt_succ_iff_lt_or_eq.mp hi with hi | rfl
      · exact ih.mp hinit i hi
      · exact hlast
    · intro h
      rw [ih.mpr fun i hi => h i (by omega), h n (by omega)]

theorem map_range_inj {f g : Nat → β} (n : Nat) : (List.range n).map f = (List.range n).map g ↔ ∀ i < n, f i = g i := by
  simp only [List.map_inj_left, List.mem_range]

theorem length_flatMap_range {f : Nat → List β} {m n : Nat} (h : ∀ i < n, (f i).length = m) :
    ((List.range n).flatMap f).length = n * m := by
  have hmap : (List.range n).map (fun i => (f i).length) = (List.range n).map fun _ => m :=
    List.map_congr_left fun i hi => h i (List.mem_range.mp hi)
  rw [List.length_flatMap, hmap, List.map_const', List.sum_replicate_nat, List.length_range]

/-- Groups of at least so much. -/
theorem mul_length_le_flatMap {f : α → List β} {c d : Nat} {l : List α} (h : ∀ a ∈ l, c ≤ d * (f a).length) :
    l.length * c ≤ d * (l.flatMap f).length := by
  induction l with
  | nil => simp
  | cons a l ih =>
    have ha := h a List.mem_cons_self
    have hl := ih fun b hb => h b (List.mem_cons_of_mem _ hb)
    rw [List.flatMap_cons, List.length_append, List.length_cons, Nat.succ_mul, Nat.mul_add]
    omega

/-- Groups that are nowhere longer make up the same list only when they are the same. -/
theorem flatMap_eq_of_length_le {f g : α → List β} : ∀ {l : List α}, (∀ a ∈ l, (f a).length ≤ (g a).length) →
    (l.flatMap f = l.flatMap g ↔ ∀ a ∈ l, f a = g a) := by
  intro l
  induction l with
  | nil => simp
  | cons a l ih =>
    intro h
    have ha := h a List.mem_cons_self
    have hl : ∀ b ∈ l, (f b).length ≤ (g b).length := fun b hb => h b (List.mem_cons_of_mem _ hb)
    have hsum : (l.flatMap f).length ≤ (l.flatMap g).length := by
      rw [List.length_flatMap, List.length_flatMap]
      exact List.sum_le_sum hl
    rw [List.flatMap_cons, List.flatMap_cons, List.forall_mem_cons]
    constructor
    · intro he
      have hlen := congrArg List.length he
      rw [List.length_append, List.length_append] at hlen
      rcases List.append_inj he (by omega) with ⟨hfa, hrest⟩
      exact ⟨hfa, (ih hl).mp hrest⟩
    · rintro ⟨hfa, hrest⟩
      rw [hfa, (ih hl).mpr hrest]

/-- Element `j` of group `e`, in the concatenation of equally long groups. -/
theorem getElem?_flatMap_range {f : Nat → List β} {m : Nat} : ∀ (n : Nat), (∀ i < n, (f i).length = m) →
    ∀ e < n, ∀ j < m, ((List.range n).flatMap f)[e * m + j]? = (f e)[j]? := by
  intro n
  induction n with
  | zero => intro _ e he; omega
  | succ n ih =>
    intro hlen e he j hj
    have hinit : ((List.range n).flatMap f).length = n * m := length_flatMap_range fun i hi => hlen i (by omega)
    rw [List.range_succ, List.flatMap_append]
    rcases Nat.lt_succ_iff_lt_or_eq.mp he with he | rfl
    · have hle : (e + 1) * m ≤ n * m := Nat.mul_le_mul_right _ he
      rw [Nat.succ_mul] at hle
      rw [List.getElem?_append_left (by omega)]
      exact ih (fun i hi => hlen i (by omega)) e he j hj
    · rw [List.getElem?_append_right (by omega), hinit]
      simp

/-- The only element that satisfies `p` is found. -/
theorem find?_of_unique {p : α → Bool} {l : List α} {a : α} (ha : a ∈ l) (hp : p a = true)
    (h : ∀ b ∈ l, p b = true → b = a) : l.find? p = some a := by
  cases hfind : l.find? p with
  | none => exact absurd hp (List.find?_eq_none.mp hfind a ha)
  | some b => rw [h b (List.mem_of_find?_eq_some hfind) (List.find?_some hfind)]

/-- The element of a key, where there is one of each. -/
theorem find?_of_nodup [BEq β] [LawfulBEq β] {key : α → β} {l : List α} (h : (l.map key).Nodup) {a : α} (ha : a ∈ l) :
    l.find? (key · == key a) = some a :=
  find?_of_unique ha (beq_self_eq_true _) fun _ hb hkey => List.inj_on_of_nodup_map h hb ha (eq_of_beq hkey)

theorem find?_reverse_of_nodup [BEq β] [LawfulBEq β] {key : α → β} {l : List α} (h : (l.map key).Nodup) {a : α} (ha : a ∈ l) :
    l.reverse.find? (key · == key a) = some a := by
  have hrev : (l.reverse.map key).Nodup := by
    rw [List.map_reverse]
    exact List.nodup_reverse.mpr h
  exact find?_of_nodup hrev (List.mem_reverse.mpr ha)

/-- All of a key, where there is one of each. -/
theorem filter_of_nodup [BEq β] [LawfulBEq β] {key : α → β} {l : List α} (h : (l.map key).Nodup) {a : α} (ha : a ∈ l) :
    l.filter (key · == key a) = [a] := by
  induction l with
  | nil => cases ha
  | cons b l ih =>
    obtain ⟨hnot, hnd⟩ := List.nodup_cons.mp h
    rcases List.mem_cons.mp ha with rfl | ha
    · rw [List.filter_cons, if_pos (beq_self_eq_true _), List.filter_eq_nil_iff.mpr]
      intro c hc hkey
      exact hnot (List.mem_map.mpr ⟨c, hc, eq_of_beq hkey⟩)
    · have hne : ¬ (key b == key a) = true := by
        intro hkey
        exact hnot (List.mem_map.mpr ⟨a, ha, (eq_of_beq hkey).symm⟩)
      rw [List.filter_cons, if_neg hne, ih hnd ha]

/-- The group an element is in, where the groups are disjoint. -/
theorem find?_of_disjoint [DecidableEq β] {f : α → List β} {l : List α} (h : (l.flatMap f).Nodup) {a : α} {x : β}
    (ha : a ∈ l) (hx : x ∈ f a) : l.find? (x ∈ f ·) = some a :=
  find?_of_unique ha (decide_eq_true hx) fun _ hb hxb => eq_of_mem_flatMap h hb ha (of_decide_eq_true hxb) hx

/-- The loop that keeps the first index of the smallest value. -/
theorem foldl_first_min {γ : Type} [LinearOrder γ] (v : Nat → γ) : ∀ n, 0 < n →
    (List.range n).foldl (fun best i => if v i < v best then i else best) 0 < n ∧
      (∀ i < n, v ((List.range n).foldl (fun best i => if v i < v best then i else best) 0) ≤ v i) ∧
      ∀ i < (List.range n).foldl (fun best i => if v i < v best then i else best) 0,
        v ((List.range n).foldl (fun best i => if v i < v best then i else best) 0) < v i := by
  intro n hn
  induction n with
  | zero => omega
  | succ n ih =>
    rw [List.range_succ, List.foldl_append, List.foldl_cons, List.foldl_nil]
    rcases Nat.eq_zero_or_pos n with rfl | hpos
    · simp
    obtain ⟨hlt, hle, hfirst⟩ := ih hpos
    split
    · rename_i hnew
      refine ⟨Nat.lt_succ_self n, fun i hi => ?_, fun i hi => lt_of_lt_of_le hnew (hle i hi)⟩
      rcases Nat.lt_succ_iff_lt_or_eq.mp hi with hi | rfl
      · exact (lt_of_lt_of_le hnew (hle i hi)).le
      · exact le_refl _
    · rename_i hold
      refine ⟨Nat.lt_succ_of_lt hlt, fun i hi => ?_, hfirst⟩
      rcases Nat.lt_succ_iff_lt_or_eq.mp hi with hi | rfl
      · exact hle i hi
      · exact not_lt.mp hold

/-- A loop over the numbers below `n`: what each round takes from one index to the next. -/
theorem foldlM_range {ε : Type} {f : β → Nat → Except ε β} {P : Nat → β → Prop} {n : Nat}
    (hstep : ∀ i < n, ∀ y y', P i y → f y i = .ok y' → P (i + 1) y') :
    ∀ {y y' : β}, P 0 y → (List.range n).foldlM f y = .ok y' → P n y' := by
  induction n with
  | zero =>
    intro y y' h0 h
    cases h
    exact h0
  | succ n ih =>
    intro y y' h0 h
    rw [List.range_succ, List.foldlM_append] at h
    cases hrun : (List.range n).foldlM f y with
    | error e =>
      rw [hrun] at h
      cases h
    | ok z =>
      rw [hrun] at h
      replace h : f z n >>= pure = Except.ok y' := h
      rw [bind_pure] at h
      exact hstep n (by omega) z y' (ih (fun i hi => hstep i (by omega)) h0 hrun) h

/-- A loop that runs to its end does so from every state related to its own. -/
theorem foldlM_related {γ ε : Type} {f : β → α → Except ε β} {g : γ → α → Except ε γ} {R : β → γ → Prop} {l : List α}
    (hstep : ∀ a ∈ l, ∀ y z y', R y z → f y a = .ok y' → ∃ z', g z a = .ok z' ∧ R y' z') :
    ∀ {y y' : β} {z : γ}, R y z → l.foldlM f y = .ok y' → ∃ z', l.foldlM g z = .ok z' ∧ R y' z' := by
  induction l with
  | nil =>
    intro y y' z hR h
    cases h
    exact ⟨z, rfl, hR⟩
  | cons a l ih =>
    intro y y' z hR h
    rw [List.foldlM_cons] at h
    cases hfirst : f y a with
    | error e =>
      rw [hfirst] at h
      cases h
    | ok y₁ =>
      rw [hfirst] at h
      obtain ⟨z₁, hz₁, hR₁⟩ := hstep a List.mem_cons_self y z y₁ hR hfirst
      obtain ⟨z', hz', hR'⟩ := ih (fun b hb => hstep b (List.mem_cons_of_mem a hb)) hR₁ h
      refine ⟨z', ?_, hR'⟩
      rw [List.foldlM_cons, hz₁]
      exact hz'

/-- A product whose factors are multiplied in words. -/
theorem foldl_mul_mod (m : Nat) (l : List Nat) : ∀ n, l.foldl (fun n d => n * d % m) (n % m) = n * l.prod % m := by
  induction l with
  | nil =>
    intro n
    rw [List.foldl_nil, List.prod_nil, Nat.mul_one]
  | cons d l ih =>
    intro n
    rw [List.foldl_cons, Nat.mod_mul_mod, ih, List.prod_cons, Nat.mul_assoc]

end Lists
