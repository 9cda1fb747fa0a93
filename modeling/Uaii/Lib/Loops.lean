/-
  Uaii.Lib.Loops — loops that may go on for ever.

  One turn of a loop goes on (`yield`) or leaves it (`done`); `none` where a loop inside
  the turn has not ended. A run has fuel for so many turns.

  Proved: where every turn keeps an invariant and makes a measure smaller, or leaves with
  what is wanted, the loop ends with that, with any fuel above the measure (`loop_ends`).
-/

import Mathlib.Data.Nat.Basic

namespace Loops

variable {σ : Type}

def loop (turn : σ → Option (ForInStep σ)) : Nat → σ → Option σ
  | 0, _ => none
  | fuel + 1, s =>
    match turn s with
    | none => none
    | some (.done s') => some s'
    | some (.yield s') => loop turn fuel s'

variable {turn : σ → Option (ForInStep σ)} {fuel : Nat} {s s' : σ}

theorem loop_done (h : turn s = some (.done s')) : loop turn (fuel + 1) s = some s' := by
  rw [loop, h]

theorem loop_yield (h : turn s = some (.yield s')) : loop turn (fuel + 1) s = loop turn fuel s' := by
  rw [loop, h]

/-- What a turn must do: leave with `Post`, or go on from a smaller state. -/
def Turns (turn : σ → Option (ForInStep σ)) (Inv Post : σ → Prop) (size : σ → Nat) (s : σ) : Prop :=
  (∃ s', turn s = some (.done s') ∧ Post s') ∨ ∃ s', turn s = some (.yield s') ∧ Inv s' ∧ size s' < size s

/-- By the fuel. -/
theorem loop_ends {Inv Post : σ → Prop} {size : σ → Nat} (hturn : ∀ s, Inv s → Turns turn Inv Post size s) :
    ∀ {fuel : Nat} {s : σ}, Inv s → size s < fuel → ∃ s', loop turn fuel s = some s' ∧ Post s' := by
  intro fuel
  induction fuel with
  | zero =>
    intro s _ hlt
    exact absurd hlt (Nat.not_lt_zero _)
  | succ fuel ih =>
    intro s hs hlt
    rcases hturn s hs with ⟨s', hdone, hpost⟩ | ⟨s', hyield, hs', hsize⟩
    · exact ⟨s', loop_done hdone, hpost⟩
    · rw [loop_yield hyield]
      exact ih hs' (Nat.lt_of_lt_of_le hsize (Nat.lt_succ_iff.mp hlt))

end Loops
