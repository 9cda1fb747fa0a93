/-
  Uaii.Lib.Runs — what holds along a run of a machine that steps by events.

  `Along P` asks `P` of every step; `Throughout Q P` asks also `Q` of every state. Where
  an invariant is kept by the steps that meet a condition, and no other step leads on to
  a state with `Q`, the two say the same of a run (`throughout_iff`).

  Where every step makes less of what is to come, no run goes on for ever (`ends`).
-/

namespace Runs

variable {σ ε : Type}

/-- `P` of every step. -/
def Along (step : σ → ε → σ) (P : σ → ε → Prop) : σ → List ε → Prop
  | _, [] => True
  | s, e :: es => P s e ∧ Along step P (step s e) es

/-- `Q` of every state and `P` of every step. -/
def Throughout (step : σ → ε → σ) (Q : σ → Prop) (P : σ → ε → Prop) : σ → List ε → Prop
  | s, [] => Q s
  | s, e :: es => Q s ∧ P s e ∧ Throughout step Q P (step s e) es

variable {step : σ → ε → σ} {Inv Q : σ → Prop} {Allowed Condition P : σ → ε → Prop}

theorem Throughout.head {s : σ} {es : List ε} (h : Throughout step Q P s es) : Q s := by
  cases es with
  | nil => exact h
  | cons e es => exact h.1

/-- A run has `Q` and `P` throughout exactly when all its steps meet the condition. -/
theorem throughout_iff (hQ : ∀ s, Inv s → Q s)
    (hkeep : ∀ s e, Inv s → Allowed s e → Condition s e → P s e ∧ Inv (step s e))
    (hlose : ∀ s e, Inv s → Allowed s e → P s e → Q (step s e) → Condition s e) :
    ∀ {es : List ε} {s : σ}, Inv s → Along step Allowed s es → (Throughout step Q P s es ↔ Along step Condition s es) := by
  intro es
  induction es with
  | nil =>
    intro s h _
    exact ⟨fun _ => trivial, fun _ => hQ s h⟩
  | cons e es ih =>
    intro s h ha
    constructor
    · intro ht
      have hc := hlose s e h ha.1 ht.2.1 ht.2.2.head
      obtain ⟨-, hnext⟩ := hkeep s e h ha.1 hc
      exact ⟨hc, (ih hnext ha.2).mp ht.2.2⟩
    · intro hc
      obtain ⟨hp, hnext⟩ := hkeep s e h ha.1 hc.1
      exact ⟨hQ s h, hp, (ih hnext ha.2).mpr hc.2⟩

/-- `P s k`: from `s` on at most `k` steps are to come. By that number. -/
theorem ends {R : σ → σ → Prop} {P : σ → Nat → Prop} (hstep : ∀ {s s' : σ} {k : Nat}, P s k → R s s' → ∃ k' < k, P s' k') :
    ∀ {k : Nat} {s : σ}, P s k → Acc (fun s' s => R s s') s := by
  intro k
  induction k using Nat.strongRecOn with
  | ind k ih =>
    intro s hs
    refine ⟨s, fun s' hs' => ?_⟩
    obtain ⟨k', hlt, hnext⟩ := hstep hs hs'
    exact ih k' hlt hnext

end Runs
