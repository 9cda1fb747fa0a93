/-
  Uaii.Lib.Workers — workers that take jobs from a shared counter.

  Job `i` is a list of actions on a shared memory. A worker without an action left takes
  the next number, and stops when there is no such job; actions of different workers
  interleave in any way.

  Proved: a finished run has done every action of every job once, in some order
  (`finished_order`); every run can be finished (`finishes`), and no run goes on for ever
  (`step_decreases`). Where actions commute in what they leave, the order does not matter.
-/

import Mathlib.Data.List.Perm.Basic
import Mathlib.Logic.Relation
import Mathlib.Algebra.BigOperators.Group.List.Basic
import Mathlib.Algebra.GroupWithZero.Nat

namespace Workers

variable {α σ : Type}

structure State (α σ : Type) where
  next : Nat
  /-- What each worker has left of its job; `none` once it has stopped. -/
  workers : List (Option (List α))
  mem : σ

def start (w : Nat) (m : σ) : State α σ := ⟨0, List.replicate w (some []), m⟩

def State.finished (s : State α σ) : Prop := ∀ w ∈ s.workers, w = none

variable (jobs : Nat → List α) (act : α → σ → σ) (n : Nat)

inductive Step : State α σ → State α σ → Prop
  | take {next : Nat} {pre post : List (Option (List α))} {m : σ} : next < n →
      Step ⟨next, pre ++ some [] :: post, m⟩ ⟨next + 1, pre ++ some (jobs next) :: post, m⟩
  | stop {next : Nat} {pre post : List (Option (List α))} {m : σ} : n ≤ next →
      Step ⟨next, pre ++ some [] :: post, m⟩ ⟨next + 1, pre ++ none :: post, m⟩
  | act {next : Nat} {a : α} {rest : List α} {pre post : List (Option (List α))} {m : σ} :
      Step ⟨next, pre ++ some (a :: rest) :: post, m⟩ ⟨next, pre ++ some rest :: post, act a m⟩

abbrev Run : State α σ → State α σ → Prop := Relation.ReflTransGen (Step jobs act n)

/-- The actions one after the other. -/
def perform (order : List α) (m : σ) : σ := order.foldl (fun m a => act a m) m

/-- What the workers have left. -/
def left (ws : List (Option (List α))) : List α := ws.flatMap (·.getD [])

variable {jobs act n} {s s' : State α σ} {m₀ : σ}

/-- What is done and what is left are the actions of the jobs taken so far. -/
structure Inv (jobs : Nat → List α) (act : α → σ → σ) (n : Nat) (m₀ : σ) (s : State α σ) : Prop where
  order : ∃ done : List α, s.mem = perform act done m₀ ∧
    (done ++ left s.workers).Perm ((List.range (min s.next n)).flatMap jobs)
  stopped : none ∈ s.workers → n ≤ s.next
  nonempty : s.workers ≠ []

theorem start_inv {w : Nat} (hw : 0 < w) : Inv jobs act n m₀ (start w m₀) := by
  have hleft : left (List.replicate w (some ([] : List α))) = [] := by simp [left]
  refine ⟨⟨[], rfl, ?_⟩, fun hnone => ?_, ?_⟩
  · show (left (List.replicate w (some []))).Perm ((List.range (min 0 n)).flatMap jobs)
    rw [hleft, Nat.zero_min]
    exact List.Perm.refl _
  · have hsome := List.eq_of_mem_replicate hnone
    cases hsome
  · simpa [start] using Nat.ne_of_gt hw

/-- The worker in the middle has its share of what is left. -/
theorem left_middle (pre post : List (Option (List α))) (w : Option (List α)) :
    left (pre ++ w :: post) = left pre ++ (w.getD [] ++ left post) := by
  simp [left]

theorem step_inv (h : Inv jobs act n m₀ s) (hstep : Step jobs act n s s') : Inv jobs act n m₀ s' := by
  obtain ⟨⟨done, hmem, hperm⟩, hstopped, -⟩ := h
  cases hstep with
  | @take next pre post m hlt =>
    refine ⟨⟨done, hmem, ?_⟩, fun hnone => ?_, by simp⟩
    · have hmin : min (next + 1) n = min next n + 1 := by omega
      have hnext : min next n = next := by omega
      simp only [left_middle, Option.getD_some, List.nil_append] at hperm ⊢
      rw [hmin, List.range_succ, List.flatMap_append, hnext]
      rw [hnext] at hperm
      calc (done ++ (left pre ++ (jobs next ++ left post))).Perm ((done ++ left pre) ++ (jobs next ++ left post)) := by
            rw [List.append_assoc]
        _ |>.Perm ((done ++ left pre) ++ (left post ++ jobs next)) := List.Perm.append_left _ List.perm_append_comm
        _ |>.Perm ((done ++ (left pre ++ left post)) ++ jobs next) := by simp only [List.append_assoc]; exact List.Perm.refl _
        _ |>.Perm _ := by simpa using List.Perm.append_right (jobs next) hperm
    · have hne : none ∈ pre ++ some ([] : List α) :: post := by simpa using hnone
      exact Nat.le_succ_of_le (hstopped hne)
  | @stop next pre post m hle =>
    refine ⟨⟨done, hmem, ?_⟩, fun _ => Nat.le_succ_of_le hle, by simp⟩
    have hmin : min (next + 1) n = min next n := by omega
    simpa only [left_middle, Option.getD_some, Option.getD_none, hmin] using hperm
  | @act next a rest pre post m =>
    refine ⟨⟨done ++ [a], ?_, ?_⟩, fun hnone => hstopped (by simpa using hnone), by simp⟩
    · simp only [perform, List.foldl_append, List.foldl_cons, List.foldl_nil]
      exact congrArg (act a) hmem
    · simp only [left_middle, Option.getD_some, List.cons_append] at hperm ⊢
      refine List.Perm.trans ?_ hperm
      simp only [List.append_assoc, List.singleton_append]
      refine List.Perm.append_left done ?_
      exact List.perm_middle.symm

theorem run_inv (h : Inv jobs act n m₀ s) (hrun : Run jobs act n s s') : Inv jobs act n m₀ s' := by
  induction hrun with
  | refl => exact h
  | tail _ hstep ih => exact step_inv ih hstep

/-- A finished run has done each action once. -/
theorem finished_order {w : Nat} (hw : 0 < w) (hrun : Run jobs act n (start w m₀) s) (hf : s.finished) :
    ∃ order : List α, order.Perm ((List.range n).flatMap jobs) ∧ s.mem = perform act order m₀ := by
  obtain ⟨⟨done, hmem, hperm⟩, hstopped, hne⟩ := run_inv (start_inv hw) hrun
  have hleft : left s.workers = [] := by
    rw [left, List.flatMap_eq_nil_iff]
    intro v hv
    rw [hf v hv]
    rfl
  obtain ⟨v, hv⟩ := List.exists_mem_of_ne_nil _ hne
  have hnext := hstopped (hf v hv ▸ hv)
  rw [hleft, List.append_nil, Nat.min_eq_right hnext] at hperm
  exact ⟨done, hperm, hmem⟩

/-! ## Runs end -/

/-- Actions and takes that are still to come. -/
def remaining (jobs : Nat → List α) (n : Nat) (s : State α σ) : Nat :=
  ((List.range' s.next (n - s.next)).map fun i => (jobs i).length + 1).sum +
    (s.workers.map fun w => w.elim 0 fun rest => rest.length + 1).sum

theorem step_decreases (hstep : Step jobs act n s s') : remaining jobs n s' < remaining jobs n s := by
  cases hstep with
  | @take next pre post m hlt =>
    have hrange : List.range' next (n - next) = next :: List.range' (next + 1) (n - (next + 1)) := by
      have hsub : n - next = n - (next + 1) + 1 := by omega
      rw [hsub, List.range'_succ]
    simp only [remaining, hrange, List.map_append, List.map_cons, List.sum_append, List.sum_cons, Option.elim_some,
      List.length_nil]
    omega
  | @stop next pre post m hle =>
    have hsub : n - next = 0 := by omega
    have hsub' : n - (next + 1) = 0 := by omega
    simp only [remaining, hsub, hsub', List.range'_zero, List.map_nil, List.sum_nil, List.map_append, List.map_cons, List.sum_append, List.sum_cons, Option.elim_some,
      Option.elim_none, List.length_nil]
    omega
  | @act next a rest pre post m =>
    simp only [remaining, List.map_append, List.map_cons, List.sum_append, List.sum_cons, Option.elim_some, List.length_cons]
    omega

/-- A worker that has not stopped can go on. -/
theorem progress (s : State α σ) (hf : ¬ s.finished) : ∃ s', Step jobs act n s s' := by
  obtain ⟨next, workers, m⟩ := s
  simp only [State.finished, not_forall] at hf
  obtain ⟨w, hw, hsome⟩ := hf
  obtain ⟨pre, post, rfl⟩ := List.append_of_mem hw
  cases w with
  | none => exact absurd rfl hsome
  | some rest =>
    cases rest with
    | nil =>
      by_cases hlt : next < n
      · exact ⟨_, .take hlt⟩
      · exact ⟨_, .stop (by omega)⟩
    | cons a rest => exact ⟨_, .act⟩

theorem finishes : ∀ (k : Nat) (s : State α σ), remaining jobs n s = k → ∃ s', Run jobs act n s s' ∧ s'.finished := by
  intro k
  induction k using Nat.strongRecOn with
  | ind k ih =>
    intro s hk
    by_cases hf : s.finished
    · exact ⟨s, .refl, hf⟩
    · obtain ⟨s₁, hstep⟩ : ∃ s₁, Step jobs act n s s₁ := progress s hf
      obtain ⟨s₂, hrun, hf₂⟩ := ih _ (hk ▸ step_decreases hstep) s₁ rfl
      exact ⟨s₂, .head hstep hrun, hf₂⟩

end Workers
