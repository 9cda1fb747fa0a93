/-
  Uaii.Kernels.ThreadRuns — every run of `parallel_for`.

  Proved: `fn` is called once for each index and no other, and the call returns, after all
  calls have, exactly when one thread does the work or the counter has room for a last
  ticket of each thread (`exactly_once`). Then what a call leaves is `ParallelFor`
  (`returned_parallelFor`), which is what the GEMM kernels rest on.

  As built, a thread leaves by taking a ticket that is too high, so the counter goes up to
  `n + workers`. Where that passes 2^64 it starts again at 0, and a thread that is still in
  its loop calls `fn(0)` once more (`counter_wraps`).
-/

import Uaii.Kernels.ThreadPool
import Uaii.Lib.Runs

namespace Uaii.Kernels

variable {α σ : Type}

/-- In every run `fn` is called once for each index and no other, and the call returns, after all calls have. -/
structure ExactlyOnce (hardware n : Nat) (f : Nat → List α) (act : α → σ → σ) (m : σ) : Prop where
  once : ∀ s, ThreadRun hardware n (some f) act (.start m) s → s.shared.called.Nodup
  inside : ∀ s, ThreadRun hardware n (some f) act (.start m) s → ∀ i ∈ s.shared.called, i < n
  returned : ∀ s, ThreadRun hardware n (some f) act (.start m) s → s.caller = .returned →
    s.shared.called.Perm (List.range n) ∧ s.shared.finished.Perm (List.range n) ∧ ∀ v ∈ s.workers, v = .done
  advances : ∀ s, ThreadRun hardware n (some f) act (.start m) s → s.caller ≠ .returned →
    ∃ s', ThreadStep hardware n (some f) act s s'
  /-- No run goes on for ever. -/
  ends : Acc (fun s' s => ThreadStep hardware n (some f) act s s') (.start m)

variable {hardware n : Nat} {f : Nat → List α} {act : α → σ → σ} {m : σ}

/-! ## The serial loop -/

/-- The loop of one thread does the calls in order. -/
inductive Alone (n : Nat) (f : Nat → List α) (act : α → σ → σ) (m : σ) : Threads α σ → Prop
  | loop {ws : List (Worker α)} {c : Shared σ} {i : Nat} : ws = [] → i ≤ n →
      c.called = List.range i → c.finished = List.range i → c.mem = Workers.perform act ((List.range i).flatMap f) m →
      Alone n f act m ⟨.serial i, ws, c⟩
  | call {ws : List (Worker α)} {c : Shared σ} {i : Nat} {before rest : List α} : ws = [] → i < n → before ++ rest = f i →
      c.called = List.range (i + 1) → c.finished = List.range i →
      c.mem = Workers.perform act ((List.range i).flatMap f ++ before) m → Alone n f act m ⟨.serialCall i rest, ws, c⟩
  | returned {ws : List (Worker α)} {c : Shared σ} : ws = [] →
      c.called = List.range n → c.finished = List.range n → c.mem = Workers.perform act ((List.range n).flatMap f) m →
      Alone n f act m ⟨.returned, ws, c⟩

/-- The calls from `i` on, with their returns. -/
def callsFrom (n : Nat) (f : Nat → List α) (i : Nat) : Nat := ((List.range' i (n - i)).map fun j => (f j).length + 2).sum

theorem callsFrom_of_lt {i : Nat} (hi : i < n) : callsFrom n f i = (f i).length + 2 + callsFrom n f (i + 1) := by
  have hsub : n - i = n - (i + 1) + 1 := by omega
  rw [callsFrom, hsub, List.range'_succ, List.map_cons, List.sum_cons, callsFrom]

def aloneToCome (n : Nat) (f : Nat → List α) : Caller α → Nat
  | .serial i => callsFrom n f i + 1
  | .serialCall i rest => rest.length + callsFrom n f (i + 1) + 2
  | _ => 0

theorem perform_append (act : α → σ → σ) (before after : List α) (m : σ) :
    Workers.perform act (before ++ after) m = Workers.perform act after (Workers.perform act before m) :=
  List.foldl_append

theorem alone_step {s s' : Threads α σ} (h : Alone n f act m s) (hstep : ThreadStep hardware n (some f) act s s') :
    Alone n f act m s' ∧ aloneToCome n f s'.caller < aloneToCome n f s.caller := by
  cases h with
  | @loop ws c i hws hi hcalled hfinished hmem =>
    cases hstep with
    | serialCall hf hlt =>
      cases hf
      refine ⟨.call hws hlt (show [] ++ f i = f i from rfl) ?_ hfinished ?_, ?_⟩
      · rw [hcalled, List.range_succ]
      · rw [List.append_nil]
        exact hmem
      · simp only [aloneToCome, callsFrom_of_lt hlt]
        omega
    | serialEnd hle =>
      have hn : i = n := Nat.le_antisymm hi hle
      subst hn
      exact ⟨.returned hws hcalled hfinished hmem, by simp [aloneToCome]⟩
    | worker => simp at hws
  | @call ws c i before rest hws hi hjob hcalled hfinished hmem =>
    cases hstep with
    | @serialAct _ _ _ a rest =>
      refine ⟨.call hws hi (show (before ++ [a]) ++ rest = f i by simpa using hjob) hcalled hfinished ?_, by simp [aloneToCome]⟩
      rw [← List.append_assoc, perform_append]
      exact congrArg (act a) hmem
    | serialRet =>
      rw [List.append_nil] at hjob
      refine ⟨.loop hws hi hcalled ?_ ?_, by simp [aloneToCome]⟩
      · rw [List.range_succ, hfinished]
      · rw [List.range_succ, List.flatMap_append, List.flatMap_singleton, ← hjob]
        exact hmem
    | worker => simp at hws
  | returned hws =>
    cases hstep with
    | worker => simp at hws

/-! ## Every run -/

/-- What every state of a run is. -/
inductive Inv (hardware n : Nat) (f : Nat → List α) (act : α → σ → σ) (m : σ) : Threads α σ → Prop
  | entry : Inv hardware n f act m (.start m)
  | alone {s : Threads α σ} : min n hardware ≤ 1 → Alone n f act m s → Inv hardware n f act m s
  | parallel {s : Threads α σ} {t : Workers.State α σ} : 1 < min n hardware → s.caller.Fits (min n hardware) s.workers →
      Workers.Run f act n (Workers.start (min n hardware) m) t → Sim (min n hardware) n f s.workers s.shared t →
      Inv hardware n f act m s

/-- The first step chooses. -/
theorem start_step {s : Threads α σ} (hstep : ThreadStep hardware n (some f) act (.start m) s) :
    min n hardware ≤ 1 ∧ Alone n f act m s ∨ 1 < min n hardware ∧ s = ⟨.spawning, [], ⟨0, m, [], []⟩⟩ := by
  generalize hstart : Threads.start m = s₀ at hstep
  cases hstep with
  | @nothing ws c hn =>
    obtain ⟨-, rfl, rfl⟩ := hstart
    rcases hn with rfl | hnone
    · exact .inl ⟨by omega, .returned rfl rfl rfl rfl⟩
    · cases hnone
  | @serial ws c f' hf hn hone =>
    obtain ⟨-, rfl, rfl⟩ := hstart
    exact .inl ⟨by omega, .loop rfl (Nat.zero_le n) rfl rfl rfl⟩
  | @parallel ws c f' hf hw =>
    obtain ⟨-, rfl, rfl⟩ := hstart
    exact .inr ⟨hw, rfl⟩
  | serialCall => cases hstart
  | serialAct => cases hstart
  | serialRet => cases hstart
  | serialEnd => cases hstart
  | spawn => cases hstart
  | own => cases hstart
  | left => cases hstart
  | join => cases hstart
  | ret => cases hstart
  | worker =>
    have hnil := congrArg Threads.workers hstart
    simp [Threads.start] at hnil

theorem spawning_fits (hw : 1 < min n hardware) : (Caller.spawning : Caller α).Fits (min n hardware) ([] : List (Worker α)) := by
  simp only [Caller.Fits, List.length_nil]
  omega

theorem step_inv {s s' : Threads α σ} (hfit : min n hardware ≤ 1 ∨ n + min n hardware ≤ 2 ^ 64) (h : Inv hardware n f act m s)
    (hstep : ThreadStep hardware n (some f) act s s') : Inv hardware n f act m s' := by
  cases h with
  | entry =>
    rcases start_step hstep with ⟨hone, halone⟩ | ⟨hw, rfl⟩
    · exact .alone hone halone
    · exact .parallel hw (spawning_fits hw) .refl start_sim
  | alone hone halone => exact .alone hone (alone_step halone hstep).1
  | parallel hw hcaller hrun hsim =>
    obtain ⟨t', hrun', hcaller', hsim', -⟩ := parallel_step (by omega) hcaller hsim hstep
    exact .parallel hw hcaller' (hrun.trans hrun') hsim'

theorem run_inv {s : Threads α σ} (hfit : min n hardware ≤ 1 ∨ n + min n hardware ≤ 2 ^ 64)
    (hrun : ThreadRun hardware n (some f) act (.start m) s) : Inv hardware n f act m s := by
  induction hrun with
  | refl => exact .entry
  | tail _ hstep ih => exact step_inv hfit ih hstep

theorem inv_ends (hfit : min n hardware ≤ 1 ∨ n + min n hardware ≤ 2 ^ 64) :
    Acc (fun s' s : Threads α σ => ThreadStep hardware n (some f) act s s') (.start m) := by
  refine ⟨_, fun s hs => ?_⟩
  rcases start_step hs with ⟨-, halone⟩ | ⟨hw, rfl⟩
  · refine Runs.ends (P := fun s k => Alone n f act m s ∧ aloneToCome n f s.caller = k) ?_ ⟨halone, rfl⟩
    intro s s' k h hstep
    obtain ⟨halone', hlt⟩ := alone_step h.1 hstep
    exact ⟨_, h.2 ▸ hlt, halone', rfl⟩
  · refine Runs.ends (P := fun s k => ∃ t : Workers.State α σ, s.caller.Fits (min n hardware) s.workers ∧
      Sim (min n hardware) n f s.workers s.shared t ∧ toCome (min n hardware) n f s t = k) ?_
      ⟨_, spawning_fits hw, start_sim (m := m), rfl⟩
    intro s s' k h hstep
    obtain ⟨t, hcaller, hsim, rfl⟩ := h
    obtain ⟨t', -, hcaller', hsim', hlt⟩ := parallel_step (by omega) hcaller hsim hstep
    exact ⟨_, hlt, t', hcaller', hsim', rfl⟩

theorem inv_called {s : Threads α σ} (h : Inv hardware n f act m s) :
    s.shared.called.Nodup ∧ ∀ i ∈ s.shared.called, i < n := by
  cases h with
  | entry => exact ⟨List.nodup_nil, fun i hi => absurd hi List.not_mem_nil⟩
  | alone hone halone =>
    cases halone with
    | loop hws hi hcalled =>
      rw [hcalled]
      exact ⟨List.nodup_range, fun j hj => by have := List.mem_range.mp hj; omega⟩
    | call hws hi hjob hcalled =>
      rw [hcalled]
      exact ⟨List.nodup_range, fun j hj => by have := List.mem_range.mp hj; omega⟩
    | returned hws hcalled =>
      rw [hcalled]
      exact ⟨List.nodup_range, fun j hj => List.mem_range.mp hj⟩
  | parallel hw hcaller hrun hsim =>
    refine ⟨(List.nodup_append.mp (hsim.called.nodup_iff.mpr List.nodup_range)).1, fun i hi => ?_⟩
    have hmem := hsim.called.mem_iff.mp (List.mem_append_left _ hi)
    rw [List.mem_range] at hmem
    omega

/-- What a call leaves when it returns. -/
structure Returned (hardware n : Nat) (f : Nat → List α) (act : α → σ → σ) (m : σ) (s : Threads α σ) : Prop where
  called : s.shared.called.Perm (List.range n)
  finished : s.shared.finished.Perm (List.range n)
  joined : ∀ v ∈ s.workers, v = .done
  mem : ParallelFor hardware n f act m s.shared.mem

theorem parallelFor_alone {m' : σ} (hone : min n hardware ≤ 1) (h : m' = Workers.perform act ((List.range n).flatMap f) m) :
    ParallelFor hardware n f act m m' := by
  rw [ParallelFor, if_pos hone]
  split
  · rename_i hn
    subst hn
    exact h
  · exact h

/-- Threads that have all left have taken every index. -/
theorem sim_returned {ws : List (Worker α)} {c : Shared σ} {t : Workers.State α σ} (hw : 1 < min n hardware)
    (hlen : ws.length = min n hardware) (hdone : ∀ v ∈ ws, v = .done)
    (hrun : Workers.Run f act n (Workers.start (min n hardware) m) t) (h : Sim (min n hardware) n f ws c t) :
    Returned hardware n f act m ⟨.returned, ws, c⟩ := by
  have hws : ws = List.replicate (min n hardware) .done := List.eq_replicate_iff.mpr ⟨hlen, hdone⟩
  obtain ⟨hmem, hworkers, hnext, hpast, hcalled, hfinished⟩ := h
  have hnone : (ws.flatMap (Worker.ahead n)) = [] := List.flatMap_eq_nil_iff.mpr fun v hv => by rw [hdone v hv, Worker.ahead]; simp
  have hcalling : ws.flatMap Worker.calling = [] := List.flatMap_eq_nil_iff.mpr fun v hv => by rw [hdone v hv, Worker.calling]; simp
  have hall : ws.countP (Worker.past n) = ws.length := List.countP_eq_length.mpr fun v hv => by rw [hdone v hv, Worker.past]
  have hmin : min t.next n = n := by omega
  rw [hnone, List.append_nil, hmin] at hcalled
  rw [hcalling, List.append_nil] at hfinished
  refine ⟨hcalled, hfinished.trans hcalled, hdone, ?_⟩
  rw [ParallelFor, if_neg (by omega), if_neg (by omega)]
  refine ⟨t, hrun, fun v hv => ?_, hmem⟩
  rw [hworkers, hlen, Nat.sub_self, List.replicate_zero, List.append_nil, hws, List.map_replicate] at hv
  exact List.eq_of_mem_replicate hv

theorem inv_returned {s : Threads α σ} (h : Inv hardware n f act m s) (hret : s.caller = .returned) :
    Returned hardware n f act m s := by
  cases h with
  | entry => cases hret
  | alone hone halone =>
    cases halone with
    | loop => cases hret
    | call => cases hret
    | returned hws hcalled hfinished hmem =>
      subst hws
      exact ⟨.of_eq hcalled, .of_eq hfinished, by simp, parallelFor_alone hone hmem⟩
  | parallel hw hcaller hrun hsim =>
    obtain ⟨p, ws, c⟩ := s
    dsimp only at hret
    subst hret
    refine sim_returned hw hcaller.1 (fun v hv => ?_) hrun hsim
    obtain ⟨j, hj, rfl⟩ := List.getElem_of_mem hv
    have hdone := hcaller.2 j (hcaller.1 ▸ hj)
    rw [List.getElem?_eq_getElem hj] at hdone
    exact Option.some.inj hdone

/-- A thread in its loop can go on. -/
theorem worker_advances {ws : List (Worker α)} {v : Worker α} (hv : v ∈ ws) (hne : v ≠ .done) (p : Caller α) (c : Shared σ) :
    ∃ s', ThreadStep hardware n (some f) act ⟨p, ws, c⟩ s' := by
  obtain ⟨pre, post, rfl⟩ := List.append_of_mem hv
  cases v with
  | fetch => exact ⟨_, .worker rfl (.fetch c)⟩
  | holds i =>
    by_cases hi : i < n
    · exact ⟨_, .worker rfl (.call c hi)⟩
    · exact ⟨_, .worker rfl (.leave c (Nat.le_of_not_lt hi))⟩
  | call i rest =>
    cases rest with
    | nil => exact ⟨_, .worker rfl (.ret c)⟩
    | cons a rest => exact ⟨_, .worker rfl (.act c)⟩
  | done => exact absurd rfl hne

theorem alone_advances {s : Threads α σ} (h : Alone n f act m s) (hret : s.caller ≠ .returned) :
    ∃ s', ThreadStep hardware n (some f) act s s' := by
  cases h with
  | @loop ws c i hws hi =>
    by_cases hlt : i < n
    · exact ⟨_, .serialCall rfl hlt⟩
    · exact ⟨_, .serialEnd (Nat.le_of_not_lt hlt)⟩
  | @call ws c i before rest =>
    cases rest with
    | nil => exact ⟨_, .serialRet⟩
    | cons a rest => exact ⟨_, .serialAct⟩
  | returned => exact absurd rfl hret

theorem start_advances (hardware n : Nat) (f : Nat → List α) (act : α → σ → σ) (m : σ) :
    ∃ s', ThreadStep hardware n (some f) act (.start m) s' := by
  by_cases hn : n = 0
  · exact ⟨_, .nothing (.inl hn)⟩
  · by_cases hw : min n hardware ≤ 1
    · exact ⟨_, .serial rfl hn (.inr hw)⟩
    · exact ⟨_, .parallel rfl (Nat.lt_of_not_le hw)⟩

theorem parallel_advances {s : Threads α σ} (hw : 1 < min n hardware) (hcaller : s.caller.Fits (min n hardware) s.workers)
    (hret : s.caller ≠ .returned) : ∃ s', ThreadStep hardware n (some f) act s s' := by
  obtain ⟨p, ws, c⟩ := s
  cases p with
  | entry => exact absurd hcaller id
  | serial i => exact absurd hcaller id
  | serialCall i rest => exact absurd hcaller id
  | spawning =>
    have hlen : ws.length < min n hardware := hcaller
    by_cases hlast : ws.length + 1 = min n hardware
    · exact ⟨_, .own hlast⟩
    · exact ⟨_, .spawn (by omega)⟩
  | body =>
    have hlen : ws.length = min n hardware := hcaller
    rcases List.eq_nil_or_concat ws with rfl | ⟨init, v, rfl⟩
    · rw [List.length_nil] at hlen
      omega
    · rw [List.concat_eq_append]
      by_cases hv : v = .done
      · subst hv
        exact ⟨_, .left⟩
      · exact worker_advances (by simp) hv _ c
  | joining k =>
    obtain ⟨hlen, hk, -⟩ := hcaller
    by_cases hlast : k + 1 = min n hardware
    · exact ⟨_, .ret hlast⟩
    · have hin : k < ws.length := by
        dsimp only at hlen
        omega
      by_cases hv : ws[k] = .done
      · exact ⟨_, .join (by omega) (hv ▸ List.getElem?_eq_getElem hin)⟩
      · exact worker_advances (List.getElem_mem hin) hv _ c
  | returned => exact absurd rfl hret

theorem inv_advances {s : Threads α σ} (h : Inv hardware n f act m s) (hret : s.caller ≠ .returned) :
    ∃ s', ThreadStep hardware n (some f) act s s' := by
  cases h with
  | entry => exact start_advances hardware n f act m
  | alone _ halone => exact alone_advances halone hret
  | parallel hw hcaller => exact parallel_advances hw hcaller hret

/-- A call that returns leaves what `ParallelFor` says. -/
theorem returned_parallelFor {s : Threads α σ} (hfit : min n hardware ≤ 1 ∨ n + min n hardware ≤ 2 ^ 64)
    (hrun : ThreadRun hardware n (some f) act (.start m) s) (hret : s.caller = .returned) :
    ParallelFor hardware n f act m s.shared.mem :=
  (inv_returned (run_inv hfit hrun) hret).mem

theorem exactlyOnce_of_fits (hfit : min n hardware ≤ 1 ∨ n + min n hardware ≤ 2 ^ 64) : ExactlyOnce hardware n f act m := by
  refine ⟨fun s hrun => (inv_called (run_inv hfit hrun)).1, fun s hrun => (inv_called (run_inv hfit hrun)).2,
    fun s hrun hret => ?_, fun s hrun hret => inv_advances (run_inv hfit hrun) hret, inv_ends hfit⟩
  have hreturned := inv_returned (run_inv hfit hrun) hret
  exact ⟨hreturned.called, hreturned.finished, hreturned.joined⟩

/-! ## The counter comes round -/

theorem worker_step {p : Caller α} {v v' : Worker α} {c c' : Shared σ} (pre post : List (Worker α))
    (hstep : WorkerStep n f act c v c' v') :
    ThreadStep hardware n (some f) act ⟨p, pre ++ v :: post, c⟩ ⟨p, pre ++ v' :: post, c'⟩ :=
  .worker rfl hstep

/-- The caller starts all threads before one of them steps. -/
theorem spawned (hw : 1 < min n hardware) (f : Nat → List α) (act : α → σ → σ) (m : σ) :
    ThreadRun hardware n (some f) act (.start m) ⟨.body, List.replicate (min n hardware) .fetch, ⟨0, m, [], []⟩⟩ := by
  have hspawn : ∀ k, k < min n hardware →
      ThreadRun hardware n (some f) act (.start m) ⟨.spawning, List.replicate k .fetch, ⟨0, m, [], []⟩⟩ := by
    intro k
    induction k with
    | zero => exact fun _ => .single (.parallel rfl hw)
    | succ k ih =>
      intro hk
      rw [List.replicate_succ']
      exact (ih (by omega)).tail (.spawn (by simpa using hk))
  have hlast : min n hardware = min n hardware - 1 + 1 := by omega
  rw [hlast, List.replicate_succ']
  exact (hspawn _ (by omega)).tail (.own (by simpa using hlast.symm))

theorem actions_run (p : Caller α) (ws : List (Worker α)) (i : Nat) : ∀ (rest : List α) (c : Shared σ),
    ThreadRun hardware n (some f) act ⟨p, .call i rest :: ws, c⟩
      ⟨p, .call i [] :: ws, { c with mem := Workers.perform act rest c.mem }⟩ := by
  intro rest
  induction rest with
  | nil => exact fun c => .refl
  | cons a rest ih => exact fun c => .head (worker_step [] ws (.act c)) (ih { c with mem := act a c.mem })

/-- One thread does all the calls while the others wait. -/
theorem calls_run (ws : List (Worker α)) (m : σ) (hn : n < 2 ^ 64) : ∀ k ≤ n,
    ThreadRun hardware n (some f) act ⟨.body, .fetch :: ws, ⟨0, m, [], []⟩⟩
      ⟨.body, .fetch :: ws, ⟨k, Workers.perform act ((List.range k).flatMap f) m, List.range k, List.range k⟩⟩ := by
  intro k
  induction k with
  | zero => exact fun _ => .refl
  | succ k ih =>
    intro hk
    have hnext : (k + 1) % 2 ^ 64 = k + 1 := Nat.mod_eq_of_lt (by omega)
    have hfetch := (ih (by omega)).tail (worker_step [] ws (.fetch _))
    have hcall := hfetch.tail (worker_step [] ws (.call _ (Nat.lt_of_succ_le hk)))
    have hret := (hcall.trans (actions_run .body ws k (f k) _)).tail (worker_step [] ws (.ret _))
    rw [List.range_succ, List.flatMap_append, List.flatMap_singleton, perform_append]
    dsimp only at hret
    rw [hnext] at hret
    exact hret

/-- Threads that wait take a ticket each. -/
theorem tickets_run (hardware n : Nat) (f : Nat → List α) (act : α → σ → σ) (p : Caller α) (first : Worker α)
    (post : List (Worker α)) : ∀ (k : Nat) (pre : List (Worker α)) (c : Shared σ), c.next < 2 ^ 64 →
    ∃ pre', ThreadRun hardware n (some f) act ⟨p, first :: (pre ++ (List.replicate k .fetch ++ post)), c⟩
      ⟨p, first :: (pre' ++ post), { c with next := (c.next + k) % 2 ^ 64 }⟩ := by
  intro k
  induction k with
  | zero =>
    intro pre c hc
    refine ⟨pre, ?_⟩
    rw [Nat.add_zero, Nat.mod_eq_of_lt hc]
    exact .refl
  | succ k ih =>
    intro pre c hc
    obtain ⟨pre', hrun⟩ := ih (pre ++ [.holds c.next]) { c with next := (c.next + 1) % 2 ^ 64 } (Nat.mod_lt _ (by decide))
    have hnext : ((c.next + 1) % 2 ^ 64 + k) % 2 ^ 64 = (c.next + (k + 1)) % 2 ^ 64 := by
      rw [Nat.mod_add_mod]
      congr 1
      omega
    refine ⟨pre', ?_⟩
    dsimp only at hrun
    rw [hnext, List.append_assoc, List.singleton_append] at hrun
    exact .head (worker_step (first :: pre) (List.replicate k .fetch ++ post) (.fetch c)) hrun

/-- With the last tickets past 2^64, a thread that is still in its loop takes 0 again. -/
theorem counter_wraps (hn : n < 2 ^ 64) (hw : 1 < min n hardware) (hpast : 2 ^ 64 < n + min n hardware) (f : Nat → List α)
    (act : α → σ → σ) (m : σ) :
    ∃ s, ThreadRun hardware n (some f) act (.start m) s ∧ s.shared.called = List.range n ++ [0] := by
  have hsplit : List.replicate (min n hardware) (Worker.fetch : Worker α) = .fetch ::
      ([] ++ (List.replicate (2 ^ 64 - n) .fetch ++ List.replicate (min n hardware - 1 - (2 ^ 64 - n)) .fetch)) := by
    have hlen : min n hardware = 2 ^ 64 - n + (min n hardware - 1 - (2 ^ 64 - n)) + 1 := by omega
    rw [List.nil_append, List.replicate_append_replicate, ← List.replicate_succ, ← hlen]
  have hstart := spawned hw f act m
  rw [hsplit] at hstart
  have hcalls := hstart.trans (calls_run _ m hn n (Nat.le_refl n))
  obtain ⟨pre, htickets⟩ := tickets_run hardware n f act .body .fetch
    (List.replicate (min n hardware - 1 - (2 ^ 64 - n)) .fetch) (2 ^ 64 - n) []
    ⟨n, Workers.perform act ((List.range n).flatMap f) m, List.range n, List.range n⟩ hn
  have hround : (n + (2 ^ 64 - n)) % 2 ^ 64 = 0 := by
    rw [Nat.add_sub_cancel' (Nat.le_of_lt hn), Nat.mod_self]
  dsimp only at htickets
  rw [hround] at htickets
  have hfetch := (hcalls.trans htickets).tail (worker_step [] _ (.fetch _))
  exact ⟨_, hfetch.tail (worker_step [] _ (.call _ (show 0 < n by omega))), rfl⟩

theorem range_again (hn : 0 < n) : ¬ (List.range n ++ [0]).Nodup := by
  intro hnodup
  exact (List.nodup_append.mp hnodup).2.2 0 (List.mem_range.mpr hn) 0 List.mem_cons_self rfl

/-- `parallel_for` calls `fn` once for each index, and returns after that, exactly when one
    thread does all calls or the counter can hold a last ticket for each thread. -/
theorem exactly_once (hardware : Nat) {n : Nat} (hn : n < 2 ^ 64) (f : Nat → List α) (act : α → σ → σ) (m : σ) :
    ExactlyOnce hardware n f act m ↔ min n hardware ≤ 1 ∨ n + min n hardware ≤ 2 ^ 64 := by
  refine ⟨fun h => ?_, exactlyOnce_of_fits⟩
  by_contra hno
  have hw : 1 < min n hardware := by omega
  obtain ⟨s, hrun, hcalled⟩ := counter_wraps hn hw (by omega) f act m
  exact range_again (n := n) (by omega) (hcalled ▸ h.once s hrun)

/-- Three indices on two threads. -/
theorem exactly_once_three : ExactlyOnce 2 3 (fun i => [i]) (fun i (sum : Nat) => sum + i) 0 :=
  (exactly_once 2 (n := 3) (by decide) (fun i => [i]) (fun i (sum : Nat) => sum + i) 0).mpr (.inr (by decide))

/-- With `SIZE_MAX` indices and two threads one of them calls `fn(0)` again. -/
theorem calls_first_twice : ¬ ExactlyOnce 2 (2 ^ 64 - 1) (fun i => [i]) (fun i (sum : Nat) => sum + i) 0 := by
  intro h
  have hw : 1 < min (2 ^ 64 - 1) 2 := by omega
  obtain ⟨s, hrun, hcalled⟩ := counter_wraps (by omega) hw (by omega) (fun i => [i]) (fun i (sum : Nat) => sum + i) 0
  exact range_again (n := 2 ^ 64 - 1) (by omega) (hcalled ▸ h.once s hrun)

end Uaii.Kernels
