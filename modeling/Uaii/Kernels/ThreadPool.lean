/-
  Uaii.Kernels.ThreadPool — `parallel_for` (`libs/uaii-kernels/src/thread_pool.cpp`).

  `fn(i)` is a list of actions on a shared memory, and ends. A worker's steps are the
  `fetch_add`, the call, its actions and its return; the caller spawns the threads, runs
  `body` itself and joins them. `called` and `finished` record the calls and their returns.

  Two levels: `ParallelFor` says what can be left when indices are taken from a counter
  without a bound, and `ThreadStep` is the code, whose counter is a `size_t`. While that
  does not wrap, the threads are those workers (`worker_sim`), and of each step from the
  spawning on fewer are to come (`parallel_step`).
-/

import Uaii.Lib.Workers

namespace Uaii.Kernels

section

variable {α σ : Type}

/-! ## parallel_for -/

section ParallelFor

variable (hardware n : Nat) (jobs : Nat → List α) (act : α → σ → σ)

/-- `m'` is what `parallel_for` can leave of `m`: `fn(i)` does the actions of job `i`. -/
def ParallelFor (m m' : σ) : Prop :=
  if n = 0 then m' = m
  else if min n hardware ≤ 1 then m' = Workers.perform act ((List.range n).flatMap jobs) m
  else ∃ s, Workers.Run jobs act n (Workers.start (min n hardware) m) s ∧ s.finished ∧ s.mem = m'

variable {hardware n jobs act} {m m' : σ}

/-- Every job is done once. -/
theorem ParallelFor.order (h : ParallelFor hardware n jobs act m m') :
    ∃ order : List α, order.Perm ((List.range n).flatMap jobs) ∧ m' = Workers.perform act order m := by
  unfold ParallelFor at h
  split at h
  · rename_i hn
    subst hn
    exact ⟨[], List.Perm.refl _, h⟩
  · split at h
    · exact ⟨_, List.Perm.refl _, h⟩
    · obtain ⟨s, hrun, hf, rfl⟩ := h
      exact Workers.finished_order (by omega) hrun hf

theorem ParallelFor.returns (hardware n : Nat) (jobs : Nat → List α) (act : α → σ → σ) (m : σ) :
    ∃ m', ParallelFor hardware n jobs act m m' := by
  unfold ParallelFor
  split
  · exact ⟨m, rfl⟩
  · split
    · exact ⟨_, rfl⟩
    · obtain ⟨s, hrun, hf⟩ := Workers.finishes _ (Workers.start (min n hardware) m) rfl
      exact ⟨s.mem, s, hrun, hf, rfl⟩

end ParallelFor

/-! ## Threads -/

/-- Where a thread is in `body`. -/
inductive Worker (α : Type)
  | fetch
  | holds (i : Nat)
  | call (i : Nat) (rest : List α)
  | done

/-- Where the calling thread is in `parallel_for`. -/
inductive Caller (α : Type)
  | entry
  | serial (i : Nat)
  | serialCall (i : Nat) (rest : List α)
  | spawning
  | body
  | joining (k : Nat)
  | returned

structure Shared (σ : Type) where
  /-- `std::atomic<std::size_t> next`. -/
  next : Nat
  mem : σ
  called : List Nat
  finished : List Nat

structure Threads (α σ : Type) where
  caller : Caller α
  /-- The spawned threads, and last the caller's own `body`. -/
  workers : List (Worker α)
  shared : Shared σ

def Threads.start (m : σ) : Threads α σ := ⟨.entry, [], ⟨0, m, [], []⟩⟩

inductive WorkerStep (n : Nat) (f : Nat → List α) (act : α → σ → σ) : Shared σ → Worker α → Shared σ → Worker α → Prop
  | fetch (c : Shared σ) : WorkerStep n f act c .fetch { c with next := (c.next + 1) % 2 ^ 64 } (.holds c.next)
  | call (c : Shared σ) {i : Nat} : i < n → WorkerStep n f act c (.holds i) { c with called := c.called ++ [i] } (.call i (f i))
  | leave (c : Shared σ) {i : Nat} : n ≤ i → WorkerStep n f act c (.holds i) c .done
  | act (c : Shared σ) {i : Nat} {a : α} {rest : List α} :
      WorkerStep n f act c (.call i (a :: rest)) { c with mem := act a c.mem } (.call i rest)
  | ret (c : Shared σ) {i : Nat} : WorkerStep n f act c (.call i []) { c with finished := c.finished ++ [i] } .fetch

/-- `fn` is `none` for an empty `std::function`. -/
inductive ThreadStep (hardware n : Nat) (fn : Option (Nat → List α)) (act : α → σ → σ) : Threads α σ → Threads α σ → Prop
  | nothing {ws : List (Worker α)} {c : Shared σ} : n = 0 ∨ fn = none →
      ThreadStep hardware n fn act ⟨.entry, ws, c⟩ ⟨.returned, ws, c⟩
  -- `fn(0)` for one index is the loop with one turn
  | serial {ws : List (Worker α)} {c : Shared σ} {f : Nat → List α} : fn = some f → n ≠ 0 → n = 1 ∨ min n hardware ≤ 1 →
      ThreadStep hardware n fn act ⟨.entry, ws, c⟩ ⟨.serial 0, ws, c⟩
  | serialCall {ws : List (Worker α)} {c : Shared σ} {f : Nat → List α} {i : Nat} : fn = some f → i < n →
      ThreadStep hardware n fn act ⟨.serial i, ws, c⟩ ⟨.serialCall i (f i), ws, { c with called := c.called ++ [i] }⟩
  | serialAct {ws : List (Worker α)} {c : Shared σ} {i : Nat} {a : α} {rest : List α} :
      ThreadStep hardware n fn act ⟨.serialCall i (a :: rest), ws, c⟩ ⟨.serialCall i rest, ws, { c with mem := act a c.mem }⟩
  | serialRet {ws : List (Worker α)} {c : Shared σ} {i : Nat} :
      ThreadStep hardware n fn act ⟨.serialCall i [], ws, c⟩ ⟨.serial (i + 1), ws, { c with finished := c.finished ++ [i] }⟩
  | serialEnd {ws : List (Worker α)} {c : Shared σ} {i : Nat} : n ≤ i →
      ThreadStep hardware n fn act ⟨.serial i, ws, c⟩ ⟨.returned, ws, c⟩
  | parallel {ws : List (Worker α)} {c : Shared σ} {f : Nat → List α} : fn = some f → 1 < min n hardware →
      ThreadStep hardware n fn act ⟨.entry, ws, c⟩ ⟨.spawning, ws, c⟩
  | spawn {ws : List (Worker α)} {c : Shared σ} : ws.length + 1 < min n hardware →
      ThreadStep hardware n fn act ⟨.spawning, ws, c⟩ ⟨.spawning, ws ++ [.fetch], c⟩
  | own {ws : List (Worker α)} {c : Shared σ} : ws.length + 1 = min n hardware →
      ThreadStep hardware n fn act ⟨.spawning, ws, c⟩ ⟨.body, ws ++ [.fetch], c⟩
  | left {ws : List (Worker α)} {c : Shared σ} :
      ThreadStep hardware n fn act ⟨.body, ws ++ [.done], c⟩ ⟨.joining 0, ws ++ [.done], c⟩
  | join {ws : List (Worker α)} {c : Shared σ} {k : Nat} : k + 1 < min n hardware → ws[k]? = some .done →
      ThreadStep hardware n fn act ⟨.joining k, ws, c⟩ ⟨.joining (k + 1), ws, c⟩
  | ret {ws : List (Worker α)} {c : Shared σ} {k : Nat} : k + 1 = min n hardware →
      ThreadStep hardware n fn act ⟨.joining k, ws, c⟩ ⟨.returned, ws, c⟩
  | worker {p : Caller α} {pre post : List (Worker α)} {v v' : Worker α} {c c' : Shared σ} {f : Nat → List α} :
      fn = some f → WorkerStep n f act c v c' v' →
      ThreadStep hardware n fn act ⟨p, pre ++ v :: post, c⟩ ⟨p, pre ++ v' :: post, c'⟩

abbrev ThreadRun (hardware n : Nat) (fn : Option (Nat → List α)) (act : α → σ → σ) : Threads α σ → Threads α σ → Prop :=
  Relation.ReflTransGen (ThreadStep hardware n fn act)

/-! ## The workers -/

namespace Worker

variable (n : Nat) (f : Nat → List α)

/-- What a thread has left of its job, for a worker whose counter has no bound. -/
@[simp] def job : Worker α → Option (List α)
  | fetch => some []
  | holds i => if i < n then some (f i) else none
  | call _ rest => some rest
  | done => none

/-- Has the thread taken a ticket that is too high? -/
@[simp] def past : Worker α → Bool
  | holds i => n ≤ i
  | done => true
  | _ => false

/-- An index taken, and not yet called. -/
@[simp] def ahead : Worker α → List Nat
  | holds i => if i < n then [i] else []
  | _ => []

/-- An index whose call has not returned. -/
@[simp] def calling : Worker α → List Nat
  | call i _ => [i]
  | _ => []

/-- Steps that the worker with an unbounded counter does not take. -/
@[simp] def weight : Worker α → Nat
  | holds _ => 2
  | call _ _ => 1
  | _ => 0

end Worker

/-- The threads, as workers whose counter has no bound. -/
structure Sim (w n : Nat) (f : Nat → List α) (ws : List (Worker α)) (c : Shared σ) (t : Workers.State α σ) : Prop where
  mem : t.mem = c.mem
  workers : t.workers = ws.map (Worker.job n f) ++ List.replicate (w - ws.length) (some [])
  next : c.next = t.next % 2 ^ 64
  past : ws.countP (Worker.past n) = t.next - n
  called : (c.called ++ ws.flatMap (Worker.ahead n)).Perm (List.range (min t.next n))
  finished : (c.finished ++ ws.flatMap Worker.calling).Perm c.called

variable {hardware n w : Nat} {f : Nat → List α} {act : α → σ → σ} {m : σ}

theorem start_sim : Sim w n f [] ⟨0, m, [], []⟩ (Workers.start w m) := by
  refine ⟨rfl, by simp [Workers.start], rfl, by simp [Workers.start], ?_, List.Perm.refl _⟩
  simp [Workers.start]

/-- A thread more is a worker that was there from the start. -/
theorem spawn_sim {ws : List (Worker α)} {c : Shared σ} {t : Workers.State α σ} (h : Sim w n f ws c t)
    (hlen : ws.length < w) : Sim w n f (ws ++ [.fetch]) c t := by
  obtain ⟨hmem, hworkers, hnext, hpast, hcalled, hfinished⟩ := h
  refine ⟨hmem, ?_, hnext, by simpa [Worker.past] using hpast, by simpa [Worker.ahead] using hcalled,
    by simpa [Worker.calling] using hfinished⟩
  have hsub : w - ws.length = w - (ws.length + 1) + 1 := by omega
  rw [hworkers, hsub, List.replicate_succ]
  simp [Worker.job]

/-- A ticket that a thread takes is one that has not come round. -/
theorem ticket_fresh {pre post : List (Worker α)} {c : Shared σ} {t : Workers.State α σ} (hfit : n + w ≤ 2 ^ 64)
    (hlen : (pre ++ .fetch :: post).length ≤ w) (h : Sim w n f (pre ++ .fetch :: post) c t) : c.next = t.next := by
  have hpast := h.past
  have hpre := List.countP_le_length (p := Worker.past n) (l := pre)
  have hpost := List.countP_le_length (p := Worker.past n) (l := post)
  simp only [List.countP_append, List.countP_cons, Worker.past, Bool.false_eq_true, if_false] at hpast
  simp only [List.length_append, List.length_cons] at hlen
  rw [h.next]
  exact Nat.mod_eq_of_lt (by omega)

/-- What one thread has, another list gets. -/
theorem perm_moved (l pre post : List Nat) (i : Nat) : (l ++ (pre ++ i :: post)).Perm ((l ++ [i]) ++ (pre ++ post)) := by
  rw [List.append_assoc l [i]]
  exact List.perm_middle.append_left l

theorem perm_grown {l pre post r : List Nat} (h : (l ++ (pre ++ post)).Perm r) (i : Nat) :
    (l ++ (pre ++ i :: post)).Perm (r ++ [i]) := by
  rw [← List.append_assoc] at h ⊢
  exact (List.perm_middle.trans (h.cons i)).trans (List.perm_append_singleton i r).symm

/-- A ticket is an index for the worker, or tells it to stop. -/
theorem fetch_sim {pre post : List (Worker α)} {c : Shared σ} {t : Workers.State α σ} (hfit : n + w ≤ 2 ^ 64)
    (hlen : (pre ++ .fetch :: post).length ≤ w) (h : Sim w n f (pre ++ .fetch :: post) c t) (act : α → σ → σ) :
    ∃ t', Sim w n f (pre ++ .holds c.next :: post) { c with next := (c.next + 1) % 2 ^ 64 } t' ∧ Workers.Step f act n t t' := by
  have hticket := ticket_fresh hfit hlen h
  obtain ⟨next, workers, mem⟩ := t
  dsimp only at hticket
  obtain ⟨hmem, hworkers, hnext, hpast, hcalled, hfinished⟩ := h
  simp only [List.map_append, List.map_cons, List.append_assoc, List.cons_append, Worker.job] at hworkers
  simp only [List.countP_append, List.countP_cons, Worker.past, Bool.false_eq_true, if_false] at hpast
  simp only [List.flatMap_append, List.flatMap_cons, Worker.ahead, List.nil_append] at hcalled
  subst hworkers
  by_cases hlt : next < n
  · have hmin : min (next + 1) n = next + 1 := by omega
    have hmin' : min next n = next := by omega
    refine ⟨_, ?_, .take hlt⟩
    refine ⟨hmem, ?_, ?_, ?_, ?_, ?_⟩
    · simp [hticket, hlt]
    · simp [hticket]
    · simp only [List.countP_append, List.countP_cons, Worker.past, hticket, decide_eq_true_eq]
      rw [if_neg (by omega)]
      omega
    · simp only [hmin'] at hcalled
      simp only [List.flatMap_append, List.flatMap_cons, Worker.ahead, hticket, if_pos hlt, hmin, List.range_succ]
      exact perm_grown hcalled next
    · simpa using hfinished
  · have hmin : min (next + 1) n = min next n := by omega
    refine ⟨_, ?_, .stop (Nat.le_of_not_lt hlt)⟩
    refine ⟨hmem, ?_, ?_, ?_, ?_, ?_⟩
    · simp [hticket, hlt]
    · simp [hticket]
    · simp only [List.countP_append, List.countP_cons, Worker.past, hticket, decide_eq_true_eq]
      rw [if_pos (by omega)]
      omega
    · simpa [hticket, hlt, hmin] using hcalled
    · simpa using hfinished

/-- A step of a thread is a step of the worker, or is not seen there. -/
theorem worker_sim {pre post : List (Worker α)} {v v' : Worker α} {c c' : Shared σ} {t : Workers.State α σ}
    (hfit : n + w ≤ 2 ^ 64) (hlen : (pre ++ v :: post).length ≤ w) (h : Sim w n f (pre ++ v :: post) c t)
    (hstep : WorkerStep n f act c v c' v') :
    ∃ t', Sim w n f (pre ++ v' :: post) c' t' ∧
      (Workers.Step f act n t t' ∧ v'.weight ≤ v.weight + 2 ∨ t' = t ∧ v'.weight < v.weight) := by
  cases hstep with
  | fetch =>
    obtain ⟨t', hsim, hseen⟩ := fetch_sim hfit hlen h act
    exact ⟨t', hsim, .inl ⟨hseen, by simp⟩⟩
  | @call i hi =>
    obtain ⟨hmem, hworkers, hnext, hpast, hcalled, hfinished⟩ := h
    simp only [List.flatMap_append, List.flatMap_cons, Worker.ahead, if_pos hi, List.singleton_append] at hcalled
    simp only [List.flatMap_append, List.flatMap_cons, Worker.calling, List.nil_append] at hfinished
    refine ⟨_, ⟨hmem, ?_, hnext, ?_, ?_, ?_⟩, .inr ⟨rfl, by simp⟩⟩
    · simpa [hi] using hworkers
    · simpa [hi] using hpast
    · simp only [List.flatMap_append, List.flatMap_cons, Worker.ahead, List.nil_append]
      exact (perm_moved _ _ _ i).symm.trans hcalled
    · simp only [List.flatMap_append, List.flatMap_cons, Worker.calling, List.singleton_append]
      exact perm_grown hfinished i
  | @leave i hi =>
    have hno : ¬ i < n := by omega
    obtain ⟨hmem, hworkers, hnext, hpast, hcalled, hfinished⟩ := h
    refine ⟨_, ⟨hmem, ?_, hnext, ?_, ?_, ?_⟩, .inr ⟨rfl, by simp⟩⟩
    · simpa [hno] using hworkers
    · simpa [List.countP_cons, hi] using hpast
    · simpa [hno] using hcalled
    · simpa using hfinished
  | @act i a rest =>
    obtain ⟨next, workers, mem⟩ := t
    obtain ⟨hmem, hworkers, hnext, hpast, hcalled, hfinished⟩ := h
    simp only [List.map_append, List.map_cons, List.append_assoc, List.cons_append, Worker.job] at hworkers
    subst hworkers
    refine ⟨_, ?_, .inl ⟨.act, by simp⟩⟩
    refine ⟨congrArg (act a) hmem, by simp, hnext, ?_, ?_, ?_⟩
    · simpa using hpast
    · simpa using hcalled
    · simpa using hfinished
  | @ret i =>
    obtain ⟨hmem, hworkers, hnext, hpast, hcalled, hfinished⟩ := h
    simp only [List.flatMap_append, List.flatMap_cons, Worker.calling, List.singleton_append] at hfinished
    refine ⟨_, ⟨hmem, ?_, hnext, ?_, ?_, ?_⟩, .inr ⟨rfl, by simp⟩⟩
    · simpa using hworkers
    · simpa using hpast
    · simpa using hcalled
    · simp only [List.flatMap_append, List.flatMap_cons, Worker.calling, List.nil_append]
      exact (perm_moved _ _ _ i).symm.trans hfinished

/-! ## The caller -/

/-- Where the caller can be while the workers are these. -/
def Caller.Fits (w : Nat) (ws : List (Worker α)) : Caller α → Prop
  | .spawning => ws.length < w
  | .body => ws.length = w
  | .joining k => ws.length = w ∧ k < w ∧ ∀ j, j < k ∨ j + 1 = w → ws[j]? = some .done
  | .returned => ws.length = w ∧ ∀ j < w, ws[j]? = some .done
  | _ => False

/-- Steps of the caller still to come. -/
def Caller.weight (w : Nat) (ws : List (Worker α)) : Caller α → Nat
  | .spawning => 2 * w + 2 - ws.length
  | .body => w + 1
  | .joining k => w - k
  | _ => 0

theorem Caller.Fits.length_le {ws : List (Worker α)} {p : Caller α} (h : p.Fits w ws) : ws.length ≤ w := by
  cases p with
  | spawning => exact Nat.le_of_lt h
  | body => exact Nat.le_of_eq h
  | joining k => exact Nat.le_of_eq h.1
  | returned => exact Nat.le_of_eq h.1
  | entry => exact absurd h id
  | serial i => exact absurd h id
  | serialCall i rest => exact absurd h id

/-- A thread that has left does not step, so the ones that have left stay where they are. -/
theorem done_stays {pre post : List (Worker α)} {v v' : Worker α} {c c' : Shared σ} (hstep : WorkerStep n f act c v c' v') {j : Nat}
    (h : (pre ++ v :: post)[j]? = some .done) : (pre ++ v' :: post)[j]? = some .done := by
  rcases Nat.lt_trichotomy j pre.length with hlt | rfl | hgt
  · rwa [List.getElem?_append_left hlt] at h ⊢
  · rw [List.getElem?_append_right (Nat.le_refl _), Nat.sub_self, List.getElem?_cons_zero, Option.some.injEq] at h
    subst h
    cases hstep
  · have hpos : j - pre.length = j - pre.length - 1 + 1 := by omega
    rw [List.getElem?_append_right (Nat.le_of_lt hgt), hpos, List.getElem?_cons_succ] at h ⊢
    exact h

theorem Caller.Fits.worker {pre post : List (Worker α)} {v v' : Worker α} {c c' : Shared σ} {p : Caller α}
    (hstep : WorkerStep n f act c v c' v') (h : p.Fits w (pre ++ v :: post)) : p.Fits w (pre ++ v' :: post) := by
  have hlen : (pre ++ v' :: post).length = (pre ++ v :: post).length := by simp
  cases p with
  | spawning => exact lt_of_eq_of_lt hlen h
  | body => exact hlen.trans h
  | joining k => exact ⟨hlen.trans h.1, h.2.1, fun j hj => done_stays hstep (h.2.2 j hj)⟩
  | returned => exact ⟨hlen.trans h.1, fun j hj => done_stays hstep (h.2 j hj)⟩
  | entry => exact h
  | serial i => exact h
  | serialCall i rest => exact h

/-- All steps still to come. -/
def toCome (w n : Nat) (f : Nat → List α) (s : Threads α σ) (t : Workers.State α σ) : Nat :=
  3 * Workers.remaining f n t + (s.workers.map Worker.weight).sum + s.caller.weight w s.workers

/-- A step from the spawning on is seen by the workers or not, and one step fewer is to come. -/
theorem parallel_step {s s' : Threads α σ} {t : Workers.State α σ} (hfit : n + min n hardware ≤ 2 ^ 64)
    (hcaller : s.caller.Fits (min n hardware) s.workers) (h : Sim (min n hardware) n f s.workers s.shared t)
    (hstep : ThreadStep hardware n (some f) act s s') :
    ∃ t', Workers.Run f act n t t' ∧ s'.caller.Fits (min n hardware) s'.workers ∧
      Sim (min n hardware) n f s'.workers s'.shared t' ∧
      toCome (min n hardware) n f s' t' < toCome (min n hardware) n f s t := by
  cases hstep with
  | nothing => exact absurd hcaller id
  | serial => exact absurd hcaller id
  | serialCall => exact absurd hcaller id
  | serialAct => exact absurd hcaller id
  | serialRet => exact absurd hcaller id
  | serialEnd => exact absurd hcaller id
  | parallel => exact absurd hcaller id
  | @spawn ws c hlt =>
    refine ⟨t, .refl, ?_, spawn_sim h hcaller, ?_⟩
    · simpa [Caller.Fits] using hlt
    · simp [toCome, Caller.weight]
      omega
  | @own ws c heq =>
    refine ⟨t, .refl, ?_, spawn_sim h hcaller, ?_⟩
    · simpa [Caller.Fits] using heq
    · simp [toCome, Caller.weight]
      omega
  | @left ws c =>
    have hlen : (ws ++ [Worker.done]).length = min n hardware := hcaller
    refine ⟨t, .refl, ⟨hlen, ?_, fun j hj => ?_⟩, h, ?_⟩
    · rw [← hlen]
      simp
    · have hlast : j = ws.length := by
        rw [← hlen] at hj
        simpa using hj
      simp [hlast]
    · simp [toCome, Caller.weight]
  | @join ws c k hlt hdone =>
    obtain ⟨hlen, hk, hall⟩ := hcaller
    refine ⟨t, .refl, ⟨hlen, hlt, fun j hj => ?_⟩, h, ?_⟩
    · by_cases hjk : j = k
      · exact hjk ▸ hdone
      · exact hall j (by omega)
    · simp only [toCome, Caller.weight]
      omega
  | @ret ws c k heq =>
    obtain ⟨hlen, hk, hall⟩ := hcaller
    refine ⟨t, .refl, ⟨hlen, fun j hj => hall j (by omega)⟩, h, ?_⟩
    simp only [toCome, Caller.weight]
    omega
  | @worker p pre post v v' c c' f' hf hworker =>
    cases hf
    obtain ⟨t', hsim, hseen⟩ := worker_sim hfit hcaller.length_le h hworker
    have hlen : (pre ++ v' :: post).length = (pre ++ v :: post).length := by simp
    have hcallers : p.weight (min n hardware) (pre ++ v' :: post) = p.weight (min n hardware) (pre ++ v :: post) := by
      cases p <;> simp [Caller.weight]
    refine ⟨t', ?_, hcaller.worker hworker, hsim, ?_⟩
    · rcases hseen with ⟨hseen, -⟩ | ⟨rfl, -⟩
      · exact .single hseen
      · exact .refl
    · simp only [toCome, hcallers, List.map_append, List.map_cons, List.sum_append, List.sum_cons]
      rcases hseen with ⟨hseen, hle⟩ | ⟨rfl, hlt⟩
      · have hless := Workers.step_decreases hseen
        omega
      · omega

end

end Uaii.Kernels
