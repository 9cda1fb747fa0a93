/-
  Uaii.Dashboard.ChatWorker — the dashboard's `ChatWorker`
  (`dashboard/server/chat_worker.mjs`) as a state machine.

  One event is one synchronous stretch of code: what `generate` and `reset` do once
  `waitReady` is over, a timer, a line of a child's output, a child's `error` or `close`.
  `throws` says whose write to stdin throws. Every process ever spawned has a number; its
  events arrive at any time, and no handler looks at who sent them.

  Proved of every run: a request is in the queue, in the pending map or settled, in one of
  the three and once (`Orderly.places`); the queue is bounded, the pending map has one
  entry when the worker is busy and none when it is not; requests are written in the order
  they came (`reachable_orderly`). A `reset` line settles a `generate` whose id it carries
  (`reset_line_resolves_generate`): requests of both kinds are kept in one map.
-/

import Mathlib.Data.List.Perm.Basic
import Mathlib.Data.List.Nodup

namespace Uaii.Dashboard

/-- A line of the child's output, by its `event`; what is not listed changes only the status. -/
inductive Line where
  | other
  | ready
  /-- An `error` without an id. -/
  | failed
  | token (id : Nat)
  | done (id : Nat)
  | error (id : Nat)
  | reset (id : Nat)
  deriving DecidableEq, Repr

inductive Outcome where
  | resolved (line : Line)
  | rejected
  deriving DecidableEq, Repr

structure ChatWorker where
  child : Option Nat
  ready : Bool
  busy : Bool
  queue : List Nat
  pending : List Nat
  /-- `randomUUID` and `spawn`: what comes next. -/
  nextId : Nat
  nextChild : Nat
  /-- The requests taken, the ones `generate` took, the ones written to a child and the ones settled. -/
  accepted : List Nat
  generated : List Nat
  written : List Nat
  settled : List (Nat × Outcome)
  deriving DecidableEq, Repr

namespace ChatWorker

def init : ChatWorker := ⟨none, false, false, [], [], 0, 0, [], [], [], []⟩

variable (queueMax : Nat) (throws : Nat → Bool)

def start (w : ChatWorker) : ChatWorker :=
  if w.child.isSome then w else { w with ready := false, child := some w.nextChild, nextChild := w.nextChild + 1 }

def stop (w : ChatWorker) : ChatWorker := if w.child = none then w else { w with child := none, ready := false }

def settle (w : ChatWorker) (ids : List Nat) (o : Outcome) : ChatWorker :=
  { w with settled := w.settled ++ ids.map fun id => (id, o) }

def failAll (w : ChatWorker) : ChatWorker :=
  { w.settle (w.queue ++ w.pending) .rejected with queue := [], pending := [], busy := false }

/-- A request whose write throws is rejected, and the next one is taken. -/
def pumpQueue : List Nat → ChatWorker → ChatWorker
  | [], w => { w with queue := [] }
  | job :: queue, w =>
    if throws job then pumpQueue queue (w.settle [job] .rejected)
    else { w with queue := queue, busy := true, pending := w.pending ++ [job], written := w.written ++ [job] }

def pump (w : ChatWorker) : ChatWorker :=
  if w.busy ∨ ¬ w.ready ∨ w.child = none then w else pumpQueue throws w.queue w

def finishJob (w : ChatWorker) (id : Nat) (o : Outcome) : ChatWorker :=
  if id ∈ w.pending then pump throws { w.settle [id] o with pending := w.pending.erase id, busy := false } else w

def onLine (w : ChatWorker) : Line → ChatWorker
  | .other => w
  | .ready => pump throws { w with ready := true }
  | .failed => w.failAll
  | .token _ => w
  | .done id => w.finishJob throws id (.resolved (.done id))
  | .error id => w.finishJob throws id .rejected
  | .reset id => w.finishJob throws id (.resolved (.reset id))

/-- `generate` after `waitReady`. -/
def generate (w : ChatWorker) : ChatWorker :=
  if queueMax ≤ w.queue.length then w
  else pump throws { w with
    queue := w.queue ++ [w.nextId]
    accepted := w.accepted ++ [w.nextId]
    generated := w.generated ++ [w.nextId]
    nextId := w.nextId + 1 }

/-- The timer of a `generate`. -/
def timeout (w : ChatWorker) (id : Nat) : ChatWorker :=
  if id ∉ w.generated then w
  else if id ∈ w.queue then { w.settle [id] .rejected with queue := w.queue.erase id }
  else if id ∈ w.pending then pump throws { w.settle [id] .rejected with pending := w.pending.erase id, busy := false }
  else w

/-- `reset` once nothing is under way or waits. -/
def reset (w : ChatWorker) : ChatWorker :=
  if w.busy ∨ w.queue ≠ [] then w
  else
    let taken := { w with accepted := w.accepted ++ [w.nextId], nextId := w.nextId + 1 }
    if w.child = none ∨ throws w.nextId then taken.settle [w.nextId] .rejected
    else { taken with busy := true, pending := w.pending ++ [w.nextId], written := w.written ++ [w.nextId] }

def onError (w : ChatWorker) : ChatWorker := { w.failAll with child := none, ready := false }

def onClose (w : ChatWorker) : ChatWorker := { w.failAll with child := none, ready := false, busy := false }

inductive Event where
  | start
  | stop
  | generate
  | reset
  | timeout (id : Nat)
  | line (child : Nat) (line : Line)
  | error (child : Nat)
  | close (child : Nat)
  deriving DecidableEq, Repr

def step (w : ChatWorker) : Event → ChatWorker
  | .start => w.start
  | .stop => w.stop
  | .generate => w.generate queueMax throws
  | .reset => w.reset throws
  | .timeout id => w.timeout throws id
  | .line _ line => w.onLine throws line
  | .error _ => w.onError
  | .close _ => w.onClose

inductive Reachable : ChatWorker → Prop
  | init : Reachable init
  | step {w : ChatWorker} (throws : Nat → Bool) (e : Event) : Reachable w → Reachable (step queueMax throws w e)

/-! ## What every run keeps -/

structure Orderly (queueMax : Nat) (w : ChatWorker) : Prop where
  /-- Every request is in one place. -/
  places : (w.queue ++ w.pending ++ w.settled.map (·.1)).Perm w.accepted
  once : w.accepted.Nodup
  fresh : ∀ id ∈ w.accepted, id < w.nextId
  generated : w.generated.Sublist w.accepted
  bounded : w.queue.length ≤ queueMax
  single : w.pending.length ≤ 1
  busy : w.busy = true ↔ w.pending ≠ []
  /-- What waits has come after what is written. -/
  inOrder : (w.written ++ w.queue).Sublist w.accepted
  resolved : ∀ id line, (id, .resolved line) ∈ w.settled → line = .done id ∨ line = .reset id

variable {queueMax} {throws} {w : ChatWorker} {id : Nat} {o : Outcome}

theorem pumpQueue_orderly : ∀ {queue : List Nat} {w : ChatWorker}, Orderly queueMax { w with queue := queue } → w.pending = [] →
    Orderly queueMax (pumpQueue throws queue w)
  | [], _, h, _ => h
  | job :: queue, w, h, hp => by
    unfold pumpQueue
    split
    · refine pumpQueue_orderly ⟨?_, h.once, h.fresh, h.generated, ?_, h.single, h.busy, ?_, fun id line hmem => ?_⟩ hp
      · refine List.Perm.trans ?_ h.places
        simp only [settle, List.map_append, List.map_cons, List.map_nil, hp, List.append_nil, List.cons_append]
        rw [← List.append_assoc]
        exact List.perm_append_singleton _ _
      · exact Nat.le_trans (Nat.le_succ _) h.bounded
      · refine List.Sublist.trans ?_ h.inOrder
        exact (List.sublist_cons_self _ _).append_left _
      · simp only [settle, List.map_cons, List.map_nil, List.mem_append, List.mem_singleton, Prod.mk.injEq, reduceCtorEq,
          and_false, or_false] at hmem
        exact h.resolved id line hmem
    · refine ⟨?_, h.once, h.fresh, h.generated, Nat.le_trans (Nat.le_succ _) h.bounded, by simp [hp], by simp, ?_, h.resolved⟩
      · refine List.Perm.trans ?_ h.places
        simp only [hp, List.nil_append, List.append_nil, List.cons_append]
        rw [List.append_assoc, List.singleton_append]
        exact List.perm_middle
      · refine List.Sublist.trans ?_ h.inOrder
        simp

theorem pump_orderly (h : Orderly queueMax w) : Orderly queueMax (pump throws w) := by
  unfold pump
  split
  · exact h
  · next hidle =>
    have hp : w.pending = [] := by
      by_contra hne
      exact hidle (.inl (h.busy.mpr hne))
    exact pumpQueue_orderly h hp

/-- The one pending request is settled. -/
theorem unpend (h : Orderly queueMax w) (hmem : id ∈ w.pending) (ho : ∀ line, o = .resolved line → line = .done id ∨ line = .reset id) :
    Orderly queueMax { w.settle [id] o with pending := w.pending.erase id, busy := false } := by
  have hone : w.pending = [id] := by
    obtain ⟨x, hx⟩ := List.length_eq_one_iff.mp (Nat.le_antisymm h.single (List.length_pos_of_mem hmem))
    rw [hx] at hmem ⊢
    rw [List.mem_singleton.mp hmem]
  refine ⟨?_, h.once, h.fresh, h.generated, h.bounded, by simp [hone], by simp [hone], h.inOrder, fun id' line hmem' => ?_⟩
  · refine List.Perm.trans ?_ h.places
    simp only [settle, hone, List.erase_cons_head, List.map_append, List.map_cons, List.map_nil, List.append_nil]
    rw [← List.append_assoc, List.append_assoc w.queue [id]]
    refine (List.perm_append_singleton _ _).trans ?_
    exact List.perm_middle.symm
  · simp only [settle, List.map_cons, List.map_nil, List.mem_append, List.mem_singleton, Prod.mk.injEq] at hmem'
    rcases hmem' with hold | ⟨rfl, he⟩
    · exact h.resolved id' line hold
    · exact ho line he.symm

theorem failAll_orderly (h : Orderly queueMax w) : Orderly queueMax w.failAll := by
  refine ⟨?_, h.once, h.fresh, h.generated, Nat.zero_le _, Nat.zero_le _, by simp [failAll], ?_, fun id line hmem => ?_⟩
  · refine List.Perm.trans ?_ h.places
    simp only [failAll, settle, List.map_append, List.map_map, List.nil_append]
    have hid : ((fun x : Nat × Outcome => x.1) ∘ fun id => (id, Outcome.rejected)) = id := rfl
    rw [hid, List.map_id, List.map_id]
    exact List.perm_append_comm
  · refine List.Sublist.trans ?_ h.inOrder
    simp [failAll, settle]
  · simp only [failAll, settle, List.mem_append, List.mem_map, Prod.mk.injEq, reduceCtorEq, and_false, exists_false,
      or_false] at hmem
    exact h.resolved id line hmem

theorem finishJob_orderly (h : Orderly queueMax w) (ho : ∀ line, o = .resolved line → line = .done id ∨ line = .reset id) :
    Orderly queueMax (w.finishJob throws id o) := by
  unfold finishJob
  split
  · next hmem => exact pump_orderly (unpend h hmem ho)
  · exact h

theorem generate_orderly (h : Orderly queueMax w) : Orderly queueMax (w.generate queueMax throws) := by
  unfold generate
  split
  · exact h
  · next hroom =>
    have hnew : w.nextId ∉ w.accepted := fun hmem => absurd (h.fresh _ hmem) (Nat.lt_irrefl _)
    refine pump_orderly ⟨?_, ?_, ?_, ?_, ?_, h.single, h.busy, ?_, h.resolved⟩
    · refine List.Perm.trans ?_ (h.places.append_right [w.nextId])
      simp only [List.append_assoc]
      refine List.Perm.append_left _ ?_
      rw [← List.append_assoc w.pending]
      exact List.perm_append_comm
    · exact List.nodup_append.mpr ⟨h.once, List.nodup_singleton _, by
        intro x hx y hy hxy
        rw [hxy, List.mem_singleton.mp hy] at hx
        exact hnew hx⟩
    · intro x hx
      rcases List.mem_append.mp hx with hx | hx
      · exact Nat.lt_succ_of_lt (h.fresh x hx)
      · rw [List.mem_singleton.mp hx]
        exact Nat.lt_succ_self _
    · exact h.generated.append (List.Sublist.refl _)
    · simp only [List.length_append, List.length_singleton]
      omega
    · rw [← List.append_assoc]
      exact h.inOrder.append (List.Sublist.refl _)

theorem timeout_orderly (h : Orderly queueMax w) : Orderly queueMax (w.timeout throws id) := by
  unfold timeout
  split
  · exact h
  split
  · next hmem =>
    refine ⟨?_, h.once, h.fresh, h.generated, ?_, h.single, h.busy, ?_, fun id' line hmem' => ?_⟩
    · refine List.Perm.trans ?_ h.places
      simp only [settle, List.map_append, List.map_cons, List.map_nil]
      have hqueue := List.perm_cons_erase hmem
      refine List.Perm.trans ?_ ((hqueue.symm.append_right w.pending).append_right _)
      rw [← List.append_assoc]
      refine (List.perm_append_singleton _ _).trans ?_
      rw [List.cons_append, List.cons_append]
    · refine Nat.le_trans ?_ h.bounded
      exact (List.erase_sublist).length_le
    · refine List.Sublist.trans ?_ h.inOrder
      exact List.erase_sublist.append_left _
    · simp only [settle, List.map_cons, List.map_nil, List.mem_append, List.mem_singleton, Prod.mk.injEq, reduceCtorEq,
        and_false, or_false] at hmem'
      exact h.resolved id' line hmem'
  split
  · next hmem => exact pump_orderly (unpend h hmem (by simp))
  · exact h

theorem reset_orderly (h : Orderly queueMax w) : Orderly queueMax (w.reset throws) := by
  unfold reset
  split
  · exact h
  · next hidle =>
    have hnew : w.nextId ∉ w.accepted := fun hmem => absurd (h.fresh _ hmem) (Nat.lt_irrefl _)
    have hqueue : w.queue = [] := by
      by_contra hne
      exact hidle (.inr hne)
    have hp : w.pending = [] := by
      by_contra hne
      exact hidle (.inl (h.busy.mpr hne))
    have honce : (w.accepted ++ [w.nextId]).Nodup := List.nodup_append.mpr ⟨h.once, List.nodup_singleton _, by
      intro x hx y hy hxy
      rw [hxy, List.mem_singleton.mp hy] at hx
      exact hnew hx⟩
    have hfresh : ∀ x ∈ w.accepted ++ [w.nextId], x < w.nextId + 1 := by
      intro x hx
      rcases List.mem_append.mp hx with hx | hx
      · exact Nat.lt_succ_of_lt (h.fresh x hx)
      · rw [List.mem_singleton.mp hx]
        exact Nat.lt_succ_self _
    have hgen : w.generated.Sublist (w.accepted ++ [w.nextId]) := h.generated.trans (List.sublist_append_left _ _)
    have hplaces : (w.settled.map (·.1)).Perm w.accepted := by simpa [hqueue, hp] using h.places
    have horder : w.written.Sublist w.accepted := by simpa [hqueue] using h.inOrder
    dsimp only
    split
    · refine ⟨?_, honce, hfresh, hgen, h.bounded, h.single, h.busy, ?_, fun id' line hmem' => ?_⟩
      · simp only [settle, hqueue, hp, List.nil_append, List.map_append, List.map_cons, List.map_nil]
        exact hplaces.append_right _
      · simp only [settle, hqueue, List.append_nil]
        exact horder.trans (List.sublist_append_left _ _)
      · simp only [settle, List.map_cons, List.map_nil, List.mem_append, List.mem_singleton, Prod.mk.injEq, reduceCtorEq,
          and_false, or_false] at hmem'
        exact h.resolved id' line hmem'
    · refine ⟨?_, honce, hfresh, hgen, h.bounded, by simp [hp], by simp, ?_, h.resolved⟩
      · simp only [hqueue, hp, List.nil_append]
        exact List.perm_append_comm.trans (hplaces.append_right _)
      · simp only [hqueue, List.append_nil]
        exact horder.append (List.Sublist.refl _)

theorem onLine_orderly {line : Line} (h : Orderly queueMax w) : Orderly queueMax (w.onLine throws line) := by
  cases line with
  | other => exact h
  | ready => exact pump_orderly ⟨h.places, h.once, h.fresh, h.generated, h.bounded, h.single, h.busy, h.inOrder, h.resolved⟩
  | failed => exact failAll_orderly h
  | token id => exact h
  | done id => exact finishJob_orderly h (by simp)
  | error id => exact finishJob_orderly h (by simp)
  | reset id => exact finishJob_orderly h (by simp)

theorem step_orderly {e : Event} (h : Orderly queueMax w) : Orderly queueMax (step queueMax throws w e) := by
  have hfailed := failAll_orderly h
  cases e with
  | start =>
    simp only [step, start]
    split
    · exact h
    · exact ⟨h.places, h.once, h.fresh, h.generated, h.bounded, h.single, h.busy, h.inOrder, h.resolved⟩
  | stop =>
    simp only [step, stop]
    split
    · exact h
    · exact ⟨h.places, h.once, h.fresh, h.generated, h.bounded, h.single, h.busy, h.inOrder, h.resolved⟩
  | generate => exact generate_orderly h
  | reset => exact reset_orderly h
  | timeout id => exact timeout_orderly h
  | line child line => exact onLine_orderly h
  | error child =>
    exact ⟨hfailed.places, hfailed.once, hfailed.fresh, hfailed.generated, hfailed.bounded, hfailed.single, hfailed.busy,
      hfailed.inOrder, hfailed.resolved⟩
  | close child =>
    exact ⟨hfailed.places, hfailed.once, hfailed.fresh, hfailed.generated, hfailed.bounded, hfailed.single, hfailed.busy,
      hfailed.inOrder, hfailed.resolved⟩

theorem init_orderly : Orderly queueMax init where
  places := .refl _
  once := .nil
  fresh := by simp [init]
  generated := by simp [init]
  bounded := Nat.zero_le _
  single := Nat.zero_le _
  busy := by simp [init]
  inOrder := .refl _
  resolved := by simp [init]

theorem orderly_of_reachable (h : Reachable queueMax w) : Orderly queueMax w := by
  induction h with
  | init => exact init_orderly
  | step throws e _ ih => exact step_orderly ih

/-- Of every run: a `generate` is in the queue, in the pending map or settled, in one of them
    alone, and settled once at most. -/
theorem requests_conserved (queueMax : Nat) (w : ChatWorker) (h : Reachable queueMax w) :
    (∀ id ∈ w.generated,
      (id ∈ w.queue ∧ id ∉ w.pending ∧ id ∉ w.settled.map (·.1)) ∨ (id ∉ w.queue ∧ id ∈ w.pending ∧ id ∉ w.settled.map (·.1)) ∨
        (id ∉ w.queue ∧ id ∉ w.pending ∧ id ∈ w.settled.map (·.1))) ∧
      (w.settled.map (·.1)).Nodup ∧
      (∀ id line, (id, .resolved line) ∈ w.settled → line = .done id ∨ line = .reset id) ∧
      w.queue.length ≤ queueMax ∧ w.pending.length ≤ 1 ∧ (w.pending.length = 1 ↔ w.busy = true) ∧
      w.written.Sublist w.accepted ∧ w.generated.Sublist w.accepted := by
  have ho := orderly_of_reachable h
  have hnd := ho.places.nodup_iff.mpr ho.once
  rw [List.append_assoc, List.nodup_append', List.nodup_append'] at hnd
  obtain ⟨-, ⟨-, hsettled, hps⟩, hq⟩ := hnd
  refine ⟨fun id hid => ?_, hsettled, ho.resolved, ho.bounded, ho.single, ?_, ?_, ho.generated⟩
  · have hmem := ho.places.mem_iff.mpr (ho.generated.subset hid)
    simp only [List.mem_append] at hmem
    rcases hmem with (hmem | hmem) | hmem
    · exact .inl ⟨hmem, fun hp => hq hmem (List.mem_append_left _ hp), fun hs => hq hmem (List.mem_append_right _ hs)⟩
    · exact .inr (.inl ⟨fun hqueue => hq hqueue (List.mem_append_left _ hmem), hmem, hps hmem⟩)
    · exact .inr (.inr ⟨fun hqueue => hq hqueue (List.mem_append_right _ hmem), fun hp => hps hp hmem, hmem⟩)
  · rw [ho.busy]
    have hone := ho.single
    cases hp : w.pending with
    | nil => simp
    | cons x rest =>
      rw [hp, List.length_cons] at hone
      simp only [List.length_cons, ne_eq, reduceCtorEq, not_false_eq_true, iff_true]
      omega
  · exact (List.sublist_append_left _ _).trans ho.inOrder

/-- One request that waits for its worker. -/
def oneWaiting : ChatWorker := ⟨some 0, false, false, [0], [], 1, 1, [0], [0], [], []⟩

theorem oneWaiting_reachable : Reachable 1 oneWaiting :=
  .step (fun _ => false) .generate (.step (fun _ => false) .start .init)

theorem one_waiting_conserved :
    (0 ∈ oneWaiting.queue ∧ 0 ∉ oneWaiting.pending ∧ 0 ∉ oneWaiting.settled.map (·.1)) ∨
      (0 ∉ oneWaiting.queue ∧ 0 ∈ oneWaiting.pending ∧ 0 ∉ oneWaiting.settled.map (·.1)) ∨
      (0 ∉ oneWaiting.queue ∧ 0 ∉ oneWaiting.pending ∧ 0 ∈ oneWaiting.settled.map (·.1)) :=
  (requests_conserved 1 oneWaiting oneWaiting_reachable).1 0 (by decide)

/-- A `reset` line with the id of a `generate` under way resolves it. -/
theorem reset_line_resolves_generate :
    ∃ w, Reachable 1 w ∧ 0 ∈ w.generated ∧ (0, Outcome.resolved (.reset 0)) ∈ w.settled := by
  have hready : Reachable 1 (step 1 (fun _ => false) oneWaiting (.line 0 .ready)) := .step _ _ oneWaiting_reachable
  exact ⟨_, .step (fun _ => false) (.line 0 (.reset 0)) hready, by decide, by decide⟩

end ChatWorker

end Uaii.Dashboard
