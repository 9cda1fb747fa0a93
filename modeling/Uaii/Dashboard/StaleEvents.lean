/-
  Uaii.Dashboard.StaleEvents — events of a process that is no longer the worker's child
  (`dashboard/server/chat_worker.mjs`).

  `stop` forgets the child at once; its lines, its `error` and its `close` still come, maybe
  after `start` has spawned another. No handler asks whose event it is. Such an event
  leaves the worker alone exactly when there is nothing for it to touch (`Harmless`).
-/

import Uaii.Dashboard.ChatWorker

namespace Uaii.Dashboard.ChatWorker

/-- What an older process must not change. -/
def Same (w w' : ChatWorker) : Prop :=
  w'.child = w.child ∧ w'.ready = w.ready ∧ w'.busy = w.busy ∧ w'.queue = w.queue ∧ w'.pending = w.pending

/-- The process that an event is of. -/
def sender : Event → Option Nat
  | .line child _ | .error child | .close child => some child
  | _ => none

/-- An event of a process that was spawned and is not the child any more. -/
def Stale (w : ChatWorker) (e : Event) : Prop := ∃ child, sender e = some child ∧ child < w.nextChild ∧ w.child ≠ some child

/-- Nothing waits or is under way. -/
def Quiet (w : ChatWorker) : Prop := w.busy = false ∧ w.queue = [] ∧ w.pending = []

/-- The event finds nothing that it would change. -/
def Harmless (w : ChatWorker) : Event → Prop
  | .line _ .ready => w.ready = true ∧ (w.busy = true ∨ w.child = none ∨ w.queue = [])
  | .line _ .failed => w.Quiet
  | .line _ (.done id) | .line _ (.error id) | .line _ (.reset id) => id ∉ w.pending
  | .error _ | .close _ => w.child = none ∧ w.ready = false ∧ w.Quiet
  | _ => True

variable {queueMax : Nat} {throws : Nat → Bool} {w : ChatWorker} {e : Event}

/-! ## One event -/

theorem same_refl (w : ChatWorker) : Same w w := ⟨rfl, rfl, rfl, rfl, rfl⟩

theorem pumpQueue_shorter : ∀ {queue : List Nat} {w : ChatWorker}, queue ≠ [] → (pumpQueue throws queue w).queue.length < queue.length
  | job :: queue, w, _ => by
    unfold pumpQueue
    split
    · by_cases hq : queue = []
      · subst hq
        exact Nat.one_pos
      · exact Nat.lt_succ_of_lt (pumpQueue_shorter hq)
    · exact Nat.lt_succ_self _

/-- A pump that leaves the queue as it is does nothing. -/
theorem pump_queue (h : (pump throws w).queue = w.queue) : w.busy = true ∨ w.ready = false ∨ w.child = none ∨ w.queue = [] := by
  unfold pump at h
  split at h
  · next hno => rcases hno with hb | hr | hc <;> simp_all
  · by_contra hall
    have hne : w.queue ≠ [] := by
      intro he
      exact hall (.inr (.inr (.inr he)))
    have hlt : (pumpQueue throws w.queue w).queue.length < w.queue.length := pumpQueue_shorter hne
    rw [h] at hlt
    exact Nat.lt_irrefl _ hlt

theorem pump_idle (h : w.busy = true ∨ w.child = none ∨ w.queue = []) : Same w (pump throws w) := by
  unfold pump
  split
  · exact same_refl w
  · next hno =>
    simp only [not_or] at hno
    rcases h with hb | hc | hq
    · exact absurd hb hno.1
    · exact absurd hc hno.2.2
    · rw [hq]
      exact ⟨rfl, rfl, rfl, hq.symm, rfl⟩

theorem pumpQueue_ready : ∀ {queue : List Nat} {w : ChatWorker}, (pumpQueue throws queue w).ready = w.ready
  | [], w => rfl
  | job :: queue, w => by
    unfold pumpQueue
    split
    · exact pumpQueue_ready
    · rfl

theorem pump_ready : (pump throws w).ready = w.ready := by
  unfold pump
  split
  · rfl
  · exact pumpQueue_ready

theorem failAll_same : Same w w.failAll ↔ w.Quiet := by
  constructor
  · intro ⟨_, _, hb, hq, hp⟩
    exact ⟨hb.symm, hq.symm, hp.symm⟩
  · intro ⟨hb, hq, hp⟩
    exact ⟨rfl, rfl, hb.symm, hq.symm, hp.symm⟩

theorem pumpQueue_pending : ∀ {queue : List Nat} {w : ChatWorker}, (pumpQueue throws queue w).queue = queue →
    (pumpQueue throws queue w).pending = w.pending
  | [], _, _ => rfl
  | _ :: _, _, h => absurd (congrArg List.length h) (Nat.ne_of_lt (pumpQueue_shorter (List.cons_ne_nil _ _)))

theorem finishJob_same {id : Nat} {o : Outcome} : Same w (w.finishJob throws id o) ↔ id ∉ w.pending := by
  unfold finishJob
  split
  · next hmem =>
    refine iff_of_false (fun ⟨_, _, _, hq, hp⟩ => ?_) (not_not.mpr hmem)
    have hpending : (pump throws { w.settle [id] o with pending := w.pending.erase id, busy := false }).pending =
        w.pending.erase id := by
      unfold pump at hq ⊢
      split at hq
      · next hno => rw [if_pos hno]
      · next hno =>
        rw [if_neg hno]
        exact pumpQueue_pending hq
    rw [hpending] at hp
    have hlen := List.length_erase_of_mem hmem
    rw [hp] at hlen
    have hpos := List.length_pos_of_mem hmem
    omega
  · next hno => exact iff_of_true (same_refl w) hno

/-- An event of any process leaves the worker alone exactly when it finds nothing to change. -/
theorem step_same_iff (he : (sender e).isSome) : Same w (step queueMax throws w e) ↔ Harmless w e := by
  cases e with
  | start => cases he
  | stop => cases he
  | generate => cases he
  | reset => cases he
  | timeout id => cases he
  | line child line =>
    cases line with
    | other => exact iff_of_true (same_refl w) trivial
    | token id => exact iff_of_true (same_refl w) trivial
    | failed => exact failAll_same
    | done id => exact finishJob_same
    | error id => exact finishJob_same
    | reset id => exact finishJob_same
    | ready =>
      constructor
      · intro ⟨_, hr, _, hq, _⟩
        have hready : w.ready = true := hr.symm.trans pump_ready
        rcases pump_queue hq with hb | hno | hc | hqueue
        · exact ⟨hready, .inl hb⟩
        · cases hno
        · exact ⟨hready, .inr (.inl hc)⟩
        · exact ⟨hready, .inr (.inr hqueue)⟩
      · intro ⟨hready, hidle⟩
        have hw : { w with ready := true } = w := by rw [← hready]
        show Same w (pump throws { w with ready := true })
        rw [hw]
        exact pump_idle hidle
  | error child =>
    constructor
    · intro ⟨hc, hr, hb, hq, hp⟩
      exact ⟨hc.symm, hr.symm, hb.symm, hq.symm, hp.symm⟩
    · intro ⟨hc, hr, hb, hq, hp⟩
      exact ⟨hc.symm, hr.symm, hb.symm, hq.symm, hp.symm⟩
  | close child =>
    constructor
    · intro ⟨hc, hr, hb, hq, hp⟩
      exact ⟨hc.symm, hr.symm, hb.symm, hq.symm, hp.symm⟩
    · intro ⟨hc, hr, hb, hq, hp⟩
      exact ⟨hc.symm, hr.symm, hb.symm, hq.symm, hp.symm⟩

/-! ## Runs -/

/-- Of every event of a run, at the worker it finds. -/
def Along (queueMax : Nat) (P : ChatWorker → Event → ChatWorker → Prop) : List (Event × (Nat → Bool)) → ChatWorker → Prop
  | [], _ => True
  | (e, throws) :: es, w => P w e (step queueMax throws w e) ∧ Along queueMax P es (step queueMax throws w e)

theorem along_congr {P Q : ChatWorker → Event → ChatWorker → Prop}
    (h : ∀ w e throws, P w e (step queueMax throws w e) ↔ Q w e (step queueMax throws w e)) :
    ∀ {es : List (Event × (Nat → Bool))} {w : ChatWorker}, Along queueMax P es w ↔ Along queueMax Q es w
  | [], _ => Iff.rfl
  | (e, throws) :: _, w => and_congr (h w e throws) (along_congr h)

/-- A run's stale events leave the worker alone exactly when each finds nothing to change. -/
theorem stale_events_harmless_iff (queueMax : Nat) (es : List (Event × (Nat → Bool))) :
    Along queueMax (fun w e w' => Stale w e → Same w w') es init ↔ Along queueMax (fun w e _ => Stale w e → Harmless w e) es init := by
  refine along_congr fun w e throws => imp_congr_right fun hstale => step_same_iff ?_
  obtain ⟨child, hsender, -⟩ := hstale
  rw [hsender]
  rfl

/-- The worker is stopped and started again; then the first process closes. -/
theorem late_close_forgets_child :
    ¬ Along 16 (fun w e w' => Stale w e → Same w w')
      ([.start, .line 0 .ready, .stop, .start, .close 0].map fun e => (e, fun _ => false)) init := by
  intro ⟨_, _, _, _, hclose, _⟩
  have hsame := hclose ⟨0, rfl, by decide, by decide⟩
  exact absurd hsame.1 (by decide)

end Uaii.Dashboard.ChatWorker
