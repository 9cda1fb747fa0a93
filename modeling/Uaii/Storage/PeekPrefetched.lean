/-
  Uaii.Storage.PeekPrefetched — `try_peek_prefetched`, with prefetches under way
  (`libs/uaii-storage/src/streaming.cpp`).

  A prefetch writes the inactive buffer outside the lock, in any number of steps, and
  tags it last. Until then the buffer keeps the tag of the tensor it held before. A peek
  waits for the prefetch only when it asks for the same tensor.

  Proved, over every interleaving in which no load fails over a tagged slot: a peek that
  answers hands out the weight's bytes, in a buffer that no prefetch will write, exactly
  when no prefetch is writing (`peek_iff`).

  As built, a peek of the tensor that the inactive buffer held before answers while the
  next one is written over it (`peek_overwritten`).
-/

import Uaii.Storage.StagedBytes

namespace Uaii.Storage

open Uaii.Ir
open Uaii.Planner (StoragePlan)

namespace Store

/-- The task that has yet to write its buffer. One whose weight does not fit never does. -/
def writing (s : Store) : Option PrefetchTask :=
  s.prefetchFut.filter fun t => t.result.isNone && (s.placement t.id).any (·.bytes ≤ (s.buffers t.slot).length)

/-- The peek would wait: the tensor's own prefetch is not ready. -/
def peekWaits (s : Store) (id : TensorId) : Bool := s.prefetchFut.any fun t => t.id == id && t.result.isNone

def tryPeekPrefetched (s : Store) (id : TensorId) : Option (Ptr × Nat) :=
  if s.peekWaits id then none
  else if s.buffers s.inactive = [] then none
  else if s.resident s.inactive ≠ id then none
  else (s.placement id).map fun p => (.slot s.inactive, p.bytes)

end Store

/-- The store, and what the task under way has made of its buffer so far. -/
structure Racing where
  store : Store
  written : Option Bytes

namespace Racing

/-- What the other thread finds. -/
def view (r : Racing) : Store :=
  match r.store.writing, r.written with
  | some t, some bytes => r.store.setSlot t.slot bytes
  | _, _ => r.store

def call (env : Loader) (r : Racing) (c : Call) : Racing :=
  ⟨r.store.call env c, match c with
    | .prefetch _ => if r.store.prefetchFut.isSome then r.written else none
    | .stage id => if r.store.isStreamed id then none else r.written
    | .complete => none⟩

end Racing

/-- Reached by calls, completions and single writes of the prefetch task, whose loads do not
    fail over a tagged slot. -/
inductive Interleaved (env : Loader) (plan : StoragePlan) : Racing → Prop
  | configure : Interleaved env plan ⟨.configure plan, none⟩
  | call {r : Racing} (c : Call) : Interleaved env plan r → r.store.CallSafe env c → Interleaved env plan (r.call env c)
  | write {r : Racing} {t : PrefetchTask} (bytes : Bytes) : Interleaved env plan r → r.store.writing = some t →
      bytes.length = (r.store.buffers t.slot).length → Interleaved env plan ⟨r.store, some bytes⟩

/-- The peeked buffer holds the weight, and no prefetch will write it. -/
structure PeekHolds (weight : TensorId → Bytes) (s : Store) (ptr : Ptr × Nat) (id : TensorId) : Prop where
  bytes : s.read ptr = some (weight id)
  spared : ∀ t ∈ s.writing, Ptr.slot t.slot ≠ ptr.1

section Peek

variable {env : Loader} {weight : TensorId → Bytes} {plan : StoragePlan} {r : Racing} {id : TensorId} {ptr : Ptr × Nat}

theorem Interleaved.reached (h : Interleaved env plan r) : Store.Reached env plan r.store := by
  induction h with
  | configure => exact .configure
  | call c _ hc ih => exact .call c ih hc
  | write _ _ _ _ ih => exact ih

/-- A task's writes do not change its buffer's size. -/
theorem Interleaved.written_length (h : Interleaved env plan r) :
    ∀ bytes ∈ r.written, ∀ t ∈ r.store.writing, bytes.length = (r.store.buffers t.slot).length := by
  induction h with
  | configure => exact fun bytes hb => by cases hb
  | @call r c _ _ ih =>
    cases c with
    | stage id =>
      intro bytes hb
      by_cases hid : r.store.isStreamed id = true
      · simp [Racing.call, hid] at hb
      · -- nothing happens
        have hplace : r.store.placement id = none := by simpa [Store.isStreamed] using hid
        have hsame : r.store.call env (.stage id) = r.store := by simp [Store.call, Store.stage, hplace]
        have hold : bytes ∈ r.written := by simpa [Racing.call, hid] using hb
        simp only [Racing.call, hsame]
        exact ih bytes hold
    | prefetch id =>
      intro bytes hb
      by_cases hfut : r.store.prefetchFut.isSome = true
      · have hno : r.store.canPrefetch id = false := by
          obtain ⟨t, ht⟩ := Option.isSome_iff_exists.mp hfut
          simp [Store.canPrefetch, ht]
        have hsame : r.store.call env (.prefetch id) = r.store := by simp [Store.call, Store.prefetch, hno]
        have hold : bytes ∈ r.written := by simpa [Racing.call, hfut] using hb
        simp only [Racing.call, hsame]
        exact ih bytes hold
      · simp [Racing.call, hfut] at hb
    | complete => exact fun bytes hb => by cases hb
  | @write r t bytes _ ht hlen _ =>
    intro bytes' hb t' ht'
    obtain rfl := Option.some.inj hb
    obtain rfl : t = t' := Option.some.inj (ht.symm.trans ht')
    exact hlen

theorem Interleaved.view_writing (h : Interleaved env plan r) : r.view.writing = r.store.writing := by
  unfold Racing.view
  split
  · rename_i t bytes ht hb
    have hlen := h.written_length bytes hb t ht
    have hsize : ∀ i, ((r.store.setSlot t.slot bytes).buffers i).length = (r.store.buffers i).length := by
      intro i
      by_cases hi : i = t.slot
      · simp [Store.setSlot, hi, hlen]
      · simp [Store.setSlot, hi]
    have hplace : ∀ id, (r.store.setSlot t.slot bytes).placement id = r.store.placement id := fun _ => rfl
    simp only [Store.writing, hsize, hplace]
    rfl
  · rfl

/-- A peek answers with the inactive buffer, which has the tensor's tag. -/
theorem Store.peek_some {s : Store} (h : s.tryPeekPrefetched id = some ptr) :
    s.resident s.inactive = id ∧ ∃ p, s.placement id = some p ∧ ptr = (.slot s.inactive, p.bytes) := by
  unfold Store.tryPeekPrefetched at h
  split at h
  · cases h
  split at h
  · cases h
  split at h
  · cases h
  rename_i hres
  obtain ⟨p, hp, rfl⟩ := Option.map_eq_some_iff.mp h
  exact ⟨not_not.mp hres, p, hp, rfl⟩

theorem Racing.view_active (r : Racing) : r.view.active = r.store.active := by
  unfold Racing.view
  split
  · rfl
  · rfl

/-- What is peeked holds the weight, and is not written any more, exactly when no prefetch is
    writing. -/
theorem peek_iff (hf : Faithful env weight (Store.configure plan).placements) (hr : Interleaved env plan r)
    (hpeek : r.view.tryPeekPrefetched id = some ptr) : PeekHolds weight r.view ptr id ↔ r.store.writing = none := by
  obtain ⟨hinv, -⟩ := hr.reached.inv hf
  obtain ⟨hres, p, hp, rfl⟩ := Store.peek_some hpeek
  constructor
  · intro hholds
    refine Option.eq_none_iff_forall_ne_some.mpr fun t ht => ?_
    have hslot := (hinv.task t (Option.filter_eq_some_iff.mp ht).1).slot
    refine hholds.spared t (hr.view_writing.trans ht) ?_
    rw [hslot, Store.inactive, r.view_active]
  · intro hidle
    have hview : r.view = r.store := by simp [Racing.view, hidle]
    rw [hview] at hres hp ⊢
    refine ⟨hinv.ok.read_resident hp hres, fun t ht => ?_⟩
    rw [hidle] at ht
    cases ht

end Peek

/-! ## Three weights -/

/-- Tensors 1, 2 and 3 of one byte each, and two buffers. -/
def triplePlan : StoragePlan :=
  { pairPlan 2 with placements := (pairPlan 2).placements ++ [⟨3, "ln2.weight", .mmap, true, false, 1, "m.gguf#ln2.weight"⟩] }

theorem tripleLoader_faithful : Faithful pairLoader pairWeight (Store.configure triplePlan).placements :=
  pairLoader_ok (by decide)

/-- Weights 1 and 2 are staged, and 3 is prefetched over weight 1. -/
def swapped : Racing :=
  [Call.stage 1, .prefetch 2, .stage 2, .prefetch 3].foldl (Racing.call pairLoader) ⟨.configure triplePlan, none⟩

theorem pairLoader_safe {s : Store} (c : Call) : s.CallSafe pairLoader c := by
  cases c with
  | stage id => exact fun _ => .inr fun p _ _ => rfl
  | prefetch id => exact fun _ => .inr fun p _ _ => rfl
  | complete => trivial

theorem swapped_interleaved : Interleaved pairLoader triplePlan swapped :=
  .call _ (.call _ (.call _ (.call _ .configure (pairLoader_safe _)) (pairLoader_safe _)) (pairLoader_safe _)) (pairLoader_safe _)

/-- Once weight 3 is there, it is peeked. -/
theorem third_weight_peeked :
    (Racing.call pairLoader swapped .complete).view.tryPeekPrefetched 3 = some (.slot 0, 1) ∧
      (PeekHolds pairWeight (Racing.call pairLoader swapped .complete).view (.slot 0, 1) 3 ↔
        (Racing.call pairLoader swapped .complete).store.writing = none) := by
  have hpeek : (Racing.call pairLoader swapped .complete).view.tryPeekPrefetched 3 = some (.slot 0, 1) := by decide
  exact ⟨hpeek, peek_iff tripleLoader_faithful (.call .complete swapped_interleaved trivial) hpeek⟩

/-- After one write of weight 3, a peek of weight 1 answers with the half-written buffer. -/
theorem peek_overwritten : Interleaved pairLoader triplePlan ⟨swapped.store, some [9]⟩ ∧
    (Racing.view ⟨swapped.store, some [9]⟩).tryPeekPrefetched 1 = some (.slot 0, 1) ∧
      ¬ PeekHolds pairWeight (Racing.view ⟨swapped.store, some [9]⟩) (.slot 0, 1) 1 := by
  refine ⟨.write [9] (t := ⟨0, 3, none⟩) swapped_interleaved rfl rfl, by decide, fun h => ?_⟩
  have hbytes := h.bytes
  revert hbytes
  decide

end Uaii.Storage
