/-
  Uaii.Storage.StagedBytes — runs of `stage` and `prefetch`
  (`libs/uaii-storage/src/streaming.cpp`).

  `stage_into` writes over a slot before it knows whether the load succeeds, and leaves
  the slot's tag as it was when it fails. A later `stage` of the tensor the tag names
  then hands out what the failed load left.

  Proved: in a run in which no load fails over a tagged slot, whenever prefetches complete,
  every `stage` that succeeds hands out the weight's bytes (`staged_bytes`).
-/

import Uaii.Storage.Streaming

namespace Uaii.Storage

open Uaii.Ir
open Uaii.Planner (StoragePlan)

/-- What can happen to the store. -/
inductive Call where
  | stage (id : TensorId)
  | prefetch (id : TensorId)
  /-- The task under way completes. -/
  | complete
  deriving DecidableEq, Repr

namespace Store

variable {env : Loader} {weight : TensorId → Bytes} {plan : StoragePlan} {s : Store} {id : TensorId}

def call (env : Loader) (s : Store) : Call → Store
  | .stage id => (s.stage env id).2
  | .prefetch id => s.prefetch id
  | .complete => s.complete env

/-- The load the call starts does not fail over a slot that is tagged. -/
def CallSafe (env : Loader) (s : Store) : Call → Prop
  | .stage id => s.reloads env id → (s.settle env).2.LoadSafe env (s.settle env).2.active id
  | .prefetch id => s.canPrefetch id = true → s.LoadSafe env s.inactive id
  | .complete => True

/-- Reached by calls whose loads do not fail over a tagged slot. -/
inductive Reached (env : Loader) (plan : StoragePlan) : Store → Prop
  | configure : Reached env plan (configure plan)
  | call {s : Store} (c : Call) : Reached env plan s → s.CallSafe env c → Reached env plan (s.call env c)

theorem call_inv (h : s.Inv env weight) (c : Call) (hc : s.CallSafe env c) :
    (s.call env c).Inv env weight ∧ (s.call env c).placements = s.placements := by
  cases c with
  | stage id =>
    have hspec := stage_spec h (.inl rfl) (fun hr => Spares.nothing (hc hr))
    exact ⟨hspec.1, hspec.2.1⟩
  | prefetch id =>
    refine ⟨prefetch_inv h hc, ?_⟩
    show (s.prefetch id).placements = s.placements
    unfold prefetch
    split
    · rfl
    · rfl
  | complete =>
    have hspec := complete_inv h
    exact ⟨hspec.1, hspec.2.1⟩

theorem Reached.inv (hf : Faithful env weight (Store.configure plan).placements) (hr : Reached env plan s) :
    s.Inv env weight ∧ s.placements = (Store.configure plan).placements := by
  induction hr with
  | configure => exact ⟨configure_inv hf, rfl⟩
  | call c _ hc ih =>
    have hcall := call_inv ih.1 c hc
    exact ⟨hcall.1, hcall.2.trans ih.2⟩

theorem read_length {ptr : Ptr × Nat} {b : Bytes} (h : s.read ptr = some b) : b.length = ptr.2 := by
  obtain ⟨ptr, n⟩ := ptr
  cases ptr with
  | slot i =>
    rw [read] at h
    split at h
    · rename_i hn
      obtain rfl := Option.some.inj h
      rw [List.length_take, Nat.min_eq_left hn]
    · cases h
  | block a =>
    rw [read] at h
    split at h
    · split at h
      · rename_i hn
        obtain rfl := Option.some.inj h
        rw [List.length_take, Nat.min_eq_left hn]
      · cases h
    · cases h

/-- A `stage` that succeeds hands out `sizes_[id]` bytes, the tensor's. -/
theorem staged_bytes (hf : Faithful env weight (Store.configure plan).placements) (hr : Reached env plan s)
    (hc : s.CallSafe env (.stage id)) {ptr : Ptr × Nat} (hok : (s.stage env id).1 = .ok ptr) :
    ∃ p, (Store.configure plan).placement id = some p ∧ ptr.2 = p.bytes ∧
      (s.stage env id).2.read ptr = some (weight id) := by
  obtain ⟨hinv, hps⟩ := hr.inv hf
  obtain ⟨-, -, -, hstage⟩ := stage_spec hinv (.inl (rfl : ([] : List Ptr) = [])) (fun hre => Spares.nothing (hc hre))
  obtain ⟨-, hread⟩ := hstage ptr hok
  have hplaced : ∃ p, s.placement id = some p := by
    cases hp : s.placement id with
    | some p => exact ⟨p, rfl⟩
    | none =>
      unfold stage at hok
      rw [hp] at hok
      exact absurd hok (fail_ne_ok _ _ _)
  obtain ⟨p, hp⟩ := hplaced
  obtain ⟨hmem, hid⟩ := placement_some hp
  refine ⟨p, ?_, ?_, hread⟩
  · unfold placement at hp ⊢
    rwa [hps] at hp
  · -- the pointer's length is the weight's
    have hsize : (weight id).length = p.bytes := hid ▸ hf.weight_length p (hps ▸ hmem)
    rw [← hsize, read_length hread]

theorem second_weight_staged : ∃ p, (Store.configure (pairPlan 2)).placement 2 = some p ∧ (1 : Nat) = p.bytes ∧
    (((Store.configure (pairPlan 2)).call pairLoader (.prefetch 2)).stage pairLoader 2).2.read (.slot 1, 1) =
      some (pairWeight 2) := by
  have hpend : ((Store.configure (pairPlan 2)).call pairLoader (.prefetch 2)).prefetchFut.any (·.id == 2) = true := by decide
  have hsafe : ((Store.configure (pairPlan 2)).call pairLoader (.prefetch 2)).CallSafe pairLoader (.stage 2) := by
    intro h
    have hno := h.1
    rw [hpend] at hno
    cases hno
  have hok : (((Store.configure (pairPlan 2)).call pairLoader (.prefetch 2)).stage pairLoader 2).1 = .ok (.slot 1, 1) := by
    decide
  exact staged_bytes (pairLoader_faithful 2) (.call (.prefetch 2) .configure fun _ => .inl rfl) hsafe hok

/-- The second load fails after it has written. -/
def failingLoader : Loader := fun k id uri n buf =>
  if k = 1 then (fail .ioError "read failed", buf.map fun _ => 9) else pairLoader k id uri n buf

/-- One buffer: `stage(1)`, a `stage(2)` that fails, and `stage(1)` again. -/
theorem failed_load_handed_out : Faithful failingLoader pairWeight (Store.configure (pairPlan 1)).placements ∧
    let s := ((Store.configure (pairPlan 1)).call failingLoader (.stage 1)).call failingLoader (.stage 2)
    (s.stage failingLoader 1).1 = .ok (.slot 0, 1) ∧ (s.stage failingLoader 1).2.read (.slot 0, 1) ≠ some (pairWeight 1) := by
  have hf := pairLoader_faithful 1
  refine ⟨⟨hf.id_ne_zero, hf.weight_length, fun p hp k buf => ?_, fun p hp k buf hlen hok => ?_⟩, by decide, by decide⟩
  · unfold failingLoader
    split
    · exact List.length_map _
    · exact hf.load_length p hp k buf
  · unfold failingLoader at hok ⊢
    split at hok
    · cases hok
    · rename_i hk
      rw [if_neg hk]
      exact hf.load_bytes p hp k buf hlen hok

end Store

end Uaii.Storage
