/-
  Uaii.Storage.ExpertCounters — what `expert_used_` and `expert_lru_` say over any use of
  the expert cache (`libs/uaii-storage/src/streaming.cpp`).

  A run is any sequence of `expert_put`, `expert_get` and `expert_mark_hot`, the last as
  `stage` makes it, of an expert that is cached. A `put` whose buffer cannot be allocated
  throws after it has made room. The blocks and the bytes that are put are in memory
  together, so their lengths add up to less than 2^64.

  Proved: `expert_used_` is the sum of the blocks' sizes and `expert_lru_` lists their
  ids, each once (`expert_counters`); `expert_evict_to_fit` ends in an exit of its loop,
  with room for the new block or with hot blocks only. What `stage`, `prefetch` and its
  task do to the cache is such a sequence (`call_uses`).
-/

import Uaii.Storage.ExpertBudget

namespace Uaii.Storage

open Uaii.Ir

namespace ExpertCache

inductive Op where
  | put (id : TensorId) (data : Bytes)
  /-- `expert_put` throws `std::bad_alloc` at its buffer. -/
  | putThrows (n : Nat)
  | get (id : TensorId) (n : Nat)
  | markHot (id : TensorId)

def apply (c : ExpertCache) : Op → ExpertCache
  | .put id data => c.put id data
  | .putThrows n => if n = 0 then c else c.makeRoom n
  | .get id n => if (c.get id n).isSome then c.touch id else c
  | .markHot id => if (c.find id).isSome then c.markHot id else c

/-- What the caller gives: an id of a tensor, and its bytes, in memory beside the blocks. -/
def Allowed (size : TensorId → Nat) (c : ExpertCache) : Op → Prop
  | .put id data => id ≠ 0 ∧ data.length = size id ∧ c.held + data.length < 2 ^ 64
  | .putThrows n => c.held + n < 2 ^ 64
  | .get id _ => id ≠ 0
  | .markHot id => id ≠ 0

/-- Reached from an empty cache. -/
inductive Served (size : TensorId → Nat) (budget : Nat) : ExpertCache → Prop
  | init : Served size budget (init budget)
  | op {c : ExpertCache} (o : Op) : Served size budget c → c.Allowed size o → Served size budget (c.apply o)

/-- The byte counter and the LRU agree with the blocks. -/
structure Counted (c : ExpertCache) : Prop where
  used : c.used = (c.store.map (·.bytes.length)).sum
  lru : c.lru.Perm (c.store.map (·.id))
  lru_nodup : c.lru.Nodup

/-- The exits of the loop: nothing is left, the block fits, or there is no victim. -/
def evictExit (n : Nat) (c : ExpertCache) : Bool :=
  c.lru.isEmpty || wrap64 (c.used + n) ≤ c.budget || (c.lru.reverse.find? (!c.isHot ·)).getD 0 == 0

/-- What `expert_evict_to_fit` leaves. -/
structure Evicted (n : Nat) (c : ExpertCache) : Prop where
  exit : c.evictExit n = true
  room : c.used + n ≤ c.budget ∨ ∀ b ∈ c.store, c.isHot b.id = true

variable {size : TensorId → Nat} {budget n : Nat} {c : ExpertCache} {id : TensorId}

theorem Tracked.counted (h : c.Tracked) : c.Counted where
  used := h.used
  lru := (List.perm_ext_iff_of_nodup h.lru_nodup h.ids).mpr h.lru
  lru_nodup := h.lru_nodup

theorem Tracked.withBudget (h : c.Tracked) (n : Nat) : (c.withBudget n).Tracked :=
  ⟨h.ids, h.used, h.lru, h.lru_nodup, h.hot, h.hot_nodup, h.hot_few, h.id_ne_zero⟩

theorem withBudget_ne_zero (c : ExpertCache) (n : Nat) : (c.withBudget n).budget ≠ 0 := by
  unfold ExpertCache.withBudget
  dsimp only
  split
  · omega
  · assumption

/-! ## The loop ends -/

theorem drop_lru (c : ExpertCache) (victim : TensorId) : (c.drop victim).lru = c.lru.filter (· != victim) := by
  unfold drop
  dsimp only
  split
  · rfl
  · rfl

theorem drop_shortens {victim : TensorId} (hv : victim ∈ c.lru) : (c.drop victim).lru.length < c.lru.length := by
  rw [drop_lru]
  exact List.length_filter_lt_length_iff_exists.mpr ⟨victim, hv, by simp⟩

theorem evictLoop_exit (n : Nat) : ∀ {fuel : Nat} {c : ExpertCache}, c.lru.length ≤ fuel →
    (evictLoop n fuel c).evictExit n = true := by
  intro fuel
  induction fuel with
  | zero =>
    intro c hlen
    have hlru : c.lru = [] := List.length_eq_zero_iff.mp (by omega)
    simp [evictLoop, evictExit, hlru]
  | succ fuel ih =>
    intro c hlen
    unfold evictLoop
    split
    · rename_i hfits
      simp [evictExit, hfits]
    · split
      · rename_i hnone
        simp only [evictExit, hnone]
        simp
      · rename_i victim hvictim
        split
        · rename_i hzero
          simp only [evictExit, hvictim, hzero]
          simp
        · have hv : victim ∈ c.lru := List.mem_reverse.mp (List.mem_of_find?_eq_some hvictim)
          have hshort := drop_shortens hv
          exact ih (by omega)

/-! ## Runs -/

theorem makeRoom_tracked (h : c.Tracked) (hsum : c.held + n < 2 ^ 64) : Room n (c.withBudget n) (c.makeRoom n) :=
  evictToFit_room (h.withBudget n) (c.withBudget_ne_zero n) hsum

theorem makeRoom_evicted (h : c.Tracked) (hsum : c.held + n < 2 ^ 64) : (c.makeRoom n).Evicted n := by
  have hroom := makeRoom_tracked h hsum
  refine ⟨?_, ?_⟩
  · rw [makeRoom, evictToFit, if_neg (c.withBudget_ne_zero n)]
    exact evictLoop_exit n (Nat.le_refl _)
  · rw [hroom.tracked.used]
    exact hroom.room

theorem find_mem (h : (c.find id).isSome = true) : id ∈ c.store.map (·.id) := by
  obtain ⟨b, hb⟩ := Option.isSome_iff_exists.mp h
  obtain ⟨hmem, rfl⟩ := find_some hb
  exact List.mem_map_of_mem hmem

theorem get_mem (h : (c.get id n).isSome = true) : id ∈ c.store.map (·.id) := by
  apply find_mem
  unfold ExpertCache.get at h
  split at h
  · rename_i b hb
    rw [hb]
    rfl
  · cases h

theorem put_tracked (h : c.Tracked) {data : Bytes} (hid : id ≠ 0) (hsum : c.held + data.length < 2 ^ 64) :
    (c.put id data).Tracked := by
  by_cases hdata : data = []
  · rw [put, if_pos hdata]
    exact h
  · have hroom := makeRoom_tracked h hsum
    have hle : (c.makeRoom data.length).held ≤ c.held := hroom.held_le
    have hplaced : ((c.makeRoom data.length).placed id data).Tracked := placed_tracked hroom.tracked hid (by omega)
    rw [put_eq hdata]
    exact hplaced.markHot (by simp [placed])

/-- One use of the cache keeps the counters. -/
theorem apply_tracked (h : c.Tracked) {o : Op} (ho : c.Allowed size o) : (c.apply o).Tracked := by
  cases o with
  | put id data =>
    obtain ⟨hid, -, hsum⟩ := ho
    exact put_tracked h hid hsum
  | putThrows n =>
    simp only [apply]
    split
    · exact h
    · exact (makeRoom_tracked h ho).tracked
  | get id n =>
    simp only [apply]
    split
    · rename_i hget
      exact h.touch (get_mem hget)
    · exact h
  | markHot id =>
    simp only [apply]
    split
    · rename_i hfind
      exact h.markHot (find_mem hfind)
    · exact h

theorem Served.tracked (h : Served size budget c) : c.Tracked := by
  induction h with
  | init => exact init_tracked budget
  | op o _ ho ih => exact apply_tracked ih ho

/-- Over any run the counters agree with the blocks, and eviction ends with room or with
    hot blocks only. -/
theorem expert_counters (h : Served size budget c) :
    c.Counted ∧ ∀ n, c.held + n < 2 ^ 64 → (c.makeRoom n).Evicted n :=
  ⟨h.tracked.counted, fun _ hsum => makeRoom_evicted h.tracked hsum⟩

/-- Expert 2 is put, and expert 1 twice, in a budget of four bytes; then expert 1 is read. -/
theorem replaced_expert_counted :
    let c := ((((init 4).apply (.put 2 [5, 6])).apply (.put 1 [7, 8])).apply (.put 1 [7, 9])).apply (.get 1 2)
    c.Counted ∧ ∀ n, c.held + n < 2 ^ 64 → (c.makeRoom n).Evicted n := by
  have h₁ : Served (fun _ => 2) 4 ((init 4).apply (.put 2 [5, 6])) := .op _ .init ⟨by decide, rfl, by decide⟩
  have h₂ := Served.op (.put 1 [7, 8]) h₁ ⟨by decide, rfl, by decide⟩
  have h₃ := Served.op (.put 1 [7, 9]) h₂ ⟨by decide, rfl, by decide⟩
  exact expert_counters (.op (.get 1 2) h₃ (by decide : (1 : Nat) ≠ 0))

end ExpertCache

/-! ## What the store does to its cache -/

namespace Store

open ExpertCache (Op)

variable {env : Loader} {s : Store} {id : TensorId} {slot : Fin 2}

/-- `c'` is `c` after some uses. -/
def Uses (c c' : ExpertCache) : Prop := ∃ ops : List Op, c' = ops.foldl ExpertCache.apply c

theorem Uses.refl (c : ExpertCache) : Uses c c := ⟨[], rfl⟩

theorem Uses.one (c : ExpertCache) (o : Op) : Uses c (c.apply o) := ⟨[o], rfl⟩

theorem Uses.trans {c c' c'' : ExpertCache} (h : Uses c c') (h' : Uses c' c'') : Uses c c'' := by
  obtain ⟨ops, rfl⟩ := h
  obtain ⟨ops', rfl⟩ := h'
  exact ⟨ops ++ ops', (List.foldl_append ..).symm⟩

theorem stageInto_uses : Uses s.experts (s.stageInto env slot id).2.experts := by
  unfold stageInto
  cases hp : s.placement id with
  | none => exact Uses.refl _
  | some p =>
    dsimp only
    split
    · exact Uses.refl _
    · cases hc : s.cached p with
      | some data =>
        obtain ⟨-, hid⟩ := placement_some hp
        have hget : (s.experts.get id p.bytes).isSome = true := by
          unfold cached at hc
          split at hc
          · rw [← hid, hc]
            rfl
          · cases hc
        refine ⟨[.get id p.bytes], ?_⟩
        simp only [List.foldl_cons, List.foldl_nil, ExpertCache.apply, if_pos hget]
        rfl
      | none =>
        cases hans : (s.loadAnswer env slot p).1 with
        | error e => exact Uses.refl _
        | ok u =>
          dsimp only
          split
          · exact Uses.one _ (.put id _)
          · exact Uses.refl _

theorem complete_uses : Uses s.experts (s.complete env).experts := by
  unfold complete
  split
  · exact stageInto_uses
  · exact Uses.refl _

theorem settle_uses : Uses s.experts (s.settle env).2.experts := by
  unfold settle
  split
  · exact complete_uses
  · exact Uses.refl _

theorem bringIn_uses : Uses s.experts (s.bringIn env id).2.experts := by
  have hsettle : Uses s.experts (s.settle env).2.experts := settle_uses
  unfold bringIn
  dsimp only
  split
  · split
    · exact hsettle
    · exact (flip_experts _).symm ▸ hsettle
  · split
    · exact hsettle
    · split
      · exact (flip_experts _).symm ▸ hsettle
      · exact hsettle.trans stageInto_uses

theorem stage_uses : Uses s.experts (s.stage env id).2.experts := by
  have hin : Uses s.experts (s.bringIn env id).2.experts := bringIn_uses
  unfold stage
  cases hp : s.placement id with
  | none => exact Uses.refl _
  | some p =>
    dsimp only
    split
    · exact hin
    · split
      · rename_i b hb
        split
        · refine hin.trans ⟨[.markHot id], ?_⟩
          have hfind : ((s.bringIn env id).2.experts.find id).isSome = true := by
            split at hb
            · rw [hb]
              rfl
            · cases hb
          simp only [List.foldl_cons, List.foldl_nil, ExpertCache.apply, if_pos hfind]
        · exact hin
      · exact hin

/-- A call of the store uses its cache by `expert_put`, `expert_get` and `expert_mark_hot`. -/
theorem call_uses (env : Loader) (s : Store) (c : Call) : Uses s.experts (s.call env c).experts := by
  cases c with
  | stage id => exact stage_uses
  | prefetch id =>
    show Uses s.experts (s.prefetch id).experts
    unfold prefetch
    split
    · exact Uses.refl _
    · exact Uses.refl _
  | complete => exact complete_uses

end Store

end Uaii.Storage
