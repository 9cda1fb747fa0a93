/-
  Uaii.Storage.ExpertCache — the cache of expert weights in `StreamingWeightStore`
  (`libs/uaii-storage/src/streaming.cpp`): `expert_store_`, an LRU and a list of hot
  experts that eviction passes over.

  Every block is an allocation of its own, and a block's address is never used again.

  Proved: eviction only removes blocks, and never a hot one (`evictToFit_hot`); a block
  that eviction leaves is still there, at its address, after `put` (`put_keeps`).
-/

import Mathlib.Data.List.Nodup
import Uaii.Ir.Graph
import Uaii.Lib.Lists

namespace Uaii.Storage

open Uaii.Ir

abbrev Bytes := List UInt8

/-- A block of `expert_store_`. -/
structure Block where
  id : TensorId
  addr : Nat
  bytes : Bytes
  deriving DecidableEq, Repr

structure ExpertCache where
  budget : Nat
  used : Nat
  /-- Most recent first. -/
  lru : List TensorId
  store : List Block
  hot : List TensorId
  nextAddr : Nat
  deriving DecidableEq, Repr

def kMaxHot : Nat := 32

namespace ExpertCache

def init (budget : Nat) : ExpertCache := ⟨budget, 0, [], [], [], 0⟩

def find (c : ExpertCache) (id : TensorId) : Option Block := c.store.find? fun b => b.id == id

/-- The block at an address. -/
def at? (c : ExpertCache) (addr : Nat) : Option Block := c.store.find? fun b => b.addr == addr

def touch (c : ExpertCache) (id : TensorId) : ExpertCache := { c with lru := id :: c.lru.filter (· != id) }

def isHot (c : ExpertCache) (id : TensorId) : Bool := c.hot.contains id

def markHot (c : ExpertCache) (id : TensorId) : ExpertCache :=
  let hot := c.hot.filter (· != id) ++ [id]
  { c with hot := hot.drop (hot.length - kMaxHot) }

/-- The victim's block goes, and its place in the LRU. -/
def drop (c : ExpertCache) (victim : TensorId) : ExpertCache :=
  let c : ExpertCache := { c with lru := c.lru.filter (· != victim) }
  match c.find victim with
  | none => c
  | some b => { c with used := c.used - b.bytes.length, store := c.store.filter fun b => b.id != victim }

/-- The loop of `expert_evict_to_fit`; every round shortens the LRU. -/
def evictLoop (incoming : Nat) : Nat → ExpertCache → ExpertCache
  | 0, c => c
  | fuel + 1, c =>
    if wrap64 (c.used + incoming) ≤ c.budget then c
    else match c.lru.reverse.find? (!c.isHot ·) with
      | none => c
      | some victim => if victim = 0 then c else evictLoop incoming fuel (c.drop victim)

def evictToFit (c : ExpertCache) (incoming : Nat) : ExpertCache :=
  if c.budget = 0 then c else evictLoop incoming c.lru.length c

/-- A cache without a budget gets one at its first block. -/
def withBudget (c : ExpertCache) (n : Nat) : ExpertCache :=
  { c with budget := if c.budget = 0 then max (wrap64 (n * 4)) (64 * 1024 * 1024) else c.budget }

/-- `expert_put` up to the new block. -/
def makeRoom (c : ExpertCache) (n : Nat) : ExpertCache := (c.withBudget n).evictToFit n

def put (c : ExpertCache) (id : TensorId) (data : Bytes) : ExpertCache :=
  if data = [] then c
  else
    let c := c.makeRoom data.length
    let used := match c.find id with
      | some b => if b.bytes.length ≤ c.used then c.used - b.bytes.length else c.used
      | none => c.used
    let c : ExpertCache := { c with
      store := (c.store.filter fun b => b.id != id) ++ [⟨id, c.nextAddr, data⟩]
      nextAddr := c.nextAddr + 1
      used := wrap64 (used + data.length) }
    (c.touch id).markHot id

def get (c : ExpertCache) (id : TensorId) (n : Nat) : Option Bytes :=
  match c.find id with
  | some b => if b.bytes.length = n then some b.bytes else none
  | none => none

theorem markHot_self {c : ExpertCache} {id : TensorId} : (c.markHot id).isHot id = true := by
  have hlast : id ∈ (c.hot.filter (· != id) ++ [id]).drop ((c.hot.filter (· != id) ++ [id]).length - kMaxHot) := by
    rw [List.length_append, List.length_singleton, List.drop_append_of_le_length]
    · exact List.mem_append_right _ List.mem_cons_self
    · simp only [kMaxHot]
      omega
  simpa [isHot, markHot] using hlast

/-! ## Eviction -/

theorem drop_store (c : ExpertCache) (victim : TensorId) :
    (c.drop victim).store.Sublist c.store ∧ (c.drop victim).nextAddr = c.nextAddr ∧
      (c.drop victim).hot = c.hot ∧ ∀ b ∈ c.store, b.id ≠ victim → b ∈ (c.drop victim).store := by
  unfold drop
  dsimp only
  split
  · exact ⟨List.Sublist.refl _, rfl, rfl, fun b hb _ => hb⟩
  · exact ⟨List.filter_sublist, rfl, rfl, fun b hb hne => List.mem_filter.mpr ⟨hb, by simpa using hne⟩⟩

/-- What one eviction loop can do: it removes blocks of experts that are not hot. -/
theorem evictLoop_store (incoming : Nat) : ∀ (fuel : Nat) (c : ExpertCache),
    (evictLoop incoming fuel c).store.Sublist c.store ∧ (evictLoop incoming fuel c).nextAddr = c.nextAddr ∧
      (evictLoop incoming fuel c).hot = c.hot ∧
      ∀ b ∈ c.store, c.isHot b.id = true → b ∈ (evictLoop incoming fuel c).store := by
  intro fuel
  induction fuel with
  | zero => intro c; exact ⟨List.Sublist.refl _, rfl, rfl, fun b hb _ => hb⟩
  | succ fuel ih =>
    intro c
    have hstay : c.store.Sublist c.store ∧ c.nextAddr = c.nextAddr ∧ c.hot = c.hot ∧
        ∀ b ∈ c.store, c.isHot b.id = true → b ∈ c.store := ⟨List.Sublist.refl _, rfl, rfl, fun b hb _ => hb⟩
    unfold evictLoop
    split
    · exact hstay
    · split
      · exact hstay
      · rename_i victim hvictim
        split
        · exact hstay
        · obtain ⟨hsub, haddr, hhot, hkeep⟩ := drop_store c victim
          obtain ⟨hsub', haddr', hhot', hkeep'⟩ := ih (c.drop victim)
          refine ⟨hsub'.trans hsub, haddr'.trans haddr, hhot'.trans hhot, fun b hb hbhot => ?_⟩
          have hcold : c.isHot victim = false := by simpa using List.find?_some hvictim
          have hne : b.id ≠ victim := by
            intro he
            rw [he, hcold] at hbhot
            cases hbhot
          apply hkeep' b (hkeep b hb hne)
          rw [isHot, hhot]
          exact hbhot

theorem evictToFit_store (c : ExpertCache) (incoming : Nat) :
    (c.evictToFit incoming).store.Sublist c.store ∧ (c.evictToFit incoming).nextAddr = c.nextAddr ∧
      (c.evictToFit incoming).hot = c.hot ∧ ∀ b ∈ c.store, c.isHot b.id = true → b ∈ (c.evictToFit incoming).store := by
  unfold evictToFit
  split
  · exact ⟨List.Sublist.refl _, rfl, rfl, fun b hb _ => hb⟩
  · exact evictLoop_store incoming c.lru.length c

theorem makeRoom_store (c : ExpertCache) (n : Nat) :
    (c.makeRoom n).store.Sublist c.store ∧ (c.makeRoom n).nextAddr = c.nextAddr ∧ (c.makeRoom n).hot = c.hot := by
  obtain ⟨hsub, haddr, hhot, -⟩ := evictToFit_store (c.withBudget n) n
  exact ⟨hsub, haddr, hhot⟩

/-- A hot expert's block stays. -/
theorem makeRoom_hot {c : ExpertCache} {n : Nat} {b : Block} (hb : b ∈ c.store) (hhot : c.isHot b.id = true) :
    b ∈ (c.makeRoom n).store :=
  (evictToFit_store (c.withBudget n) n).2.2.2 b hb hhot

/-! ## Well-formed caches -/

structure Wf (weight : TensorId → Bytes) (c : ExpertCache) : Prop where
  bytes : ∀ b ∈ c.store, b.bytes = weight b.id
  addr_lt : ∀ b ∈ c.store, b.addr < c.nextAddr
  addr_nodup : (c.store.map (·.addr)).Nodup

variable {weight : TensorId → Bytes} {c : ExpertCache} {id : TensorId}

theorem init_wf (weight : TensorId → Bytes) (budget : Nat) : (init budget).Wf weight := by
  refine ⟨?_, ?_, List.nodup_nil⟩ <;> intro b hb <;> cases hb

theorem Wf.touch (h : c.Wf weight) (id : TensorId) : (c.touch id).Wf weight := ⟨h.bytes, h.addr_lt, h.addr_nodup⟩

theorem Wf.markHot (h : c.Wf weight) (id : TensorId) : (c.markHot id).Wf weight := ⟨h.bytes, h.addr_lt, h.addr_nodup⟩

theorem Wf.of_sublist {c' : ExpertCache} (h : c.Wf weight) (hsub : c'.store.Sublist c.store)
    (haddr : c'.nextAddr = c.nextAddr) : c'.Wf weight where
  bytes b hb := h.bytes b (hsub.subset hb)
  addr_lt b hb := haddr ▸ h.addr_lt b (hsub.subset hb)
  addr_nodup := h.addr_nodup.sublist (hsub.map _)

theorem find_some {b : Block} (h : c.find id = some b) : b ∈ c.store ∧ b.id = id :=
  ⟨List.mem_of_find?_eq_some h, by simpa using List.find?_some h⟩

theorem Wf.find_bytes (h : c.Wf weight) {b : Block} (hb : c.find id = some b) : b.bytes = weight id := by
  obtain ⟨hmem, rfl⟩ := find_some hb
  exact h.bytes b hmem

/-- The block at a block's address is that block. -/
theorem Wf.at?_eq (h : c.Wf weight) {b : Block} (hb : b ∈ c.store) : c.at? b.addr = some b :=
  Lists.find?_of_nodup h.addr_nodup hb

theorem at?_some {addr : Nat} {b : Block} (h : c.at? addr = some b) : b ∈ c.store ∧ b.addr = addr :=
  ⟨List.mem_of_find?_eq_some h, by simpa using List.find?_some h⟩

theorem Wf.put (h : c.Wf weight) (id : TensorId) : (c.put id (weight id)).Wf weight := by
  unfold ExpertCache.put
  split
  · exact h
  obtain ⟨hsub, haddr, -⟩ := c.makeRoom_store (weight id).length
  have hroom := h.of_sublist hsub haddr
  apply Wf.markHot
  apply Wf.touch
  have hold : ∀ b ∈ (c.makeRoom (weight id).length).store.filter (fun b => b.id != id),
      b ∈ (c.makeRoom (weight id).length).store := fun b hb => (List.mem_filter.mp hb).1
  refine ⟨?_, ?_, ?_⟩
  · intro b hb
    rcases List.mem_append.mp hb with hb | hb
    · exact hroom.bytes b (hold b hb)
    · obtain rfl := List.mem_singleton.mp hb
      rfl
  · intro b hb
    rcases List.mem_append.mp hb with hb | hb
    · exact Nat.lt_succ_of_lt (hroom.addr_lt b (hold b hb))
    · obtain rfl := List.mem_singleton.mp hb
      exact Nat.lt_succ_self _
  · rw [List.map_append, List.nodup_append]
    refine ⟨hroom.addr_nodup.sublist (List.filter_sublist.map _), List.nodup_singleton _, ?_⟩
    intro a ha a' ha'
    obtain ⟨b, hb, rfl⟩ := List.mem_map.mp ha
    obtain rfl : a' = (c.makeRoom (weight id).length).nextAddr := by simpa using ha'
    exact Nat.ne_of_lt (hroom.addr_lt b (hold b hb))

/-- A block that making room leaves is left by `put`, unless it is the tensor's own. -/
theorem put_keeps {data : Bytes} {b : Block} (hb : data ≠ [] → b ∈ (c.makeRoom data.length).store) (hc : b ∈ c.store)
    (hne : b.id ≠ id) : b ∈ (c.put id data).store := by
  unfold put
  split
  · exact hc
  · rename_i hdata
    exact List.mem_append_left _ (List.mem_filter.mpr ⟨hb hdata, by simpa using hne⟩)

/-- After `put` the tensor has a block. -/
theorem put_find {data : Bytes} (hdata : data ≠ []) : ((c.put id data).find id).isSome = true := by
  unfold put
  rw [if_neg hdata]
  refine List.find?_isSome.mpr ⟨⟨id, (c.makeRoom data.length).nextAddr, data⟩, ?_, by simp⟩
  exact List.mem_append_right _ List.mem_cons_self

end ExpertCache

end Uaii.Storage
