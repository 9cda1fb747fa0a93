/-
  Uaii.Planner.MemoryPlan — `build_memory_reuse_plan`
  (`libs/uaii-planner/src/memory_plan.cpp`).

  Weights and graph inputs and outputs get a slot each. The other tensors are placed in
  order of their first use: in the first free slot that is large enough, or in a new
  one.

  Proved: every tensor has one slot, it is among the slot's tenants, and a slot has the
  size of its largest tenant (`PlanOk`, `buildMemoryReusePlan_ok`).
-/

import Mathlib.Data.List.Sort
import Uaii.Ir.Plan

namespace Uaii.Planner

open Uaii.Ir

structure TensorLifetime where
  tensorId : TensorId
  firstUse : Int
  lastUse : Int
  bytes : Nat
  isWeight : Bool
  isGraphIo : Bool
  deriving DecidableEq, Repr

structure BufferSlot where
  slotId : Nat
  bytes : Nat
  tenants : List TensorId
  deriving DecidableEq, Repr

structure FreeSlot where
  slotId : Nat
  bytes : Nat
  freeAfter : Int
  deriving DecidableEq, Repr

structure MemoryReusePlan where
  lifetimes : List TensorLifetime
  slots : List BufferSlot
  tensorToSlot : List (TensorId × Nat)
  naiveBytes : Nat
  peakBytes : Nat
  weightBytes : Nat
  deriving DecidableEq, Repr

variable {R : Type}

/-! ## Lifetimes -/

def initialLife (g : Graph R) (nOps : Nat) (t : Tensor) : TensorLifetime :=
  let isGraphIo : Bool := t.id ∈ g.inputs ∨ t.id ∈ g.outputs
  let dedicated := isGraphIo || t.isWeight
  ⟨t.id, if dedicated then 0 else -1, if dedicated then nOps else -1, estimateTensorBytes t, t.isWeight, isGraphIo⟩

def touchInput (oi : Nat) (life : TensorLifetime) : TensorLifetime :=
  { life with
    firstUse := if life.firstUse < 0 ∨ oi < life.firstUse then oi else life.firstUse
    lastUse := if life.lastUse < oi then oi else life.lastUse }

def touchOutput (oi : Nat) (life : TensorLifetime) : TensorLifetime :=
  { life with
    firstUse := if life.firstUse < 0 then oi else life.firstUse
    lastUse := if life.lastUse < oi then oi else life.lastUse }

/-- `lives[id]`, when it is there. -/
def updateLife (f : TensorLifetime → TensorLifetime) (lives : List TensorLifetime) (id : TensorId) : List TensorLifetime :=
  lives.map fun life => if life.tensorId = id then f life else life

def touchOp (lives : List TensorLifetime) (op : PlannedOp × Nat) : List TensorLifetime :=
  let lives := op.1.inputs.foldl (updateLife (touchInput op.2)) lives
  op.1.outputs.foldl (updateLife (touchOutput op.2)) lives

/-- `lives`, in the order the map is walked. -/
def lifetimes (h : HashOrder) (g : Graph R) (ops : List PlannedOp) : List TensorLifetime :=
  let ids := h.walk (g.tensors.map (·.id)).dedup
  ops.zipIdx.foldl touchOp (ids.filterMap fun id => (g.byId id).map (initialLife g ops.length))

/-! ## Slots -/

structure Slots where
  slots : List BufferSlot
  tensorToSlot : List (TensorId × Nat)
  freeList : List FreeSlot
  deriving DecidableEq, Repr

namespace Slots

def newSlot (s : Slots) (life : TensorLifetime) : Slots :=
  let id := s.slots.length
  { s with slots := s.slots ++ [⟨id, life.bytes, [life.tensorId]⟩], tensorToSlot := s.tensorToSlot ++ [(life.tensorId, id)] }

/-- `life` moves into a slot that is free. -/
def shareSlot (s : Slots) (life : TensorLifetime) (i sid : Nat) : Slots :=
  let slots := s.slots.modify sid fun slot =>
    { slot with tenants := slot.tenants ++ [life.tensorId], bytes := if slot.bytes < life.bytes then life.bytes else slot.bytes }
  let bytes := ((slots[sid]?).map (·.bytes)).getD 0
  { slots := slots
    tensorToSlot := s.tensorToSlot ++ [(life.tensorId, sid)]
    freeList := s.freeList.eraseIdx i ++ [⟨sid, bytes, life.lastUse⟩] }

def dedicate (s : Slots) (life : TensorLifetime) : Slots := if life.isWeight || life.isGraphIo then s.newSlot life else s

def place (s : Slots) (life : TensorLifetime) : Slots :=
  match s.freeList.findIdx? fun f => f.freeAfter < life.firstUse ∧ life.bytes ≤ f.bytes with
  | some i => s.shareSlot life i ((s.freeList[i]?.map (·.slotId)).getD 0)
  | none =>
    let s' := s.newSlot life
    { s' with freeList := s'.freeList ++ [⟨s.slots.length, life.bytes, life.lastUse⟩] }

end Slots

/-- `std::sort` of the activations; ids are distinct, so the order is total. -/
def useBefore (a b : TensorLifetime) : Prop :=
  if a.firstUse ≠ b.firstUse then a.firstUse < b.firstUse else a.tensorId ≤ b.tensorId

instance : DecidableRel useBefore := fun a b =>
  inferInstanceAs (Decidable (if a.firstUse ≠ b.firstUse then a.firstUse < b.firstUse else a.tensorId ≤ b.tensorId))

def activations (lives : List TensorLifetime) : List TensorLifetime :=
  (lives.filter fun life => !life.isWeight && !life.isGraphIo).insertionSort useBefore

def assignSlots (lives : List TensorLifetime) : Slots :=
  (activations lives).foldl Slots.place (lives.foldl Slots.dedicate ⟨[], [], []⟩)

def sum64 (xs : List Nat) : Nat := xs.foldl (fun n x => wrap64 (n + x)) 0

def buildMemoryReusePlan (h : HashOrder) (g : Graph R) (ops : List PlannedOp) : MemoryReusePlan :=
  let lives := lifetimes h g ops
  let s := assignSlots lives
  { lifetimes := lives
    slots := s.slots
    tensorToSlot := s.tensorToSlot
    naiveBytes := sum64 (g.tensors.map estimateTensorBytes)
    peakBytes := sum64 (s.slots.map (·.bytes))
    weightBytes := sum64 ((g.tensors.filter (·.isWeight)).map estimateTensorBytes) }

def MemoryReusePlan.slotOf (p : MemoryReusePlan) (id : TensorId) : Option Nat :=
  (p.tensorToSlot.find? (·.1 == id)).map (·.2)

/-! ## Every tensor has a slot that is large enough -/

/-- Slots are numbered by position, as large as their largest tenant, and a tensor is a
    tenant of the slot it is mapped to. -/
structure SlotsOk (bytesOf : TensorId → Nat) (s : Slots) : Prop where
  ids : ∀ (i : Nat) (slot : BufferSlot), s.slots[i]? = some slot → slot.slotId = i
  largest : ∀ (i : Nat) (slot : BufferSlot), s.slots[i]? = some slot → ∃ u ∈ slot.tenants, bytesOf u = slot.bytes
  fits : ∀ (i : Nat) (slot : BufferSlot), s.slots[i]? = some slot → ∀ u ∈ slot.tenants, bytesOf u ≤ slot.bytes
  mapped : ∀ e ∈ s.tensorToSlot, ∃ slot, s.slots[e.2]? = some slot ∧ e.1 ∈ slot.tenants
  free : ∀ f ∈ s.freeList, ∃ slot, s.slots[f.slotId]? = some slot ∧ slot.bytes = f.bytes

section Slots

variable {bytesOf : TensorId → Nat} {s : Slots} {life : TensorLifetime}

theorem getElem?_snoc {α : Type} {l : List α} {a b : α} {i : Nat} (h : (l ++ [a])[i]? = some b) :
    l[i]? = some b ∨ i = l.length ∧ b = a := by
  rcases Nat.lt_trichotomy i l.length with hi | rfl | hi
  · rw [List.getElem?_append_left hi] at h
    exact Or.inl h
  · rw [List.getElem?_append_right (Nat.le_refl _)] at h
    simp at h
    exact Or.inr ⟨rfl, h.symm⟩
  · rw [List.getElem?_eq_none (by simp; omega)] at h
    cases h

theorem newSlot_ok (h : SlotsOk bytesOf s) (hb : life.bytes = bytesOf life.tensorId) : SlotsOk bytesOf (s.newSlot life) := by
  have hkeep : ∀ (i : Nat) (slot : BufferSlot), s.slots[i]? = some slot → (s.newSlot life).slots[i]? = some slot := by
    intro i slot hi
    obtain ⟨hlt, -⟩ := List.getElem?_eq_some_iff.mp hi
    exact (List.getElem?_append_left hlt).trans hi
  refine ⟨?_, ?_, ?_, ?_, ?_⟩
  · intro i slot hi
    rcases getElem?_snoc hi with hold | ⟨rfl, rfl⟩
    · exact h.ids i slot hold
    · rfl
  · intro i slot hi
    rcases getElem?_snoc hi with hold | ⟨rfl, rfl⟩
    · exact h.largest i slot hold
    · exact ⟨life.tensorId, List.mem_singleton.mpr rfl, hb.symm⟩
  · intro i slot hi
    rcases getElem?_snoc hi with hold | ⟨rfl, rfl⟩
    · exact h.fits i slot hold
    · intro u hu
      rw [List.mem_singleton.mp hu, ← hb]
  · intro e he
    rcases List.mem_append.mp he with he | he
    · obtain ⟨slot, hslot, hmem⟩ := h.mapped e he
      exact ⟨slot, hkeep _ _ hslot, hmem⟩
    · rw [List.mem_singleton.mp he]
      exact ⟨_, List.getElem?_concat_length, List.mem_singleton.mpr rfl⟩
  · intro f hf
    obtain ⟨slot, hslot, hbytes⟩ := h.free f hf
    exact ⟨slot, hkeep _ _ hslot, hbytes⟩

/-- Sharing changes the tenants of one slot and no size. -/
theorem shareSlot_ok (h : SlotsOk bytesOf s) (hb : life.bytes = bytesOf life.tensorId) {i : Nat} {f : FreeSlot}
    (hf : s.freeList[i]? = some f) (hle : life.bytes ≤ f.bytes) : SlotsOk bytesOf (s.shareSlot life i f.slotId) := by
  obtain ⟨shared, hshared, hsize⟩ := h.free f (List.mem_of_getElem? hf)
  have hsame : (if shared.bytes < life.bytes then life.bytes else shared.bytes) = shared.bytes := if_neg (by omega)
  -- a slot of the result is a slot of `s`, the shared one with one tenant more
  have hget : ∀ j slot, (s.shareSlot life i f.slotId).slots[j]? = some slot →
      ∃ old, s.slots[j]? = some old ∧ slot.slotId = old.slotId ∧ slot.bytes = old.bytes ∧
        slot.tenants = if j = f.slotId then old.tenants ++ [life.tensorId] else old.tenants := by
    intro j slot hj
    simp only [Slots.shareSlot, List.getElem?_modify] at hj
    cases hold : s.slots[j]? with
    | none => simp [hold] at hj
    | some old =>
      rw [hold] at hj
      by_cases hjs : f.slotId = j
      · subst hjs
        obtain rfl : shared = old := by simpa [hshared] using hold
        simp only [if_true, Option.map_eq_map, Option.map_some, Option.some.injEq, hsame] at hj
        subst hj
        exact ⟨shared, rfl, rfl, rfl, by simp⟩
      · simp only [if_neg hjs, Option.map_eq_map, Option.map_some, Option.some.injEq] at hj
        subst hj
        exact ⟨old, rfl, rfl, rfl, by rw [if_neg (Ne.symm hjs)]⟩
  have hput : ∀ j old, s.slots[j]? = some old →
      ∃ slot, (s.shareSlot life i f.slotId).slots[j]? = some slot ∧ slot.bytes = old.bytes ∧
        (∀ u ∈ old.tenants, u ∈ slot.tenants) ∧ (j = f.slotId → life.tensorId ∈ slot.tenants) := by
    intro j old hj
    by_cases hjs : f.slotId = j
    · subst hjs
      obtain rfl : shared = old := by simpa [hshared] using hj
      refine ⟨⟨shared.slotId, shared.bytes, shared.tenants ++ [life.tensorId]⟩, ?_, rfl, ?_, ?_⟩
      · simp only [Slots.shareSlot, List.getElem?_modify, hshared, if_true, Option.map_eq_map, Option.map_some, hsame]
      · exact fun u hu => List.mem_append_left _ hu
      · exact fun _ => List.mem_append_right _ (List.mem_singleton.mpr rfl)
    · refine ⟨old, ?_, rfl, fun u hu => hu, fun he => absurd he.symm hjs⟩
      simp only [Slots.shareSlot, List.getElem?_modify, hj, if_neg hjs, Option.map_eq_map, Option.map_some]
  refine ⟨?_, ?_, ?_, ?_, ?_⟩
  · intro j slot hj
    obtain ⟨old, hold, hid, -, -⟩ := hget j slot hj
    rw [hid]
    exact h.ids j old hold
  · intro j slot hj
    obtain ⟨old, hold, -, hbytes, hten⟩ := hget j slot hj
    obtain ⟨u, hu, hub⟩ := h.largest j old hold
    refine ⟨u, ?_, hub.trans hbytes.symm⟩
    rw [hten]
    split
    · exact List.mem_append_left _ hu
    · exact hu
  · intro j slot hj u hu
    obtain ⟨old, hold, -, hbytes, hten⟩ := hget j slot hj
    rw [hten] at hu
    rw [hbytes]
    split at hu
    · next hjs =>
      rcases List.mem_append.mp hu with hu | hu
      · exact h.fits j old hold u hu
      · rw [List.mem_singleton.mp hu, ← hb]
        obtain rfl : shared = old := by rw [hjs] at hold; simpa [hshared] using hold
        omega
    · exact h.fits j old hold u hu
  · intro e he
    rcases List.mem_append.mp he with he | he
    · obtain ⟨old, hold, hmem⟩ := h.mapped e he
      obtain ⟨slot, hslot, -, hten, -⟩ := hput _ _ hold
      exact ⟨slot, hslot, hten _ hmem⟩
    · rw [List.mem_singleton.mp he]
      obtain ⟨slot, hslot, -, -, hnew⟩ := hput _ _ hshared
      exact ⟨slot, hslot, hnew rfl⟩
  · intro g hg
    rcases List.mem_append.mp hg with hg | hg
    · obtain ⟨old, hold, hbytes⟩ := h.free g (List.mem_of_mem_eraseIdx hg)
      obtain ⟨slot, hslot, hsb, -⟩ := hput _ _ hold
      exact ⟨slot, hslot, hsb.trans hbytes⟩
    · rw [List.mem_singleton.mp hg]
      obtain ⟨slot, hslot, -⟩ := hput _ _ hshared
      refine ⟨slot, hslot, ?_⟩
      show slot.bytes = (((s.shareSlot life i f.slotId).slots[f.slotId]?).map (·.bytes)).getD 0
      rw [hslot]
      rfl

theorem dedicate_ok (h : SlotsOk bytesOf s) (hb : life.bytes = bytesOf life.tensorId) : SlotsOk bytesOf (s.dedicate life) := by
  unfold Slots.dedicate
  split
  · exact newSlot_ok h hb
  · exact h

theorem place_ok (h : SlotsOk bytesOf s) (hb : life.bytes = bytesOf life.tensorId) : SlotsOk bytesOf (s.place life) := by
  unfold Slots.place
  cases hfind : s.freeList.findIdx? fun f => f.freeAfter < life.firstUse ∧ life.bytes ≤ f.bytes with
  | some i =>
    obtain ⟨hi, hfit, -⟩ := List.findIdx?_eq_some_iff_getElem.mp hfind
    have hget : s.freeList[i]? = some s.freeList[i] := List.getElem?_eq_getElem hi
    simp only [hget, Option.map_some, Option.getD_some]
    exact shareSlot_ok h hb hget (by simpa using (of_decide_eq_true hfit).2)
  | none =>
    have hnew := newSlot_ok h hb
    refine ⟨hnew.ids, hnew.largest, hnew.fits, hnew.mapped, ?_⟩
    intro f hf
    rcases List.mem_append.mp hf with hf | hf
    · exact hnew.free f hf
    · rw [List.mem_singleton.mp hf]
      exact ⟨_, List.getElem?_concat_length, rfl⟩

/-- A tensor that is placed is mapped, and stays mapped. -/
theorem place_maps (s : Slots) (life : TensorLifetime) :
    ∃ sid, (s.place life).tensorToSlot = s.tensorToSlot ++ [(life.tensorId, sid)] := by
  unfold Slots.place
  split
  · exact ⟨_, rfl⟩
  · exact ⟨_, rfl⟩

theorem dedicate_maps (s : Slots) (life : TensorLifetime) :
    (s.dedicate life).tensorToSlot = s.tensorToSlot ++
      if life.isWeight || life.isGraphIo then [(life.tensorId, s.slots.length)] else [] := by
  unfold Slots.dedicate
  split
  · rfl
  · simp

theorem fold_ok {f : Slots → TensorLifetime → Slots}
    (hf : ∀ s life, SlotsOk bytesOf s → life.bytes = bytesOf life.tensorId → SlotsOk bytesOf (f s life)) :
    ∀ (lives : List TensorLifetime) (s : Slots), SlotsOk bytesOf s →
      (∀ life ∈ lives, life.bytes = bytesOf life.tensorId) → SlotsOk bytesOf (lives.foldl f s) := by
  intro lives
  induction lives with
  | nil => intro s h _; exact h
  | cons life lives ih =>
    intro s h hb
    exact ih _ (hf s life h (hb life List.mem_cons_self)) fun l hl => hb l (List.mem_cons_of_mem _ hl)

/-- What a fold of placements maps: what was mapped, and what it places. -/
theorem fold_maps {f : Slots → TensorLifetime → Slots} {p : TensorLifetime → Prop}
    (hkeep : ∀ s life e, e ∈ s.tensorToSlot → e ∈ (f s life).tensorToSlot)
    (hput : ∀ s life, p life → ∃ sid, (life.tensorId, sid) ∈ (f s life).tensorToSlot) :
    ∀ (lives : List TensorLifetime) (s : Slots),
      (∀ e ∈ s.tensorToSlot, e ∈ (lives.foldl f s).tensorToSlot) ∧
      ∀ life ∈ lives, p life → ∃ sid, (life.tensorId, sid) ∈ (lives.foldl f s).tensorToSlot := by
  intro lives
  induction lives with
  | nil => intro s; exact ⟨fun e he => he, by simp⟩
  | cons life lives ih =>
    intro s
    obtain ⟨hold, hnew⟩ := ih (f s life)
    refine ⟨fun e he => hold e (hkeep s life e he), fun l hl hp => ?_⟩
    rcases List.mem_cons.mp hl with rfl | hl
    · obtain ⟨sid, hsid⟩ := hput s l hp
      exact ⟨sid, hold _ hsid⟩
    · exact hnew l hl hp

theorem assignSlots_ok {lives : List TensorLifetime} (hb : ∀ life ∈ lives, life.bytes = bytesOf life.tensorId) :
    SlotsOk bytesOf (assignSlots lives) := by
  have hempty : SlotsOk bytesOf ⟨[], [], []⟩ := ⟨by simp, by simp, by simp, by simp, by simp⟩
  refine fold_ok (fun s life => place_ok) _ _ (fold_ok (fun s life => dedicate_ok) _ _ hempty hb) ?_
  intro life hlife
  exact hb life (List.mem_filter.mp ((List.mem_insertionSort _).mp hlife)).1

theorem assignSlots_maps (lives : List TensorLifetime) {life : TensorLifetime} (hlife : life ∈ lives) :
    ∃ sid, (life.tensorId, sid) ∈ (assignSlots lives).tensorToSlot := by
  have hkeepPlace : ∀ s life (e : TensorId × Nat), e ∈ Slots.tensorToSlot s → e ∈ (s.place life).tensorToSlot := by
    intro s life e he
    obtain ⟨sid, h⟩ := place_maps s life
    rw [h]
    exact List.mem_append_left _ he
  have hputPlace : ∀ (s : Slots) (life : TensorLifetime), True → ∃ sid, (life.tensorId, sid) ∈ (s.place life).tensorToSlot := by
    intro s life _
    obtain ⟨sid, h⟩ := place_maps s life
    exact ⟨sid, by rw [h]; simp⟩
  obtain ⟨hold, hnew⟩ := fold_maps hkeepPlace hputPlace (activations lives) (lives.foldl Slots.dedicate ⟨[], [], []⟩)
  by_cases hact : (life.isWeight || life.isGraphIo) = true
  · have hkeep : ∀ s life (e : TensorId × Nat), e ∈ Slots.tensorToSlot s → e ∈ (s.dedicate life).tensorToSlot := by
      intro s life e he
      rw [dedicate_maps]
      exact List.mem_append_left _ he
    have hput : ∀ (s : Slots) (life : TensorLifetime), (life.isWeight || life.isGraphIo) = true →
        ∃ sid, (life.tensorId, sid) ∈ (s.dedicate life).tensorToSlot := by
      intro s life h
      refine ⟨s.slots.length, ?_⟩
      rw [dedicate_maps, if_pos h]
      simp
    obtain ⟨sid, hsid⟩ := (fold_maps hkeep hput lives ⟨[], [], []⟩).2 life hlife hact
    exact ⟨sid, hold _ hsid⟩
  · refine hnew life ((List.mem_insertionSort _).mpr (List.mem_filter.mpr ⟨hlife, ?_⟩)) trivial
    simpa using hact

end Slots

/-! ## The plan of a graph -/

/-- `lives[id].bytes`. -/
def lifeBytes (g : Graph R) (id : TensorId) : Nat := ((g.byId id).map estimateTensorBytes).getD 0

/-- What the lifetime analysis does not change. -/
def TensorLifetime.key (life : TensorLifetime) : TensorId × Nat × Bool × Bool :=
  (life.tensorId, life.bytes, life.isWeight, life.isGraphIo)

theorem updateLife_key {f : TensorLifetime → TensorLifetime} (hf : ∀ life, (f life).key = life.key)
    (lives : List TensorLifetime) (id : TensorId) : (updateLife f lives id).map TensorLifetime.key = lives.map TensorLifetime.key := by
  rw [updateLife, List.map_map]
  refine List.map_congr_left fun life _ => ?_
  show (if life.tensorId = id then f life else life).key = life.key
  split
  · exact hf life
  · rfl

theorem foldl_updateLife_key {f : TensorLifetime → TensorLifetime} (hf : ∀ life, (f life).key = life.key) :
    ∀ (ids : List TensorId) (lives : List TensorLifetime),
      (ids.foldl (updateLife f) lives).map TensorLifetime.key = lives.map TensorLifetime.key := by
  intro ids
  induction ids with
  | nil => intro lives; rfl
  | cons id ids ih => intro lives; rw [List.foldl_cons, ih, updateLife_key hf]

theorem touchOp_key (lives : List TensorLifetime) (op : PlannedOp × Nat) :
    (touchOp lives op).map TensorLifetime.key = lives.map TensorLifetime.key := by
  have hin : ∀ life, (touchInput op.2 life).key = life.key := fun _ => rfl
  have hout : ∀ life, (touchOutput op.2 life).key = life.key := fun _ => rfl
  dsimp only [touchOp]
  rw [foldl_updateLife_key hout, foldl_updateLife_key hin]

theorem lifetimes_key (h : HashOrder) (g : Graph R) (ops : List PlannedOp) :
    (lifetimes h g ops).map TensorLifetime.key =
      ((h.walk (g.tensors.map (·.id)).dedup).filterMap fun id => (g.byId id).map (initialLife g ops.length)).map
        TensorLifetime.key := by
  have hfold : ∀ (xs : List (PlannedOp × Nat)) (lives : List TensorLifetime),
      (xs.foldl touchOp lives).map TensorLifetime.key = lives.map TensorLifetime.key := by
    intro xs
    induction xs with
    | nil => intro lives; rfl
    | cons x xs ih => intro lives; rw [List.foldl_cons, ih, touchOp_key]
  exact hfold _ _

theorem byId_id {g : Graph R} {id : TensorId} {t : Tensor} (h : g.byId id = some t) : t.id = id := by
  simpa using List.find?_some h

theorem byId_isSome {g : Graph R} {t : Tensor} (ht : t ∈ g.tensors) : ∃ u, g.byId t.id = some u := by
  cases h : g.byId t.id with
  | some u => exact ⟨u, rfl⟩
  | none =>
    have hno := List.find?_eq_none.mp h t (List.mem_reverse.mpr ht)
    simp at hno

/-- A lifetime has the size of its tensor, and every tensor has one. -/
theorem lifetimes_bytes (h : HashOrder) (g : Graph R) (ops : List PlannedOp) :
    (∀ life ∈ lifetimes h g ops, life.bytes = lifeBytes g life.tensorId) ∧
      ∀ t ∈ g.tensors, ∃ life ∈ lifetimes h g ops, life.tensorId = t.id := by
  have hkey := lifetimes_key h g ops
  refine ⟨fun life hlife => ?_, fun t ht => ?_⟩
  · have hmem : life.key ∈ (lifetimes h g ops).map TensorLifetime.key := List.mem_map_of_mem hlife
    rw [hkey] at hmem
    obtain ⟨base, hbase, heq⟩ := List.mem_map.mp hmem
    obtain ⟨id, -, hid⟩ := List.mem_filterMap.mp hbase
    obtain ⟨t, ht, rfl⟩ := Option.map_eq_some_iff.mp hid
    simp only [TensorLifetime.key, Prod.mk.injEq] at heq
    obtain ⟨hid', hbytes, -⟩ := heq
    have htid : t.id = life.tensorId := hid'
    rw [lifeBytes, ← htid, byId_id ht, ht]
    exact hbytes.symm
  · obtain ⟨u, hu⟩ := byId_isSome ht
    have hwalk : t.id ∈ h.walk (g.tensors.map (·.id)).dedup :=
      (h.perm _).mem_iff.mpr (List.mem_dedup.mpr (List.mem_map_of_mem ht))
    have hmem : (initialLife g ops.length u).key ∈ (lifetimes h g ops).map TensorLifetime.key := by
      rw [hkey]
      exact List.mem_map_of_mem (List.mem_filterMap.mpr ⟨t.id, hwalk, by rw [hu]; rfl⟩)
    obtain ⟨life, hlife, heq⟩ := List.mem_map.mp hmem
    simp only [TensorLifetime.key, Prod.mk.injEq] at heq
    exact ⟨life, hlife, heq.1.trans (byId_id hu)⟩

section Plan

variable (h : HashOrder) (g : Graph R) (ops : List PlannedOp)

theorem buildMemoryReusePlan_ok : SlotsOk (lifeBytes g) (assignSlots (lifetimes h g ops)) :=
  assignSlots_ok (lifetimes_bytes h g ops).1

/-- A slot has the size of a lifetime among its tenants. -/
theorem slot_life {i : Nat} {slot : BufferSlot} (hi : (assignSlots (lifetimes h g ops)).slots[i]? = some slot) :
    ∃ life ∈ lifetimes h g ops, life.tensorId ∈ slot.tenants ∧ life.bytes = slot.bytes := by
  -- ids without a lifetime are given a size that is not the slot's
  let bytesOf : TensorId → Nat := fun id =>
    if id ∈ (lifetimes h g ops).map (·.tensorId) then lifeBytes g id else slot.bytes + 1
  have hbytes : ∀ life ∈ lifetimes h g ops, life.bytes = bytesOf life.tensorId := by
    intro life hlife
    show life.bytes = if life.tensorId ∈ _ then _ else _
    rw [if_pos (List.mem_map_of_mem hlife)]
    exact (lifetimes_bytes h g ops).1 life hlife
  rcases (assignSlots_ok hbytes).largest i slot hi with ⟨u, hu, hsize⟩
  by_cases hlive : u ∈ (lifetimes h g ops).map (·.tensorId)
  · rcases List.mem_map.mp hlive with ⟨life, hlife, rfl⟩
    exact ⟨life, hlife, hu, (hbytes life hlife).trans hsize⟩
  · simp only [bytesOf, if_neg hlive] at hsize
    omega

/-- Every tensor is mapped to a slot it is a tenant of. -/
theorem slotOf_tensor {t : Tensor} (ht : t ∈ g.tensors) :
    ∃ sid slot, (buildMemoryReusePlan h g ops).slotOf t.id = some sid ∧
      (buildMemoryReusePlan h g ops).slots[sid]? = some slot ∧ t.id ∈ slot.tenants := by
  obtain ⟨life, hlife, hid⟩ := (lifetimes_bytes h g ops).2 t ht
  obtain ⟨sid, hsid⟩ := assignSlots_maps _ hlife
  rw [hid] at hsid
  cases hfind : (buildMemoryReusePlan h g ops).tensorToSlot.find? (·.1 == t.id) with
  | none =>
    have hno := List.find?_eq_none.mp hfind _ hsid
    simp at hno
  | some e =>
    obtain ⟨slot, hslot, hmem⟩ := (buildMemoryReusePlan_ok h g ops).mapped e (List.mem_of_find?_eq_some hfind)
    have he : e.1 = t.id := by simpa using List.find?_some hfind
    refine ⟨e.2, slot, ?_, hslot, he ▸ hmem⟩
    rw [MemoryReusePlan.slotOf, hfind]
    rfl

end Plan

end Uaii.Planner
