/-
  Uaii.Runtime.Allocate — `Session::allocate_all_tensors`
  (`libs/uaii-runtime/src/session.cpp`) and the allocator under it
  (`libs/uaii-memory/src/allocator.cpp`, `pool.cpp`).

  In reuse mode every slot of the memory plan is one allocation and every tensor a view
  into its tensor's slot; otherwise every tensor is an allocation of its own. An
  allocation is named by its number, so two pointers are equal only when they come from
  one allocation. The pool refuses requests as its budget and `malloc` decide
  (`refusal`).

  Views are sized for floats, slots for the graph's dtypes.

  Proved: after a successful call in reuse mode every view is within its slot exactly
  when every tensor's slot has a tenant as large as the view (`views_fit_iff`).
-/

import Uaii.Planner.MemoryDisjoint

namespace Uaii.Runtime

open Uaii.Ir Uaii.Planner Uaii.Quant

inductive WeightInit where
  | none
  | zeros
  | ones
  | sequence
  deriving DecidableEq, Repr

structure SessionOptions where
  weightInit : WeightInit
  weightsDir : String
  allowMissingWeights : Bool
  weightsSandbox : String
  validate : Bool
  allowUnknownOps : Bool
  enableFusion : Bool
  enableMemoryReuse : Bool
  weightQuant : QuantFormat
  keepQuantizedWeights : Bool
  maxContext : Int
  kvWindow : Int
  deriving DecidableEq, Repr

structure TensorBuffer where
  id : TensorId
  dtype : DType
  shape : List Int
  /-- The allocation pointed to. -/
  data : Option Nat
  nbytes : Nat
  owned : Bool
  quantFormat : QuantFormat
  quantRows : Int
  quantCols : Int
  deriving DecidableEq, Repr

/-- `buffers_`: the first buffer emplaced under an id stays. -/
abbrev Buffers := List (TensorId × TensorBuffer)

namespace Buffers

def find (m : Buffers) (id : TensorId) : Option TensorBuffer := (m.find? (·.1 == id)).map (·.2)

def emplace (m : Buffers) (id : TensorId) (b : TensorBuffer) : Buffers := if (m.find id).isSome then m else m ++ [(id, b)]

end Buffers

/-! ## Allocating -/

structure Allocator where
  next : Nat
  /-- The error a request ends in, if it does. -/
  refusal : Nat → Nat → Option (ErrorCode × String)

def allocateBytes (a : Allocator) (bytes : Nat) : Result (Nat × Allocator) :=
  if bytes = 0 then fail .invalidArgument "pool allocate invalid args"
  else
    match a.refusal a.next bytes with
    | some (code, message) => fail code message
    | none => .ok (a.next, { a with next := a.next + 1 })

def allocateTensor (a : Allocator) (t : Tensor) : Result (TensorBuffer × Allocator) :=
  if estimateTensorBytes t = 0 then
    fail .invalidArgument ("cannot allocate tensor with unknown size: " ++ t.name)
  else do
    let (ptr, a) ← allocateBytes a (estimateTensorBytes t)
    .ok (⟨t.id, t.dtype, t.shape, some ptr, estimateTensorBytes t, true, .f32, 0, 0⟩, a)

/-- The dtypes the session computes with, as floats. -/
def coercible : DType → Bool
  | .f32 | .f16 | .bf16 | .i8 | .i32 | .u8 => true
  | _ => false

/-- An entry of `owned_slots_`. -/
structure OwnedSlot where
  slotId : Nat
  data : Nat
  nbytes : Nat
  deriving DecidableEq, Repr

variable {R : Type}

section Paths

variable (options : SessionOptions) (streamed : TensorId → Bool)

def allocateSlots : List BufferSlot → Allocator → Result (List OwnedSlot × Allocator)
  | [], a => .ok ([], a)
  | slot :: slots, a =>
    if slot.tenants.head?.any streamed then allocateSlots slots a
    else do
      let (ptr, a) ← allocateBytes a slot.bytes
      let (owned, a) ← allocateSlots slots a
      .ok (⟨slot.slotId, ptr, slot.bytes⟩ :: owned, a)

/-- Bytes of a tensor's view: a float an element. -/
def viewNbytes (t : Tensor) : Nat :=
  let n := shapeNumel t.shape
  let nbytes := if 0 < n then wrap64 (n * 4) else estimateTensorBytes t
  if n = 0 ∧ t.dtype ≠ .f32 ∧ 0 < nbytes ∧ 0 < dtypeSizeBytes t.dtype then wrap64 (nbytes / dtypeSizeBytes t.dtype * 4)
  else nbytes

/-- A block-quantised weight that is kept packed. -/
def keptPacked (t : Tensor) : Bool := t.isWeight && options.keepQuantizedWeights && isGgufBlockQuant t.quantFormat

def packedBuffer (t : Tensor) (data : Option Nat) (owned : Bool) : TensorBuffer :=
  ⟨t.id, .unknown, t.shape, data, packedNbytes t.quantFormat (shapeNumel t.shape), owned, t.quantFormat,
    t.shape.getD 0 0, t.shape.getD 1 0⟩

def viewTensors (plan : MemoryReusePlan) (owned : List OwnedSlot) : List Tensor → Buffers → Result Buffers
  | [], m => .ok m
  | t :: ts, m =>
    if !coercible t.dtype then fail .notImplemented ("session cannot coerce dtype for tensor " ++ t.name)
    else if streamed t.id then
      let view :=
        if keptPacked options t then packedBuffer t none false
        else ⟨t.id, .f32, t.shape, none, viewNbytes t, false, .f32, 0, 0⟩
      viewTensors plan owned ts (m.emplace t.id view)
    else
      match plan.slotOf t.id with
      | none => fail .internal "missing slot for tensor"
      | some sid =>
        match owned.find? (·.slotId == sid) with
        | none => fail .internal "missing owned slot"
        | some slot => viewTensors plan owned ts
            (m.emplace t.id ⟨t.id, .f32, t.shape, some slot.data, viewNbytes t, false, .f32, 0, 0⟩)

/-- One buffer a tensor. -/
def allocateNaive : List Tensor → Allocator → Buffers → Result Buffers
  | [], _, m => .ok m
  | t :: ts, a, m =>
    if !coercible t.dtype then fail .notImplemented ("session cannot coerce dtype for tensor " ++ t.name)
    else if streamed t.id then
      let buf :=
        if keptPacked options t then packedBuffer t none false
        else ⟨t.id, .f32, t.shape, none, wrap64 (shapeNumel t.shape * 4), false, .f32, 0, 0⟩
      allocateNaive ts a (m.emplace t.id buf)
    else if keptPacked options t then do
      let (ptr, a) ← allocateBytes a (packedNbytes t.quantFormat (shapeNumel t.shape))
      allocateNaive ts a (m.emplace t.id (packedBuffer t (some ptr) true))
    else do
      let (buf, a) ← allocateTensor a { t with dtype := .f32 }
      allocateNaive ts a (m.emplace t.id buf)

/-- `reuse`. -/
def reuses (plan : MemoryReusePlan) : Bool := options.enableMemoryReuse && !plan.slots.isEmpty

def allocateAllTensors (g : Graph R) (plan : MemoryReusePlan) (a : Allocator) : Result (Buffers × List OwnedSlot) :=
  if reuses options plan then do
    let (owned, _) ← allocateSlots streamed plan.slots a
    let buffers ← viewTensors options streamed plan owned g.tensors []
    .ok (buffers, owned)
  else do
    let buffers ← allocateNaive options streamed g.tensors a []
    .ok (buffers, [])

end Paths

/-! ## Views and slots -/

theorem Buffers.find_emplace (m : Buffers) (id id' : TensorId) (b : TensorBuffer) :
    (m.emplace id b).find id' = if (m.find id').isSome then m.find id' else if id' = id then some b else none := by
  have happ : ∀ m' : Buffers, Buffers.find (m ++ m') id' = (m.find id').or (m'.find id') := by
    intro m'
    simp only [Buffers.find, List.find?_append]
    cases m.find? (·.1 == id') <;> rfl
  have hsingle : Buffers.find [(id, b)] id' = if id' = id then some b else none := by
    by_cases he : id' = id
    · simp [Buffers.find, he]
    · simp [Buffers.find, he, Ne.symm he]
  unfold Buffers.emplace
  by_cases hid : (m.find id).isSome = true
  · rw [if_pos hid]
    by_cases he : id' = id
    · rw [he, if_pos hid]
    · rw [if_neg he]
      cases m.find id' <;> rfl
  · rw [if_neg hid, happ, hsingle]
    cases m.find id' <;> rfl

/-- The owned slots: of every slot that is not skipped, with its id and size. -/
theorem allocateSlots_ok {streamed : TensorId → Bool} : ∀ (slots : List BufferSlot) (a a' : Allocator)
    (owned : List OwnedSlot), allocateSlots streamed slots a = .ok (owned, a') →
      ∀ o ∈ owned, ∃ slot ∈ slots, slot.slotId = o.slotId ∧ slot.bytes = o.nbytes := by
  intro slots
  induction slots with
  | nil => intro a a' owned h o ho; cases h; cases ho
  | cons slot slots ih =>
    intro a a' owned h o ho
    unfold allocateSlots at h
    split at h
    · obtain ⟨s, hs, heq⟩ := ih _ _ _ h o ho
      exact ⟨s, List.mem_cons_of_mem _ hs, heq⟩
    · obtain ⟨⟨ptr, a₁⟩, -, h⟩ := bind_ok h
      obtain ⟨⟨owned', a₂⟩, hrest, h⟩ := bind_ok h
      cases h
      rcases List.mem_cons.mp ho with rfl | ho
      · exact ⟨slot, List.mem_cons_self, rfl, rfl⟩
      · obtain ⟨s, hs, heq⟩ := ih _ _ _ hrest o ho
        exact ⟨s, List.mem_cons_of_mem _ hs, heq⟩

/-- The view of a tensor that is not streamed points to its slot. -/
def IsView (plan : MemoryReusePlan) (owned : List OwnedSlot) (t : Tensor) (b : TensorBuffer) : Prop :=
  ∃ sid slot, plan.slotOf t.id = some sid ∧ owned.find? (·.slotId == sid) = some slot ∧
    b.data = some slot.data ∧ b.nbytes = viewNbytes t ∧ b.quantFormat = .f32 ∧ b.shape = t.shape

/-- One step of the view loop: a view is emplaced. -/
theorem viewTensors_cons {options : SessionOptions} {streamed : TensorId → Bool} {plan : MemoryReusePlan}
    {owned : List OwnedSlot} {t : Tensor} {ts : List Tensor} {m m' : Buffers}
    (h : viewTensors options streamed plan owned (t :: ts) m = .ok m') :
    ∃ b, viewTensors options streamed plan owned ts (m.emplace t.id b) = .ok m' ∧
      (streamed t.id = false → IsView plan owned t b) := by
  unfold viewTensors at h
  split at h
  · exact absurd h (fail_ne_ok _ _ _)
  · split at h
    · next hst => exact ⟨_, h, fun hno => by rw [hst] at hno; cases hno⟩
    · split at h
      · exact absurd h (fail_ne_ok _ _ _)
      · next sid hsid =>
        split at h
        · exact absurd h (fail_ne_ok _ _ _)
        · next slot hslot => exact ⟨_, h, fun _ => ⟨sid, slot, hsid, hslot, rfl, rfl, rfl, rfl⟩⟩

/-- A buffer that is there stays. -/
theorem viewTensors_keeps {options : SessionOptions} {streamed : TensorId → Bool} {plan : MemoryReusePlan}
    {owned : List OwnedSlot} {id : TensorId} {b : TensorBuffer} : ∀ (ts : List Tensor) (m m' : Buffers),
      viewTensors options streamed plan owned ts m = .ok m' → m.find id = some b → m'.find id = some b := by
  intro ts
  induction ts with
  | nil => intro m m' h hb; cases h; exact hb
  | cons t ts ih =>
    intro m m' h hb
    obtain ⟨b', h, -⟩ := viewTensors_cons h
    refine ih _ _ h ?_
    rw [Buffers.find_emplace, hb]
    rfl

/-- A tensor that is not streamed has the view of the first tensor of its id. -/
theorem viewTensors_ok {options : SessionOptions} {streamed : TensorId → Bool} {plan : MemoryReusePlan}
    {owned : List OwnedSlot} {id : TensorId} (hid : streamed id = false) {t : Tensor} : ∀ (ts : List Tensor) (m m' : Buffers),
      viewTensors options streamed plan owned ts m = .ok m' → m.find id = none → ts.find? (·.id == id) = some t →
        ∃ b, m'.find id = some b ∧ IsView plan owned t b := by
  intro ts
  induction ts with
  | nil => intro m m' _ _ ht; cases ht
  | cons s ts ih =>
    intro m m' h hm ht
    obtain ⟨b, h, hview⟩ := viewTensors_cons h
    by_cases he : id = s.id
    · subst he
      obtain rfl : s = t := by simpa using ht
      have hput : (m.emplace s.id b).find s.id = some b := by rw [Buffers.find_emplace, hm]; simp
      exact ⟨b, viewTensors_keeps _ _ _ h hput, hview hid⟩
    · have hne : (s.id == id) = false := by simpa using Ne.symm he
      rw [List.find?_cons, hne] at ht
      refine ih _ _ h ?_ ht
      rw [Buffers.find_emplace, hm]
      simp [he]

/-- Every allocation has its own pointer. -/
theorem allocateSlots_data {streamed : TensorId → Bool} : ∀ (slots : List BufferSlot) (a a' : Allocator)
    (owned : List OwnedSlot), allocateSlots streamed slots a = .ok (owned, a') →
      (∀ o ∈ owned, a.next ≤ o.data) ∧ (owned.map (·.data)).Nodup := by
  intro slots
  induction slots with
  | nil => intro a a' owned h; cases h; exact ⟨by simp, by simp⟩
  | cons slot slots ih =>
    intro a a' owned h
    unfold allocateSlots at h
    split at h
    · exact ih _ _ _ h
    · obtain ⟨⟨ptr, a₁⟩, halloc, h⟩ := bind_ok h
      obtain ⟨⟨owned', a₂⟩, hrest, h⟩ := bind_ok h
      cases h
      obtain ⟨rfl, hnext⟩ : ptr = a.next ∧ a₁.next = a.next + 1 := by
        unfold allocateBytes at halloc
        split at halloc
        · exact absurd halloc (fail_ne_ok _ _ _)
        · split at halloc
          · exact absurd halloc (fail_ne_ok _ _ _)
          · cases halloc; exact ⟨rfl, rfl⟩
      obtain ⟨hge, hnd⟩ := ih _ _ _ hrest
      refine ⟨fun o ho => ?_, List.nodup_cons.mpr ⟨fun hmem => ?_, hnd⟩⟩
      · rcases List.mem_cons.mp ho with rfl | ho
        · exact Nat.le_refl _
        · have := hge o ho; omega
      · obtain ⟨o, ho, heq⟩ := List.mem_map.mp hmem
        have := hge o ho
        simp only at heq
        omega

/-- A tensor's view lies within the slot its pointer refers to. -/
def ViewFits (buffers : Buffers) (owned : List OwnedSlot) (id : TensorId) : Prop :=
  ∃ b, buffers.find id = some b ∧ ∃ slot ∈ owned, b.data = some slot.data ∧ b.nbytes ≤ slot.nbytes

/-- A tenant of the tensor's slot has the size of a float an element of the tensor, by the
    planner's estimate. -/
def HasLargeTenant (g : Graph R) (plan : MemoryReusePlan) (t : Tensor) : Prop :=
  ∃ slot ∈ plan.slots, plan.slotOf t.id = some slot.slotId ∧ ∃ u ∈ slot.tenants, viewNbytes t ≤ lifeBytes g u

section Reuse

variable {options : SessionOptions} {streamed : TensorId → Bool} {h : HashOrder} {g : Graph R} {ops : List PlannedOp}
  {a : Allocator} {buffers : Buffers} {owned : List OwnedSlot}

theorem owned_nodup {plan : MemoryReusePlan} (hreuse : reuses options plan = true)
    (hok : allocateAllTensors options streamed g plan a = .ok (buffers, owned)) : (owned.map (·.data)).Nodup := by
  rw [allocateAllTensors, if_pos hreuse] at hok
  obtain ⟨⟨owned', a'⟩, hslots, hok⟩ := bind_ok hok
  obtain ⟨buffers', -, hok⟩ := bind_ok hok
  cases hok
  exact (allocateSlots_data _ _ _ _ hslots).2

/-- The buffer of a tensor, its owned slot, and the planned slot that was allocated for. -/
theorem view_slot (hreuse : reuses options (buildMemoryReusePlan h g ops) = true)
    (hok : allocateAllTensors options streamed g (buildMemoryReusePlan h g ops) a = .ok (buffers, owned)) {t : Tensor}
    (ht : g.findTensor t.id = some t) (hst : streamed t.id = false) :
    ∃ b o slot, buffers.find t.id = some b ∧ o ∈ owned ∧ b.data = some o.data ∧
      (b.nbytes = viewNbytes t ∧ b.quantFormat = .f32 ∧ b.shape = t.shape) ∧
      slot ∈ (buildMemoryReusePlan h g ops).slots ∧ (buildMemoryReusePlan h g ops).slotOf t.id = some slot.slotId ∧
      slot.slotId = o.slotId ∧ slot.bytes = o.nbytes := by
  rw [allocateAllTensors, if_pos hreuse] at hok
  obtain ⟨⟨owned', a'⟩, hslots, hok⟩ := bind_ok hok
  obtain ⟨buffers', hviews, hok⟩ := bind_ok hok
  cases hok
  obtain ⟨b, hb, sid, o, hsid, ho, hdata, hview⟩ := viewTensors_ok hst _ _ _ hviews rfl ht
  have homem := List.mem_of_find?_eq_some ho
  have hosid : o.slotId = sid := by simpa using List.find?_some ho
  obtain ⟨slot, hslot, hid, hsize⟩ := allocateSlots_ok _ _ _ _ hslots o homem
  exact ⟨b, o, slot, hb, homem, hdata, hview, hslot, by rw [hsid, hid, hosid], hid, hsize⟩

/-- A slot with a large enough tenant holds the view. -/
theorem view_fits (hreuse : reuses options (buildMemoryReusePlan h g ops) = true)
    (hok : allocateAllTensors options streamed g (buildMemoryReusePlan h g ops) a = .ok (buffers, owned)) {t : Tensor}
    (ht : g.findTensor t.id = some t) (hst : streamed t.id = false)
    (hlarge : HasLargeTenant g (buildMemoryReusePlan h g ops) t) :
    ∃ b o, buffers.find t.id = some b ∧ o ∈ owned ∧ b.data = some o.data ∧
      (b.nbytes = viewNbytes t ∧ b.quantFormat = .f32 ∧ b.shape = t.shape) ∧ b.nbytes ≤ o.nbytes := by
  have hplan := buildMemoryReusePlan_ok h g ops
  obtain ⟨b, o, slot, hb, ho, hdata, hview, hslot, hsid, -, hsize⟩ := view_slot hreuse hok ht hst
  obtain ⟨slot', hslot', hsid', u, hu, hle⟩ := hlarge
  -- slots are numbered by position
  obtain ⟨i, hi⟩ := List.mem_iff_getElem?.mp hslot
  obtain ⟨j, hj⟩ := List.mem_iff_getElem?.mp hslot'
  have hij : i = j := by
    rw [hsid, Option.some.injEq, hplan.ids i slot hi, hplan.ids j slot' hj] at hsid'
    exact hsid'
  subst hij
  obtain rfl : slot = slot' := by rw [hi] at hj; injection hj
  have hbytes := hplan.fits i slot hi u hu
  have hview' := hview.1
  exact ⟨b, o, hb, ho, hdata, hview, by omega⟩

/-- Tensors with one pointer have one slot. -/
theorem slotOf_of_data (hreuse : reuses options (buildMemoryReusePlan h g ops) = true)
    (hok : allocateAllTensors options streamed g (buildMemoryReusePlan h g ops) a = .ok (buffers, owned)) {t u : Tensor}
    (ht : g.findTensor t.id = some t) (hu : g.findTensor u.id = some u) (hst : streamed t.id = false)
    (hsu : streamed u.id = false) (hptr : (buffers.find t.id).map (·.data) = (buffers.find u.id).map (·.data)) :
    ∃ sid, (buildMemoryReusePlan h g ops).slotOf t.id = some sid ∧ (buildMemoryReusePlan h g ops).slotOf u.id = some sid := by
  obtain ⟨bt, ot, slt, hbt, hot, hdt, -, -, hst', hidt, -⟩ := view_slot hreuse hok ht hst
  obtain ⟨bu, ou, slu, hbu, hou, hdu, -, -, hsu', hidu, -⟩ := view_slot hreuse hok hu hsu
  rw [hbt, hbu, Option.map_some, Option.map_some, hdt, hdu] at hptr
  have hoo := List.inj_on_of_nodup_map (owned_nodup hreuse hok) hot hou (Option.some.inj (Option.some.inj hptr))
  subst hoo
  exact ⟨ot.slotId, by rw [hst', hidt], by rw [hsu', hidu]⟩

end Reuse

/-- After a successful call in reuse mode: all views of tensors that are not streamed lie
    within their slots exactly when each of these slots has a large enough tenant. -/
theorem views_fit_iff (options : SessionOptions) (streamed : TensorId → Bool) (h : HashOrder) (g : Graph R)
    (ops : List PlannedOp) (a : Allocator) {buffers : Buffers} {owned : List OwnedSlot}
    (hreuse : reuses options (buildMemoryReusePlan h g ops) = true)
    (hok : allocateAllTensors options streamed g (buildMemoryReusePlan h g ops) a = .ok (buffers, owned)) :
    (∀ t ∈ g.tensors, streamed t.id = false → ViewFits buffers owned t.id) ↔
      ∀ t, g.findTensor t.id = some t → streamed t.id = false → HasLargeTenant g (buildMemoryReusePlan h g ops) t := by
  have hplan := buildMemoryReusePlan_ok h g ops
  have hnd := owned_nodup hreuse hok
  constructor
  · intro hfit t ht hst
    obtain ⟨b, o, slot, hb, ho, hdata, ⟨hbytes, -⟩, hslot, hsid, hsize⟩ := view_slot hreuse hok ht hst
    obtain ⟨b', hb', o', ho', hdata', hle⟩ := hfit t (List.mem_of_find?_eq_some ht) hst
    obtain rfl : b = b' := by rw [hb] at hb'; injection hb'
    have hoo : o = o' := List.inj_on_of_nodup_map hnd ho ho' (by rw [hdata] at hdata'; injection hdata')
    subst hoo
    obtain ⟨i, hi⟩ := List.mem_iff_getElem?.mp hslot
    obtain ⟨u, hu, hub⟩ := hplan.largest i slot hi
    exact ⟨slot, hslot, hsid, u, hu, by omega⟩
  · intro hlarge t ht hst
    obtain ⟨first, hfirst, hfid⟩ : ∃ first, g.findTensor t.id = some first ∧ first.id = t.id := by
      cases hfind : g.findTensor t.id with
      | some first => exact ⟨first, rfl, by simpa using List.find?_some hfind⟩
      | none =>
        have hno := List.find?_eq_none.mp hfind t ht
        simp at hno
    rw [← hfid] at hfirst hst ⊢
    obtain ⟨b, o, hb, ho, hdata, -, hle⟩ := view_fits hreuse hok hfirst hst (hlarge first hfirst hst)
    exact ⟨b, hb, o, ho, hdata, hle⟩

/-! ## Weights have memory of their own -/

theorem allocateBytes_ok {a a' : Allocator} {bytes ptr : Nat} (h : allocateBytes a bytes = .ok (ptr, a')) :
    ptr = a.next ∧ a'.next = a.next + 1 := by
  unfold allocateBytes at h
  split at h
  · exact absurd h (fail_ne_ok _ _ _)
  · split at h
    · exact absurd h (fail_ne_ok _ _ _)
    · cases h
      exact ⟨rfl, rfl⟩

/-- A buffer of its own: it is packed when the weight is kept packed. -/
structure OwnBuffer (options : SessionOptions) (t : Tensor) (ptr : Nat) (b : TensorBuffer) : Prop where
  data : b.data = some ptr
  packed : isGgufBlockQuant b.quantFormat = true → keptPacked options t = true
  format : b.quantFormat = if keptPacked options t then t.quantFormat else .f32
  shape : b.shape = t.shape
  nbytes : keptPacked options t = false → b.nbytes = estimateTensorBytes { t with dtype := .f32 } ∧ b.nbytes ≠ 0
  packedNbytes : keptPacked options t = true → b.nbytes = packedNbytes t.quantFormat (shapeNumel t.shape)

theorem allocateNaive_cons {options : SessionOptions} {streamed : TensorId → Bool} {t : Tensor} {ts : List Tensor}
    {a : Allocator} {m m' : Buffers} (h : allocateNaive options streamed (t :: ts) a m = .ok m') :
    ∃ b a', allocateNaive options streamed ts a' (m.emplace t.id b) = .ok m' ∧ a.next ≤ a'.next ∧
      (streamed t.id = false → a'.next = a.next + 1 ∧ OwnBuffer options t a.next b) := by
  unfold allocateNaive at h
  split at h
  · exact absurd h (fail_ne_ok _ _ _)
  · split at h
    · rename_i hst
      exact ⟨_, a, h, Nat.le_refl _, fun hno => by rw [hst] at hno; cases hno⟩
    · split at h
      · rename_i hpacked
        obtain ⟨⟨ptr, a'⟩, halloc, h⟩ := bind_ok h
        obtain ⟨rfl, hnext⟩ := allocateBytes_ok halloc
        refine ⟨_, a', h, by omega, fun _ => ⟨hnext, rfl, fun _ => hpacked, ?_, rfl, fun hno => ?_, fun _ => rfl⟩⟩
        · rw [if_pos hpacked]
          rfl
        · rw [hpacked] at hno
          cases hno
      · rename_i hunpacked
        obtain ⟨⟨b, a'⟩, halloc, h⟩ := bind_ok h
        unfold allocateTensor at halloc
        split at halloc
        · exact absurd halloc (fail_ne_ok _ _ _)
        · rename_i hsize
          obtain ⟨⟨ptr, a''⟩, hbytes, halloc⟩ := bind_ok halloc
          cases halloc
          obtain ⟨rfl, hnext⟩ := allocateBytes_ok hbytes
          refine ⟨_, a', h, by omega, fun _ => ⟨hnext, rfl, fun hq => ?_, ?_, rfl, fun _ => ⟨rfl, hsize⟩,
            fun hkept => absurd hkept hunpacked⟩⟩
          · cases hq
          · rw [if_neg hunpacked]

theorem allocateNaive_keeps {options : SessionOptions} {streamed : TensorId → Bool} {id : TensorId} {b : TensorBuffer} :
    ∀ (ts : List Tensor) (a : Allocator) (m m' : Buffers), allocateNaive options streamed ts a m = .ok m' →
      m.find id = some b → m'.find id = some b := by
  intro ts
  induction ts with
  | nil => intro a m m' h hb; cases h; exact hb
  | cons t ts ih =>
    intro a m m' h hb
    obtain ⟨b', a', h, -, -⟩ := allocateNaive_cons h
    refine ih _ _ _ h ?_
    rw [Buffers.find_emplace, hb]
    rfl

/-- Tensors of different ids have different allocations. -/
theorem allocateNaive_ok {options : SessionOptions} {streamed : TensorId → Bool} : ∀ (ts : List Tensor) (a : Allocator)
    (m m' : Buffers), allocateNaive options streamed ts a m = .ok m' → (ts.map (·.id)).Nodup →
      (∀ t ∈ ts, m.find t.id = none) →
      (∀ t ∈ ts, streamed t.id = false → ∃ b ptr, m'.find t.id = some b ∧ a.next ≤ ptr ∧ OwnBuffer options t ptr b) ∧
      ∀ t ∈ ts, ∀ u ∈ ts, t.id ≠ u.id → streamed t.id = false → streamed u.id = false →
        (m'.find t.id).map (·.data) ≠ (m'.find u.id).map (·.data) := by
  intro ts
  induction ts with
  | nil => intro a m m' _ _ _; exact ⟨by simp, by simp⟩
  | cons t ts ih =>
    intro a m m' h hnd hnone
    obtain ⟨b, a', h, hle, hown⟩ := allocateNaive_cons h
    obtain ⟨hnot, hnd'⟩ := List.nodup_cons.mp hnd
    have hnone' : ∀ u ∈ ts, (m.emplace t.id b).find u.id = none := by
      intro u hu
      have hne : u.id ≠ t.id := by
        intro he
        have hmem : u.id ∈ ts.map (·.id) := List.mem_map_of_mem hu
        rw [he] at hmem
        exact hnot hmem
      rw [Buffers.find_emplace, hnone u (List.mem_cons_of_mem _ hu)]
      simp [hne]
    obtain ⟨hbufs, hapart⟩ := ih a' _ _ h hnd' hnone'
    have hhead : m'.find t.id = some b := by
      refine allocateNaive_keeps _ _ _ _ h ?_
      rw [Buffers.find_emplace, hnone t List.mem_cons_self]
      simp
    -- the head's pointer is below those of the rest
    have hbelow : streamed t.id = false → ∀ u ∈ ts, streamed u.id = false →
        (m'.find t.id).map (·.data) ≠ (m'.find u.id).map (·.data) := by
      intro hst u hu hsu he
      obtain ⟨hnext, hfirst⟩ := hown hst
      obtain ⟨bu, ptr, hbu, hptr, hlater⟩ := hbufs u hu hsu
      rw [hhead, hbu, Option.map_some, Option.map_some, hfirst.data, hlater.data] at he
      have hpp := Option.some.inj (Option.some.inj he)
      omega
    refine ⟨fun u hu hsu => ?_, fun u hu v hv hne hsu hsv => ?_⟩
    · rcases List.mem_cons.mp hu with rfl | hu
      · exact ⟨b, a.next, hhead, Nat.le_refl _, (hown hsu).2⟩
      · obtain ⟨bu, ptr, hbu, hptr, hown'⟩ := hbufs u hu hsu
        exact ⟨bu, ptr, hbu, by omega, hown'⟩
    · rcases List.mem_cons.mp hu with hut | hu'
      · rcases List.mem_cons.mp hv with hvt | hv'
        · exact absurd (by rw [hut, hvt]) hne
        · exact hut ▸ hbelow (hut ▸ hsu) v hv' hsv
      · rcases List.mem_cons.mp hv with hvt | hv'
        · exact hvt ▸ (hbelow (hvt ▸ hsv) u hu' hsu).symm
        · exact hapart u hu' v hv' hne hsu hsv

theorem findTensor_of_nodup {g : Graph R} (hids : (g.tensors.map (·.id)).Nodup) {t : Tensor} (ht : t ∈ g.tensors) :
    g.findTensor t.id = some t :=
  Lists.find?_of_nodup hids ht

/-- Every tensor that is not streamed has a buffer with memory. -/
theorem allocated {options : SessionOptions} {streamed : TensorId → Bool} {g : Graph R} {plan : MemoryReusePlan}
    {a : Allocator} {buffers : Buffers} {owned : List OwnedSlot} (hids : (g.tensors.map (·.id)).Nodup)
    (hok : allocateAllTensors options streamed g plan a = .ok (buffers, owned)) {t : Tensor} (ht : t ∈ g.tensors)
    (hst : streamed t.id = false) : ∃ b ptr, buffers.find t.id = some b ∧ b.data = some ptr ∧
      (isGgufBlockQuant b.quantFormat = true → keptPacked options t = true) := by
  unfold allocateAllTensors at hok
  split at hok
  · obtain ⟨⟨owned', a'⟩, -, hok⟩ := bind_ok hok
    obtain ⟨buffers', hviews, hok⟩ := bind_ok hok
    cases hok
    obtain ⟨b, hb, sid, slot, -, -, hdata, -, hq, -⟩ := viewTensors_ok hst _ _ _ hviews rfl (findTensor_of_nodup hids ht)
    exact ⟨b, slot.data, hb, hdata, fun hp => by rw [hq] at hp; cases hp⟩
  · obtain ⟨buffers', hnaive, hok⟩ := bind_ok hok
    cases hok
    obtain ⟨b, ptr, hb, -, hown⟩ := (allocateNaive_ok _ _ _ _ hnaive hids fun _ _ => rfl).1 t ht hst
    exact ⟨b, ptr, hb, hown.data, hown.packed⟩

/-- Different weights have different memory: in reuse mode a weight's slot has no other tenant. -/
theorem weights_apart {options : SessionOptions} {streamed : TensorId → Bool} {h : HashOrder} {g : Graph R}
    {ops : List PlannedOp} {a : Allocator} {buffers : Buffers} {owned : List OwnedSlot} (hids : (g.tensors.map (·.id)).Nodup)
    (hok : allocateAllTensors options streamed g (buildMemoryReusePlan h g ops) a = .ok (buffers, owned)) {t u : Tensor}
    (ht : t ∈ g.tensors) (hu : u ∈ g.tensors) (hne : t.id ≠ u.id) (hst : streamed t.id = false)
    (hsu : streamed u.id = false) (hw : t.isWeight = true) :
    (buffers.find t.id).map (·.data) ≠ (buffers.find u.id).map (·.data) := by
  by_cases hreuse : reuses options (buildMemoryReusePlan h g ops) = true
  · intro he
    obtain ⟨sid, hslot, hslu⟩ :=
      slotOf_of_data hreuse hok (findTensor_of_nodup hids ht) (findTensor_of_nodup hids hu) hst hsu he
    obtain ⟨lt, hlt, hltid, hltw⟩ := lifetimes_weight h g ops hids ht
    obtain ⟨lu, hlu, hluid, -⟩ := lifetimes_weight h g ops hids hu
    have hpin : lt.pinned = true := by simp [TensorLifetime.pinned, hltw, hw]
    rcases slotOf_disjoint h g ops hne hslot hslu with hb | hb
    · have hact := (hb lt hlt hltid lu hlu hluid).1
      rw [hpin] at hact
      cases hact
    · have hact := (hb lu hlu hluid lt hlt hltid).2.1
      rw [hpin] at hact
      cases hact
  · rw [allocateAllTensors, if_neg hreuse] at hok
    obtain ⟨buffers', hnaive, hok⟩ := bind_ok hok
    cases hok
    exact (allocateNaive_ok _ _ _ _ hnaive hids fun _ _ => rfl).2 t ht u hu hne hst hsu

/-! ## Four-byte and two-byte dtypes -/

/-- For a four-byte dtype both libraries compute one size. -/
theorem viewNbytes_word {t : Tensor} (h : dtypeSizeBytes t.dtype = 4) : viewNbytes t = estimateTensorBytes t := by
  unfold viewNbytes estimateTensorBytes
  rw [h]
  by_cases hn : shapeNumel t.shape = 0
  · simp [hn]
  · have hpos : 0 < shapeNumel t.shape := Nat.pos_of_ne_zero hn
    simp [hn, hpos, Nat.mul_comm]

/-- So a tensor of such a dtype is its own large tenant. -/
theorem hasLargeTenant_word {h : HashOrder} {g : Graph R} {ops : List PlannedOp} {t : Tensor} (ht : t ∈ g.tensors)
    (hbyId : g.byId t.id = some t) (hword : dtypeSizeBytes t.dtype = 4) :
    HasLargeTenant g (buildMemoryReusePlan h g ops) t := by
  obtain ⟨sid, slot, hsid, hslot, hmem⟩ := slotOf_tensor h g ops ht
  refine ⟨slot, List.mem_of_getElem? hslot, ?_, t.id, hmem, ?_⟩
  · rw [hsid, (buildMemoryReusePlan_ok h g ops).ids sid slot hslot]
  · rw [viewNbytes_word hword, lifeBytes, hbyId]
    exact Nat.le_refl _

def reuseOptions : SessionOptions := ⟨.none, "", false, "", true, false, true, true, .f32, true, 0, 0⟩

def activation (id : TensorId) (name : String) (dtype : DType) : Tensor := ⟨id, name, dtype, [8], .unspecified, false, "", .f32⟩

/-- One Relu between two tensors of eight elements. -/
def reluGraph (dtype : DType) : Graph Int where
  version := ⟨1, 0⟩
  name := "relu"
  producer := ""
  domain := "uaii"
  tensors := [activation 1 "x" dtype, activation 2 "y" dtype]
  nodes := [⟨1, "", "Relu", "1", [1], [2], []⟩]
  inputs := [1]
  outputs := [2]
  metadata := []

def reluOps : List PlannedOp := [⟨1, "", "Relu", "1", [], [1], [2]⟩]

def freeAllocator : Allocator := ⟨0, fun _ _ => none⟩

/-- As `F16`: the slot has 16 bytes, the view 32. -/
theorem f16_view_leaves_its_slot :
    ∃ buffers owned, reuses reuseOptions (buildMemoryReusePlan .inserted (reluGraph .f16) reluOps) = true ∧
      allocateAllTensors reuseOptions (fun _ => false) (reluGraph .f16)
        (buildMemoryReusePlan .inserted (reluGraph .f16) reluOps) freeAllocator = .ok (buffers, owned) ∧
      ¬ ∀ t ∈ (reluGraph .f16).tensors, ViewFits buffers owned t.id := by
  refine ⟨[(1, ⟨1, .f32, [8], some 0, 32, false, .f32, 0, 0⟩), (2, ⟨2, .f32, [8], some 1, 32, false, .f32, 0, 0⟩)],
    [⟨0, 0, 16⟩, ⟨1, 1, 16⟩], by decide, by rfl, ?_⟩
  intro hfit
  obtain ⟨b, hb, slot, hslot, -, hle⟩ := hfit (activation 1 "x" .f16) (by simp [reluGraph])
  obtain rfl : (⟨1, .f32, [8], some 0, 32, false, .f32, 0, 0⟩ : TensorBuffer) = b :=
    Option.some.inj hb
  simp only [List.mem_cons, List.not_mem_nil, or_false] at hslot
  rcases hslot with rfl | rfl <;> exact absurd hle (by decide)

/-- As `F32` the views are the slots. -/
theorem f32_views_fit :
    ∃ buffers owned, allocateAllTensors reuseOptions (fun _ => false) (reluGraph .f32)
        (buildMemoryReusePlan .inserted (reluGraph .f32) reluOps) freeAllocator = .ok (buffers, owned) ∧
      ∀ t ∈ (reluGraph .f32).tensors, (fun _ => false) t.id = false → ViewFits buffers owned t.id := by
  refine ⟨_, _, rfl, (views_fit_iff reuseOptions (fun _ => false) .inserted (reluGraph .f32) reluOps freeAllocator
    (by decide) rfl).mpr ?_⟩
  intro t ht _
  have hmem : t ∈ (reluGraph .f32).tensors := List.mem_of_find?_eq_some ht
  simp only [reluGraph, List.mem_cons, List.not_mem_nil, or_false] at hmem
  rcases hmem with rfl | rfl
  · exact hasLargeTenant_word (by simp [reluGraph]) (by decide) (by decide)
  · exact hasLargeTenant_word (by simp [reluGraph]) (by decide) (by decide)

end Uaii.Runtime
