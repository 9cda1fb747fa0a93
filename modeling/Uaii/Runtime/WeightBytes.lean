/-
  Uaii.Runtime.WeightBytes — what a session reserves for its pinned weights against what
  the storage plan counted for them (`Session::allocate_all_tensors`, `build_storage_plan`).

  Three rules give a weight's bytes. The storage plan counts a block-quantised weight
  packed, any other at its dtype. A slot of the memory plan has the dtype's size whatever
  the format. A buffer of the weight's own is packed when quantised weights are kept,
  else a float an element.

  Proved: the session reserves what was planned for every weight that is not streamed
  exactly when the rules agree on every one (`weights_reserve_planned_iff`). On a packed
  weight in a slot they agree by chance only (`packed_slot_iff`).
-/

import Uaii.Planner.StorageFits
import Uaii.Runtime.LoadWeights
import Uaii.Storage.Streaming

namespace Uaii.Runtime

open Uaii.Ir Uaii.Quant Uaii.Planner Uaii.Storage

/-- `streaming_ && streaming_->is_streamed(id)`: the store is made when the plan says so. -/
def streamsUnder (sopts : StoragePlanOptions) (plan : StoragePlan) (id : TensorId) : Bool :=
  sopts.enableStreaming && plan.streamingRequired && (Store.configure plan).isStreamed id

/-- Bytes of the memory a tensor's buffer points to. -/
def reservedBytes (buffers : Buffers) (owned : List OwnedSlot) (id : TensorId) : Option Nat :=
  (buffers.find id).bind fun b => (destOf owned b).room

/-- The session's rule: a slot's size, or that of a buffer of the weight's own. -/
def sessionBytes (options : SessionOptions) (t : Tensor) : Nat :=
  if options.enableMemoryReuse then estimateTensorBytes t
  else if keptPacked options t then packedNbytes t.quantFormat (shapeNumel t.shape)
  else estimateTensorBytes { t with dtype := .f32 }

/-- The cases in which it gives what the plan counts. -/
def SizesAgree (options : SessionOptions) (t : Tensor) : Prop :=
  if isGgufBlockQuant t.quantFormat then
    (options.enableMemoryReuse = false ∧ options.keepQuantizedWeights = true) ∨
      packedNbytes t.quantFormat (shapeNumel t.shape) =
        estimateTensorBytes (if options.enableMemoryReuse then t else { t with dtype := .f32 })
  else options.enableMemoryReuse = true ∨ dtypeSizeBytes t.dtype = 4

instance (options : SessionOptions) (t : Tensor) : Decidable (SizesAgree options t) := by
  unfold SizesAgree
  infer_instance

/-! ## Sizes -/

theorem estimate_eq (t : Tensor) : estimateTensorBytes t = wrap64 (dtypeSizeBytes t.dtype * shapeNumel t.shape) := by
  unfold estimateTensorBytes
  by_cases h : dtypeSizeBytes t.dtype = 0 ∨ shapeNumel t.shape = 0
  · rw [if_pos h]
    rcases h with h | h <;> simp [h, wrap64]
  · rw [if_neg h]

theorem dtypeSizeBytes_cases (d : DType) :
    dtypeSizeBytes d = 0 ∨ dtypeSizeBytes d = 1 ∨ dtypeSizeBytes d = 2 ∨ dtypeSizeBytes d = 4 ∨ dtypeSizeBytes d = 8 := by
  cases d <;> simp [dtypeSizeBytes]

/-- Four bytes an element that are not zero modulo `2 ^ 64` are no other dtype's size. -/
theorem word_eq_iff {d : DType} {n : Nat} (h : wrap64 (4 * n) ≠ 0) :
    wrap64 (4 * n) = wrap64 (dtypeSizeBytes d * n) ↔ dtypeSizeBytes d = 4 := by
  have hno : ¬ 2 ^ 64 ∣ 4 * n := fun hd => h (Nat.mod_eq_zero_of_dvd hd)
  -- equal words differ by a multiple of `2 ^ 64`
  have hdvd : ∀ a b, wrap64 a = wrap64 b → 2 ^ 64 ∣ a - b := fun a b hab => Nat.dvd_of_mod_eq_zero (Nat.sub_mod_eq_zero_of_mod_eq hab)
  apply Iff.intro
  · intro heq
    rcases dtypeSizeBytes_cases d with hd | hd | hd | hd | hd <;> rw [hd] at heq
    · exact absurd (by simpa using hdvd _ _ heq) hno
    · have hthree : 2 ^ 64 ∣ n * 3 := by
        have := hdvd _ _ heq
        rwa [show 4 * n - 1 * n = n * 3 by omega] at this
      exact absurd (((by decide : Nat.Coprime (2 ^ 64) 3).dvd_of_dvd_mul_right hthree).mul_left 4) hno
    · have htwo : 2 ^ 64 ∣ 2 * n := by
        have := hdvd _ _ heq
        rwa [show 4 * n - 2 * n = 2 * n by omega] at this
      exact absurd (by simpa [← Nat.mul_assoc] using htwo.mul_left 2) hno
    · exact hd
    · have hfour := hdvd _ _ heq.symm
      rw [show 8 * n - 4 * n = 4 * n by omega] at hfour
      exact absurd hfour hno
  · intro hd
    rw [hd]

theorem blockBytes_lt {f : QuantFormat} (hf : isGgufBlockQuant f = true) (hne : f ≠ .q8_0) : blockBytes f < blockElems f := by
  cases f <;> simp_all [isGgufBlockQuant, blockBytes, blockElems]

/-- Blocks take a whole number of bytes an element only at Q8_0: two bytes of scale a block
    for as many elements past the last one. -/
theorem blocks_eq_iff {f : QuantFormat} (hf : isGgufBlockQuant f = true) {n e : Nat} (hn : 0 < n) (he : e ≠ 0) :
    n / blockElems f * blockBytes f = e * n ↔ f = .q8_0 ∧ e = 1 ∧ n % 32 = 2 * (n / 32) := by
  have hone : n ≤ e * n := Nat.le_mul_of_pos_left n (Nat.pos_of_ne_zero he)
  by_cases hq : f = .q8_0
  · subst hq
    simp only [blockElems, blockBytes, true_and]
    by_cases he : e = 1
    · simp only [he, Nat.one_mul, true_and]
      omega
    · have htwo : 2 * n ≤ e * n := Nat.mul_le_mul_right n (by omega)
      simp only [he, false_and, iff_false]
      omega
  · have hdiv := Nat.div_mul_le_self n (blockElems f)
    -- without a block the packed size is zero
    have hlt : n / blockElems f * blockBytes f < n := by
      rcases Nat.eq_zero_or_pos (n / blockElems f) with hz | hpos
      · rw [hz, Nat.zero_mul]
        exact hn
      · exact (Nat.mul_lt_mul_of_pos_left (blockBytes_lt hf hq) hpos).trans_le hdiv
    simp only [hq, false_and, iff_false]
    exact (hlt.trans_le hone).ne

/-- So a slot has a packed weight's size only when the weight has at most 510 elements. -/
theorem packed_slot_iff {t : Tensor} (hq : isGgufBlockQuant t.quantFormat = true) (hn : 0 < shapeNumel t.shape)
    (hlt : shapeNumel t.shape < 2 ^ 61) (hd : dtypeSizeBytes t.dtype ≠ 0) :
    packedNbytes t.quantFormat (shapeNumel t.shape) = estimateTensorBytes t ↔
      t.quantFormat = .q8_0 ∧ dtypeSizeBytes t.dtype = 1 ∧ shapeNumel t.shape % 32 = 2 * (shapeNumel t.shape / 32) := by
  have hsmall : dtypeSizeBytes t.dtype * shapeNumel t.shape < 2 ^ 64 := by
    rcases dtypeSizeBytes_cases t.dtype with h | h | h | h | h <;> rw [h] <;> omega
  rw [estimate_eq, wrap64_of_lt hsmall, packedNbytes_of_lt hq (by omega)]
  exact blocks_eq_iff hq hn hd

theorem sessionBytes_eq_iff {options : SessionOptions} {t : Tensor} (hw : t.isWeight = true)
    (hpos : options.enableMemoryReuse = false → keptPacked options t = false →
      estimateTensorBytes { t with dtype := .f32 } ≠ 0) :
    sessionBytes options t = weightResidentBytes t ↔ SizesAgree options t := by
  have hkept : keptPacked options t = (options.keepQuantizedWeights && isGgufBlockQuant t.quantFormat) := by
    simp [keptPacked, hw]
  unfold sessionBytes weightResidentBytes SizesAgree
  rw [hkept] at hpos ⊢
  cases hq : isGgufBlockQuant t.quantFormat with
  | true =>
    cases hr : options.enableMemoryReuse <;> cases hk : options.keepQuantizedWeights <;> simp [hw, eq_comm]
  | false =>
    cases hr : options.enableMemoryReuse with
    | true => simp
    | false =>
      have hne := hpos hr (by simp [hq])
      rw [estimate_eq] at hne
      have hword := word_eq_iff (d := t.dtype) hne
      rw [← estimate_eq t] at hword
      simp only [Bool.false_eq_true, Bool.and_false, if_false, false_or, estimate_eq { t with dtype := .f32 }]
      exact hword

/-! ## What is planned -/

section Planned

variable {R : Type} {g : Graph R} {sopts : StoragePlanOptions} {plan : StoragePlan}

/-- A weight's placement counts its resident size. -/
theorem planned_bytes (hids : (g.tensors.map (·.id)).Nodup) (h : buildStoragePlan g sopts = .ok plan) {t : Tensor}
    (ht : t ∈ g.tensors) :
    (∃ p ∈ plan.placements, p.tensorId = t.id) ∧
      ∀ p ∈ plan.placements, p.tensorId = t.id → p.bytes = weightResidentBytes t := by
  obtain ⟨place, hps, hplace⟩ := buildStoragePlan_placements h
  rw [hps]
  refine ⟨⟨place t, List.mem_map_of_mem ht, (hplace t).1⟩, fun p hp hid => ?_⟩
  obtain ⟨u, hu, rfl⟩ := List.mem_map.mp hp
  rw [(hplace u).1] at hid
  rw [(hplace u).2, List.inj_on_of_nodup_map hids hu ht hid]

end Planned

/-! ## What is reserved -/

section Reserved

variable {R : Type} {options : SessionOptions} {streamed : TensorId → Bool} {h : HashOrder} {g : Graph R}
  {ops : List PlannedOp} {a : Allocator} {buffers : Buffers} {owned : List OwnedSlot}

/-- A weight is its slot's only tenant. -/
theorem weight_slot_bytes (hids : (g.tensors.map (·.id)).Nodup) {t : Tensor} (ht : t ∈ g.tensors)
    (hw : t.isWeight = true) {slot : BufferSlot} (hslot : slot ∈ (buildMemoryReusePlan h g ops).slots)
    (hsid : (buildMemoryReusePlan h g ops).slotOf t.id = some slot.slotId) : slot.bytes = estimateTensorBytes t := by
  have hplan := buildMemoryReusePlan_ok h g ops
  rcases List.mem_iff_getElem?.mp hslot with ⟨i, hi⟩
  rcases slotOf_tensor h g ops ht with ⟨sid, own, hown, hget, hmem⟩
  have hidx : sid = i := by
    rw [hown, hplan.ids i slot hi] at hsid
    exact Option.some.inj hsid
  subst hidx
  obtain rfl : own = slot := Option.some.inj (hget.symm.trans hi)
  rcases slot_life h g ops hi with ⟨life, hlife, hmem', hbytes⟩
  -- another tenant would be an activation, and so would the weight
  have hid : life.tensorId = t.id := by
    by_contra hne
    rcases lifetimes_weight h g ops hids ht with ⟨lt, hlt, hltid, hltw⟩
    have hpin : lt.pinned = true := by simp [TensorLifetime.pinned, hltw, hw]
    rcases tenants_disjoint h g ops hi hne hmem' hmem with hb | hb
    · exact absurd (hb life hlife rfl lt hlt hltid).2.1 (by simp [hpin])
    · exact absurd (hb lt hlt hltid life hlife rfl).1 (by simp [hpin])
  rw [← hbytes, (lifetimes_bytes h g ops).1 life hlife, hid, lifeBytes, byId_eq hids ht]
  rfl

theorem find_data {o : OwnedSlot} (hnd : (owned.map (·.data)).Nodup) (ho : o ∈ owned) :
    owned.find? (·.data == o.data) = some o :=
  Lists.find?_of_nodup hnd ho

/-- What is reserved for a weight: by its slot, or by its own buffer. -/
theorem reserved_eq (hids : (g.tensors.map (·.id)).Nodup)
    (hok : allocateAllTensors options streamed g (buildMemoryReusePlan h g ops) a = .ok (buffers, owned)) {t : Tensor}
    (ht : t ∈ g.tensors) (hw : t.isWeight = true) (hst : streamed t.id = false) :
    reservedBytes buffers owned t.id = some (sessionBytes options t) ∧
      (options.enableMemoryReuse = false → keptPacked options t = false → estimateTensorBytes { t with dtype := .f32 } ≠ 0) := by
  by_cases hreuse : options.enableMemoryReuse = true
  · have hreuses : reuses options (buildMemoryReusePlan h g ops) = true := by
      rcases slotOf_tensor h g ops ht with ⟨sid, slot, -, hget, -⟩
      cases hs : (buildMemoryReusePlan h g ops).slots with
      | nil => simp [hs] at hget
      | cons s ss => simp [reuses, hreuse, hs]
    rcases view_slot hreuses hok (findTensor_of_nodup hids ht) hst with ⟨b, o, slot, hb, ho, hdata, -, hslot, hsid, -, hbytes⟩
    have hsize := weight_slot_bytes hids ht hw hslot hsid
    refine ⟨?_, fun hno => by simp [hreuse] at hno⟩
    simp [reservedBytes, hb, destOf, hdata, find_data (owned_nodup hreuses hok) ho, sessionBytes, hreuse, ← hbytes, hsize]
  · have hoff : reuses options (buildMemoryReusePlan h g ops) = false := by simp [reuses, hreuse]
    rw [allocateAllTensors, if_neg (by simp [hoff])] at hok
    obtain ⟨buffers', hnaive, hok⟩ := bind_ok hok
    cases hok
    rcases (allocateNaive_ok _ _ _ _ hnaive hids fun _ _ => rfl).1 t ht hst with ⟨b, ptr, hb, -, hown⟩
    have hroom : reservedBytes buffers [] t.id = some b.nbytes := by simp [reservedBytes, hb, destOf, hown.data]
    by_cases hkept : keptPacked options t = true
    · refine ⟨?_, fun _ hno => by simp [hkept] at hno⟩
      simp [hroom, sessionBytes, hreuse, hkept, hown.packedNbytes hkept]
    · rcases hown.nbytes (by simpa using hkept) with ⟨hbytes, hpos⟩
      refine ⟨?_, fun _ _ => hbytes ▸ hpos⟩
      simp [hroom, sessionBytes, hreuse, hkept, hbytes]

end Reserved

/-! ## What is reserved is what is planned -/

section Agree

variable {R : Type} {options : SessionOptions} {h : HashOrder} {g : Graph R} {ops : List PlannedOp} {a : Allocator}
  {buffers : Buffers} {owned : List OwnedSlot} {sopts : StoragePlanOptions} {plan : StoragePlan}

/-- The weights a session keeps in RAM. -/
def pinnedWeights (g : Graph R) (streamed : TensorId → Bool) : List Tensor :=
  g.tensors.filter fun t => t.isWeight && !streamed t.id

/-- The session reserves what was planned, for each weight and altogether. -/
structure ReservesPlanned (g : Graph R) (plan : StoragePlan) (streamed : TensorId → Bool) (buffers : Buffers)
    (owned : List OwnedSlot) : Prop where
  each : ∀ t ∈ pinnedWeights g streamed, ∀ p ∈ plan.placements, p.tensorId = t.id →
    reservedBytes buffers owned t.id = some p.bytes
  total : ((pinnedWeights g streamed).map fun t => (reservedBytes buffers owned t.id).getD 0).sum = residentBytes g plan

/-- A session streams what the plan streams. -/
theorem streamsUnder_iff (hplan : buildStoragePlan g sopts = .ok plan) (id : TensorId) :
    streamsUnder sopts plan id = true ↔ ∃ p ∈ plan.placements, p.stream = true ∧ p.tensorId = id := by
  have hstore : (Store.configure plan).isStreamed id = true ↔ ∃ p ∈ plan.placements, p.stream = true ∧ p.tensorId = id := by
    simp [Store.isStreamed, Store.placement, Store.configure, List.find?_isSome, and_assoc]
  rw [streamsUnder, Bool.and_eq_true, Bool.and_eq_true, hstore]
  apply Iff.intro
  · exact fun hs => hs.2
  · rintro ⟨p, hp, hs, hid⟩
    exact ⟨buildStoragePlan_streams hplan hp hs, p, hp, hs, hid⟩

/-- What the plan counts for its pinned weights. -/
theorem residentBytes_pinned (hids : (g.tensors.map (·.id)).Nodup) (hplan : buildStoragePlan g sopts = .ok plan) :
    residentBytes g plan = ((pinnedWeights g (streamsUnder sopts plan)).map weightResidentBytes).sum := by
  rcases buildStoragePlan_placements hplan with ⟨place, hps, hplace⟩
  have hstream : ∀ t ∈ g.tensors, (place t).stream = streamsUnder sopts plan t.id := by
    intro t ht
    apply Bool.eq_iff_iff.mpr
    rw [streamsUnder_iff hplan, hps]
    apply Iff.intro
    · exact fun hs => ⟨place t, List.mem_map_of_mem ht, hs, (hplace t).1⟩
    · rintro ⟨p, hp, hs, hid⟩
      rcases List.mem_map.mp hp with ⟨u, hu, rfl⟩
      rw [(hplace u).1] at hid
      rwa [List.inj_on_of_nodup_map hids hu ht hid] at hs
  rw [residentBytes, hps, ← List.map_prod_left_eq_zip, List.filter_map, List.map_map, pinnedWeights]
  have hfilter : g.tensors.filter ((fun e => e.1.isWeight && !e.2.stream) ∘ fun t => (t, place t)) =
      g.tensors.filter fun t => t.isWeight && !streamsUnder sopts plan t.id := by
    refine List.filter_congr fun t ht => ?_
    show (t.isWeight && !(place t).stream) = _
    rw [hstream t ht]
  rw [hfilter]
  exact congrArg List.sum (List.map_congr_left fun t _ => (hplace t).2)

/-- When the weights and the plan are allocated: each pinned weight takes the bytes the plan
    counted, and so do all of them, exactly when the rules agree on every one. -/
theorem weights_reserve_planned_iff (hids : (g.tensors.map (·.id)).Nodup) (hplan : buildStoragePlan g sopts = .ok plan)
    (hok : allocateAllTensors options (streamsUnder sopts plan) g (buildMemoryReusePlan h g ops) a = .ok (buffers, owned)) :
    ReservesPlanned g plan (streamsUnder sopts plan) buffers owned ↔
      ∀ t ∈ g.tensors, t.isWeight = true → streamsUnder sopts plan t.id = false → SizesAgree options t := by
  have hmem : ∀ t, t ∈ pinnedWeights g (streamsUnder sopts plan) ↔
      t ∈ g.tensors ∧ t.isWeight = true ∧ streamsUnder sopts plan t.id = false := by
    intro t
    simp [pinnedWeights]
  apply Iff.intro
  · intro hall t ht hw hst
    rcases reserved_eq hids hok ht hw hst with ⟨hbytes, hpos⟩
    rcases planned_bytes hids hplan ht with ⟨⟨p, hp, hid⟩, hplanned⟩
    have hone := hall.each t ((hmem t).mpr ⟨ht, hw, hst⟩) p hp hid
    rw [hbytes, hplanned p hp hid] at hone
    exact (sessionBytes_eq_iff hw hpos).mp (Option.some.inj hone)
  · intro hagree
    have heach : ∀ t ∈ pinnedWeights g (streamsUnder sopts plan),
        reservedBytes buffers owned t.id = some (weightResidentBytes t) := by
      intro t ht
      rcases (hmem t).mp ht with ⟨ht, hw, hst⟩
      rcases reserved_eq hids hok ht hw hst with ⟨hbytes, hpos⟩
      rw [hbytes, (sessionBytes_eq_iff hw hpos).mpr (hagree t ht hw hst)]
    refine ⟨fun t ht p hp hid => ?_, ?_⟩
    · rw [heach t ht, (planned_bytes hids hplan ((hmem t).mp ht).1).2 p hp hid]
    · rw [residentBytes_pinned hids hplan]
      refine congrArg List.sum (List.map_congr_left fun t ht => ?_)
      rw [heach t ht]
      rfl

end Agree

/-! ## One weight of two blocks -/

def twoRows (format : QuantFormat) : Graph Int where
  version := ⟨1, 0⟩
  name := "rows"
  producer := ""
  domain := "uaii"
  tensors := [⟨1, "blk.0.attn_q.weight", .f32, [2, 32], .external, true, "m.gguf#blk.0.attn_q.weight", format⟩]
  nodes := []
  inputs := []
  outputs := []
  metadata := []

/-- No budget: nothing streams. -/
def laptopOptions : StoragePlanOptions := ⟨0, true, true, 0, 0, 2⟩

/-- A Q4_0 weight is planned at 36 bytes. Its slot has 256, though quantised weights are
    kept. -/
theorem packed_weight_takes_floats :
    ∃ plan buffers owned, buildStoragePlan (twoRows .q4_0) laptopOptions = .ok plan ∧
      reuseOptions.keepQuantizedWeights = true ∧
      allocateAllTensors reuseOptions (streamsUnder laptopOptions plan) (twoRows .q4_0)
        (buildMemoryReusePlan .inserted (twoRows .q4_0) []) freeAllocator = .ok (buffers, owned) ∧
      plan.placements.map (·.bytes) = [36] ∧ reservedBytes buffers owned 1 = some 256 ∧
      ¬ ReservesPlanned (twoRows .q4_0) plan (streamsUnder laptopOptions plan) buffers owned := by
  refine ⟨_, _, _, rfl, rfl, rfl, by decide, by decide, ?_⟩
  intro hall
  have hone := hall.each _ (List.mem_singleton.mpr rfl) _ (List.mem_singleton.mpr rfl) rfl
  exact absurd hone (by decide)

/-- A float weight takes its 256 bytes. -/
theorem float_weight_takes_planned :
    ∃ plan buffers owned, buildStoragePlan (twoRows .f32) laptopOptions = .ok plan ∧
      allocateAllTensors reuseOptions (streamsUnder laptopOptions plan) (twoRows .f32)
        (buildMemoryReusePlan .inserted (twoRows .f32) []) freeAllocator = .ok (buffers, owned) ∧
      ReservesPlanned (twoRows .f32) plan (streamsUnder laptopOptions plan) buffers owned := by
  refine ⟨_, _, _, rfl, rfl, (weights_reserve_planned_iff (by decide) (show buildStoragePlan (twoRows .f32) laptopOptions = _
    from rfl) (show allocateAllTensors reuseOptions (streamsUnder laptopOptions _) (twoRows .f32)
    (buildMemoryReusePlan .inserted (twoRows .f32) []) freeAllocator = _ from rfl)).mpr ?_⟩
  intro t ht _ _
  obtain rfl := List.mem_singleton.mp ht
  decide

end Uaii.Runtime
