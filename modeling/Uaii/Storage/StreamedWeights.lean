/-
  Uaii.Storage.StreamedWeights — what a streaming plan says of each tensor
  (`libs/uaii-planner/src/storage_plan.cpp`), and what `StreamingWeightStore::configure`
  takes over from it (`libs/uaii-storage/src/streaming.cpp`).

  Tensors and placements go together by position: the planner does not ask whether ids
  are unique. Where they are, a window or a handle found by its id is the tensor's own.

  Proved: every weight with bytes streams through one window of all of them, or is in
  RAM and has none; expert weights stream, activations do not; and the counters and the
  store agree with the windows (`plan_streams`).

  As built, `staging_bytes` is the largest weight when nothing is streamed, which happens
  when the names of all weights pin them (`pinned_norm_has_no_window`).
-/

import Uaii.Planner.StorageFits
import Uaii.Storage.Streaming

namespace Uaii.Storage

open Uaii.Ir Uaii.Planner

variable {R : Type} {g : Graph R} {options : StoragePlanOptions} {plan : StoragePlan}

/-- A tensor's placement in a streaming plan. -/
structure Settled (t : Tensor) (p : StoragePlacement) : Prop where
  tensorId : p.tensorId = t.id
  name : p.name = t.name
  bytes : p.bytes = weightResidentBytes t
  expert : p.expert = (t.isWeight && isMoeExpertWeightName t.name)
  weight : t.isWeight = true → p.bytes ≠ 0 → p.stream = true ∨ p.stream = false ∧ p.tier = .ram
  expert_streams : p.expert = true → p.bytes ≠ 0 → p.stream = true
  activation : t.isWeight = false → p.stream = false
  empty : p.bytes = 0 → p.stream = false

/-- All of a placement. -/
def windowOf (p : StoragePlacement) : StreamingWindow := ⟨p.tensorId, 0, p.bytes⟩

/-- The parts of a streaming plan agree. -/
structure PlanStreams (g : Graph R) (options : StoragePlanOptions) (plan : StoragePlan) : Prop where
  placements : List.Forall₂ Settled g.tensors plan.placements
  windows : plan.windows = (plan.placements.filter (·.stream)).map windowOf
  one : (g.tensors.map (·.id)).Nodup → ∀ p ∈ plan.placements,
    plan.windows.filter (·.tensorId == p.tensorId) = if p.stream then [windowOf p] else []
  experts : plan.expertWindows = ((plan.placements.filter (·.stream)).filter (·.expert)).length
  experts_by_id : (g.tensors.map (·.id)).Nodup →
    plan.expertWindows = (plan.windows.filter fun w => plan.placements.any fun p => p.tensorId == w.tensorId && p.expert).length
  staging : plan.windows ≠ [] →
    (∃ w ∈ plan.windows, w.size = plan.stagingBytes) ∧ ∀ w ∈ plan.windows, w.size ≤ plan.stagingBytes
  no_window : plan.windows = [] → plan.stagingBytes = maxBytes (weightPlacements options g)
  /-- The store streams what has a window, into a buffer that holds it. -/
  store : ∀ id, (Store.configure plan).isStreamed id = true ↔ ∃ w ∈ plan.windows, w.tensorId = id
  buffers : ∀ w ∈ plan.windows, w.size ≤ ((Store.configure plan).buffers 0).length

section Settle

variable {tight : Bool} {d : Dial}

/-- What can stream does, or is pinned; an expert is not pinned. -/
theorem settle_paged {p : StoragePlacement} (hp : p.paged = true) :
    ((settlePlacement tight d p).stream = true ∨
      (settlePlacement tight d p).stream = false ∧ (settlePlacement tight d p).tier = .ram) ∧
    (p.expert = true → (settlePlacement tight d p).stream = true) := by
  unfold settlePlacement
  rw [hp, Bool.not_true, if_neg Bool.false_ne_true]
  split
  · exact ⟨.inl rfl, fun _ => rfl⟩
  · next hpin =>
    refine ⟨.inr ⟨rfl, rfl⟩, fun he => ?_⟩
    rw [he, Bool.true_or] at hpin
    exact absurd rfl hpin

theorem settle_unpaged {p : StoragePlacement} (hp : p.paged = false) : settlePlacement tight d p = p := by
  unfold settlePlacement
  rw [hp]
  rfl

theorem settle_settled (t : Tensor) : Settled t (settlePlacement tight d (initialPlacement options t)) := by
  obtain ⟨-, hname, -, hexpert⟩ := settle_same tight d (initialPlacement options t)
  have hpaged : t.isWeight = true → (settlePlacement tight d (initialPlacement options t)).bytes ≠ 0 →
      (initialPlacement options t).paged = true := fun hw hb => weight_paged hw (by rwa [settle_bytes] at hb)
  have hunpaged : (initialPlacement options t).paged = false → (settlePlacement tight d (initialPlacement options t)).stream = false :=
    fun hp => by rw [settle_unpaged hp]; rfl
  refine ⟨settle_tensorId _, hname, settle_bytes _, hexpert, fun hw hb => (settle_paged (hpaged hw hb)).1, fun he hb => ?_,
    fun hw => hunpaged ?_, fun hb => hunpaged ?_⟩
  · rw [hexpert] at he
    have hw : t.isWeight = true := (Bool.and_eq_true_iff.mp he).1
    exact (settle_paged (hpaged hw hb)).2 he
  · cases hp : (initialPlacement options t).paged with
    | false => rfl
    | true => rw [paged_weight hp] at hw; cases hw
  · rw [settle_bytes] at hb
    simp [StoragePlacement.paged, hb]

end Settle

/-- The fields of a plan that streams. -/
theorem buildStoragePlan_streaming (h : buildStoragePlan g options = .ok plan) (hreq : plan.streamingRequired = true) :
    ∃ tight d, plan.placements = g.tensors.map (fun t => settlePlacement tight d (initialPlacement options t)) ∧
      plan.windows = (plan.placements.filter (·.stream)).map windowOf ∧
      plan.expertWindows = ((plan.placements.filter (·.stream)).filter (·.expert)).length ∧
      plan.stagingBytes = (if 0 < maxBytes (plan.placements.filter (·.stream)) then maxBytes (plan.placements.filter (·.stream))
        else maxBytes (weightPlacements options g)) := by
  unfold buildStoragePlan at h
  simp only at h
  split at h
  · split at h
    · split at h
      · exact absurd h (fail_ne_ok _ _ _)
      · cases h
        exact ⟨_, _, List.map_map, rfl, rfl, rfl⟩
    · cases h
      exact ⟨_, _, List.map_map, rfl, rfl, rfl⟩
  · cases h
    cases hreq

/-- The largest of placements with bytes is one of them. -/
theorem maxBytes_mem {ps : List StoragePlacement} (h : ps ≠ []) : ∃ p ∈ ps, p.bytes = maxBytes ps := by
  have hfold : ∀ (ps : List StoragePlacement) (n : Nat), ps.foldl (fun n p => max n p.bytes) n = n ∨
      ∃ p ∈ ps, p.bytes = ps.foldl (fun n p => max n p.bytes) n := by
    intro ps
    induction ps with
    | nil => exact fun n => .inl rfl
    | cons p ps ih =>
      intro n
      rw [List.foldl_cons]
      rcases ih (max n p.bytes) with hsame | ⟨q, hq, hmax⟩
      · rw [hsame]
        by_cases hle : n ≤ p.bytes
        · exact .inr ⟨p, List.mem_cons_self, by omega⟩
        · exact .inl (by omega)
      · exact .inr ⟨q, List.mem_cons_of_mem _ hq, hmax⟩
  obtain ⟨p, ps, rfl⟩ := List.exists_cons_of_ne_nil h
  rcases hfold (p :: ps) 0 with hzero | hmem
  · refine ⟨p, List.mem_cons_self, ?_⟩
    have hle : p.bytes ≤ maxBytes (p :: ps) := le_maxBytes List.mem_cons_self
    unfold maxBytes at hle ⊢
    omega
  · exact hmem

section Placements

variable {ps : List StoragePlacement}

/-- Without repeated ids, a placement has a window of its id exactly when it streams. -/
theorem windows_of_id (hids : (ps.map (·.tensorId)).Nodup) {p : StoragePlacement} (hp : p ∈ ps) :
    ((ps.filter (·.stream)).map windowOf).filter (·.tensorId == p.tensorId) = if p.stream then [windowOf p] else [] := by
  have hone : ps.filter (·.tensorId == p.tensorId) = [p] := Lists.filter_of_nodup hids hp
  have hcomm : (ps.filter (·.stream)).filter (fun q => (windowOf q).tensorId == p.tensorId) =
      (ps.filter (·.tensorId == p.tensorId)).filter (·.stream) := by
    rw [List.filter_filter, List.filter_filter]
    exact List.filter_congr fun q _ => Bool.and_comm _ _
  rw [List.filter_map]
  show ((ps.filter (·.stream)).filter (fun q => (windowOf q).tensorId == p.tensorId)).map windowOf = _
  rw [hcomm, hone]
  cases hs : p.stream with
  | true => simp [hs]
  | false => simp [hs]

/-- Without repeated ids, an expert's window is known by its id. -/
theorem expert_windows (hids : (ps.map (·.tensorId)).Nodup) :
    ((ps.filter (·.stream)).filter (·.expert)).length =
      (((ps.filter (·.stream)).map windowOf).filter fun w => ps.any fun p => p.tensorId == w.tensorId && p.expert).length := by
  rw [List.filter_map, List.length_map]
  refine congrArg List.length (List.filter_congr fun p hp => ?_)
  have hmem := (List.mem_filter.mp hp).1
  show p.expert = ps.any fun q => q.tensorId == p.tensorId && q.expert
  cases he : p.expert with
  | true => exact (List.any_eq_true.mpr ⟨p, hmem, by simp [he]⟩).symm
  | false =>
    refine (List.any_eq_false.mpr fun q hq hand => ?_).symm
    obtain ⟨hid, hqe⟩ := Bool.and_eq_true_iff.mp hand
    rw [List.inj_on_of_nodup_map hids hq hmem (beq_iff_eq.mp hid), he] at hqe
    cases hqe

/-- The windows of what streams, none of them empty: the largest has the size of the
    largest placement. -/
theorem windows_largest (hbytes : ∀ p ∈ ps.filter (·.stream), p.bytes ≠ 0) (hne : (ps.filter (·.stream)).map windowOf ≠ []) :
    0 < maxBytes (ps.filter (·.stream)) ∧
      (∃ w ∈ (ps.filter (·.stream)).map windowOf, w.size = maxBytes (ps.filter (·.stream))) ∧
      ∀ w ∈ (ps.filter (·.stream)).map windowOf, w.size ≤ maxBytes (ps.filter (·.stream)) := by
  have hsome : ps.filter (·.stream) ≠ [] := fun hnil => hne (by rw [hnil]; rfl)
  obtain ⟨p, hp, hmax⟩ := maxBytes_mem hsome
  have hpos := hbytes p hp
  refine ⟨by omega, ⟨windowOf p, List.mem_map_of_mem hp, hmax⟩, fun w hw => ?_⟩
  obtain ⟨q, hq, rfl⟩ := List.mem_map.mp hw
  exact le_maxBytes hq

end Placements

/-- The store streams what streams. -/
theorem configure_streams (plan : StoragePlan) (id : TensorId) :
    (Store.configure plan).isStreamed id = true ↔ ∃ p ∈ plan.placements.filter (·.stream), p.tensorId = id := by
  simp only [Store.isStreamed, Store.placement, Store.configure, List.find?_isSome, List.mem_reverse, beq_iff_eq]

theorem plan_streams (h : buildStoragePlan g options = .ok plan) (hreq : plan.streamingRequired = true) :
    PlanStreams g options plan := by
  obtain ⟨tight, d, hplace, hwindows, hexperts, hstaging⟩ := buildStoragePlan_streaming h hreq
  have hsettled : List.Forall₂ Settled g.tensors plan.placements := by
    rw [hplace, List.forall₂_map_right_iff]
    exact List.forall₂_same.mpr fun t _ => settle_settled t
  have hids : plan.placements.map (·.tensorId) = g.tensors.map (·.id) := by
    rw [hplace, List.map_map]
    exact List.map_congr_left fun t _ => settle_tensorId _
  have hbytes : ∀ p ∈ plan.placements.filter (·.stream), p.bytes ≠ 0 := by
    intro p hp hzero
    obtain ⟨hmem, hstream⟩ := List.mem_filter.mp hp
    rw [hplace] at hmem
    obtain ⟨t, -, rfl⟩ := List.mem_map.mp hmem
    rw [(settle_settled t).empty hzero] at hstream
    cases hstream
  have hlargest : plan.windows ≠ [] →
      (∃ w ∈ plan.windows, w.size = plan.stagingBytes) ∧ ∀ w ∈ plan.windows, w.size ≤ plan.stagingBytes := by
    intro hne
    rw [hwindows] at hne ⊢
    obtain ⟨hpos, hlarge⟩ := windows_largest hbytes hne
    rw [hstaging, if_pos hpos]
    exact hlarge
  refine ⟨hsettled, hwindows, fun hnd p hp => ?_, hexperts, fun hnd => ?_, hlargest, fun hnil => ?_, fun id => ?_, fun w hw => ?_⟩
  · rw [← hids] at hnd
    rw [hwindows]
    exact windows_of_id hnd hp
  · rw [← hids] at hnd
    rw [hexperts, hwindows]
    exact expert_windows hnd
  · have hnone : plan.placements.filter (·.stream) = [] := by
      rw [hwindows] at hnil
      exact List.map_eq_nil_iff.mp hnil
    rw [hstaging, hnone]
    rfl
  · rw [configure_streams, hwindows]
    simp only [List.mem_map, exists_exists_and_eq_and, windowOf]
  · have hsize := (hlargest (List.ne_nil_of_mem hw)).2 w hw
    simp only [Store.configure, true_or, if_true, List.length_replicate]
    omega

/-- Two experts, over a budget of a byte. -/
def expertsGraph : Graph Unit := ⟨kCurrentIrVersion, "experts", "", "",
  [weightTensor 1 "blk.0.ffn_up_exps#e=0" 2 2, weightTensor 2 "blk.0.ffn_up_exps#e=1" 2 2], [], [], [], []⟩

theorem experts_plan_streams : ∃ plan, buildStoragePlan expertsGraph ⟨1, true, true, 0, 0, 2⟩ = .ok plan ∧
    plan.windows = [⟨1, 0, 16⟩, ⟨2, 0, 16⟩] ∧ PlanStreams expertsGraph ⟨1, true, true, 0, 0, 2⟩ plan :=
  ⟨_, rfl, by decide +kernel, plan_streams rfl (by decide +kernel)⟩

/-- A norm of 16 bytes. -/
def smallNorm : Graph Unit := ⟨kCurrentIrVersion, "norm", "", "", [weightTensor 1 "model.norm.weight" 2 2], [], [], [], []⟩

/-- Over a budget of four it is pinned, and the staging buffer is of its size. -/
theorem pinned_norm_has_no_window : ∃ plan, buildStoragePlan smallNorm ⟨4, true, true, 0, 0, 2⟩ = .ok plan ∧
    plan.streamingRequired = true ∧ plan.windows = [] ∧ plan.stagingBytes = 16 ∧
      ¬ ∃ w ∈ plan.windows, w.size = plan.stagingBytes :=
  ⟨_, rfl, by decide +kernel, by decide +kernel, by decide +kernel, by decide +kernel⟩

end Uaii.Storage
