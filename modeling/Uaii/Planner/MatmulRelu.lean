/-
  Uaii.Planner.MatmulRelu — pass 2 of `apply_fusion_passes` on any graph whose node ids
  are distinct, whose tensors have one producer and which has no cycle.

  Every Relu that alone reads a MatMul's output is folded into it, so pairs are disjoint:
  the MatMul's output is read by no other node, and no node is both a MatMul and a Relu.
  The folded pair reads what the MatMul read and writes what the Relu wrote.

  Proved: the pass keeps ids, producers and acyclicity, and every tensor that is still
  read keeps its producer (`PassSound`); where MatMulRelu is the Relu of the MatMul, the
  graph outputs keep their values (`matmulReluPass_sound`).
-/

import Mathlib.Data.List.Flatten
import Uaii.Ir.PlanExact
import Uaii.Planner.Fusion

namespace Uaii.Planner

open Uaii.Ir

variable {R : Type} {g : Graph R}

/-! ## The pairs -/

/-- A Relu that is folded: its input is the output of a MatMul, read by it alone. -/
theorem fusible_some {relu mm : Node R} (h : fusible g relu = some mm) :
    ∃ o o', relu.opName = "Relu" ∧ relu.inputs = [o] ∧ relu.outputs = [o'] ∧ mm ∈ g.nodes ∧ mm.opName = "MatMul" ∧
      mm.outputs = [o] ∧ countConsumers g o = 1 ∧ isGraphIo g o = false := by
  unfold fusible at h
  split at h
  · rename_i i o' hin hout
    split at h
    · rename_i hop
      split at h
      · rename_i m hprod
        split at h
        · rename_i o houts
          split at h
          · rename_i hcond
            obtain rfl := Option.some.inj h
            have hmem : i ∈ m.outputs := by simpa using List.find?_some hprod
            rw [houts, List.mem_singleton] at hmem
            subst hmem
            exact ⟨i, o', hop, hin, hout, List.mem_reverse.mp (List.mem_of_find?_eq_some hprod), hcond.1, houts, hcond.2.1,
              hcond.2.2⟩
          · cases h
        · cases h
      · cases h
    · cases h
  · cases h

/-- Two nodes that read a tensor count twice. -/
theorem sole_consumer {o : TensorId} (hcount : countConsumers g o = 1) {m n : Node R} (hm : m ∈ g.nodes) (hn : n ∈ g.nodes)
    (hom : o ∈ m.inputs) (hon : o ∈ n.inputs) : m = n := by
  by_contra hne
  have hsum : ∀ (l : List (Node R)), m ∈ l → n ∈ l → 2 ≤ (l.map fun k => k.inputs.count o).sum := by
    have hone : ∀ (l : List (Node R)) (k : Node R), k ∈ l → o ∈ k.inputs → 1 ≤ (l.map fun k => k.inputs.count o).sum := by
      intro l
      induction l with
      | nil => intro k hk; cases hk
      | cons c l ih =>
        intro k hk ho
        rw [List.map_cons, List.sum_cons]
        rcases List.mem_cons.mp hk with rfl | hk
        · have := List.count_pos_iff.mpr ho
          omega
        · have := ih k hk ho
          omega
    intro l
    induction l with
    | nil => intro hm; cases hm
    | cons c l ih =>
      intro hm hn
      rw [List.map_cons, List.sum_cons]
      rcases List.mem_cons.mp hm with rfl | hm'
      · rcases List.mem_cons.mp hn with hnm | hn'
        · exact absurd hnm.symm hne
        · have h1 := hone l n hn' hon
          have h2 := List.count_pos_iff.mpr hom
          omega
      · rcases List.mem_cons.mp hn with rfl | hn'
        · have h1 := hone l m hm' hom
          have h2 := List.count_pos_iff.mpr hon
          omega
        · have := ih hm' hn'
          omega
  have h2 := hsum g.nodes hm hn
  unfold countConsumers at hcount
  omega

theorem mem_fusedIds {id : NodeId} :
    id ∈ fusedIds g ↔ ∃ relu ∈ g.nodes, ∃ mm, fusible g relu = some mm ∧ (id = mm.id ∨ id = relu.id) := by
  unfold fusedIds
  rw [List.mem_flatMap]
  apply Iff.intro
  · intro h
    obtain ⟨relu, hrelu, hid⟩ := h
    cases hf : fusible g relu with
    | none => rw [hf] at hid; cases hid
    | some mm => exact ⟨relu, hrelu, mm, hf, by simpa [hf] using hid⟩
  · intro h
    obtain ⟨relu, hrelu, mm, hf, hid⟩ := h
    exact ⟨relu, hrelu, by rw [hf]; simpa using hid⟩

theorem mem_fusedNodes {m : Node R} : m ∈ fusedNodes g ↔ ∃ relu ∈ g.nodes, ∃ mm, fusible g relu = some mm ∧ fusedNode mm relu = m := by
  simp only [fusedNodes, List.mem_filterMap, Option.map_eq_some_iff]

/-- The nodes after the pass; with nothing to fold they are as they were. -/
theorem matmulReluPass_nodes (g : Graph R) :
    (matmulReluPass g).nodes = g.nodes.filter (·.id ∉ fusedIds g) ++ fusedNodes g := by
  unfold matmulReluPass
  split
  · rename_i hnil
    have hnone : ∀ relu ∈ g.nodes, fusible g relu = none := by
      intro relu hrelu
      cases hf : fusible g relu with
      | none => rfl
      | some mm =>
        have hmem : mm.id ∈ fusedIds g := mem_fusedIds.mpr ⟨relu, hrelu, mm, hf, Or.inl rfl⟩
        rw [hnil] at hmem
        cases hmem
    have hfused : fusedNodes g = [] := by
      refine List.filterMap_eq_nil_iff.mpr fun relu hrelu => ?_
      rw [hnone relu hrelu]
      rfl
    rw [hnil, hfused]
    simp
  · rfl

theorem mem_matmulReluPass {m : Node R} : m ∈ (matmulReluPass g).nodes ↔
    (m ∈ g.nodes ∧ m.id ∉ fusedIds g) ∨ ∃ relu ∈ g.nodes, ∃ mm, fusible g relu = some mm ∧ fusedNode mm relu = m := by
  rw [matmulReluPass_nodes, List.mem_append, List.mem_filter, mem_fusedNodes]
  simp

/-! ## What is left -/

/-- A node that is left goes up in rank, a folded pair through the tensor between its parts. -/
theorem matmulReluPass_rank {rank : TensorId → Nat}
    (hrank : ∀ n ∈ g.nodes, ∀ x ∈ n.inputs, ∀ o ∈ n.outputs, rank x < rank o) {m : Node R}
    (hm : m ∈ (matmulReluPass g).nodes) : ∀ x ∈ m.inputs, ∀ o ∈ m.outputs, rank x < rank o := by
  rcases mem_matmulReluPass.mp hm with ⟨hmem, -⟩ | ⟨relu, hrelu, mm, hf, rfl⟩
  · exact hrank m hmem
  · intro x hx u hu
    obtain ⟨o, o', -, hin, -, hmm, -, hmmout, -⟩ := fusible_some hf
    have h1 := hrank mm hmm x hx o (by simp [hmmout])
    have h2 := hrank relu hrelu o (by simp [hin]) u hu
    omega

/-- It reads and writes tensors that nodes read and wrote before. -/
theorem matmulReluPass_touches {m : Node R} (hm : m ∈ (matmulReluPass g).nodes) {t : TensorId}
    (ht : t ∈ m.inputs ∨ t ∈ m.outputs) : ∃ n ∈ g.nodes, t ∈ n.inputs ∨ t ∈ n.outputs := by
  rcases mem_matmulReluPass.mp hm with ⟨hmem, -⟩ | ⟨relu, hrelu, mm, hf, rfl⟩
  · exact ⟨m, hmem, ht⟩
  · obtain ⟨-, -, -, -, -, hmm, -⟩ := fusible_some hf
    rcases ht with ht | ht
    · exact ⟨mm, hmm, Or.inl ht⟩
    · exact ⟨relu, hrelu, Or.inr ht⟩

theorem liveTensors_declared {g : Graph R} {nodes : List (Node R)} {outputs : List TensorId} {n : Node R} (hn : n ∈ nodes)
    {t : TensorId} (ht : t ∈ n.inputs ∨ t ∈ n.outputs) (hdecl : t ∈ g.tensors.map (·.id)) :
    t ∈ (liveTensors g nodes outputs).map (·.id) := by
  obtain ⟨u, hu, rfl⟩ := List.mem_map.mp hdecl
  refine List.mem_map_of_mem (List.mem_filter.mpr ⟨hu, ?_⟩)
  have hany : (nodes.any fun m => u.id ∈ m.inputs ∨ u.id ∈ m.outputs) = true :=
    List.any_eq_true.mpr ⟨n, hn, by simpa using ht⟩
  simp only [decide_eq_true_eq]
  exact Or.inr (Or.inr hany)

theorem matmulReluPass_declared {m : Node R} (hm : m ∈ (matmulReluPass g).nodes) {t : TensorId}
    (ht : t ∈ m.inputs ∨ t ∈ m.outputs) (hdecl : t ∈ g.tensors.map (·.id)) :
    t ∈ (matmulReluPass g).tensors.map (·.id) := by
  rw [matmulReluPass_nodes] at hm
  unfold matmulReluPass
  split
  · exact hdecl
  · exact liveTensors_declared hm ht hdecl

/-- Of different pairs, both the MatMuls and the Relus differ. -/
theorem fusedNodes_pairwise (hids : (g.nodes.map (·.id)).Nodup) {P : Node R → Node R → Prop}
    (hP : ∀ relu ∈ g.nodes, ∀ relu' ∈ g.nodes, relu ≠ relu' → ∀ mm ∈ g.nodes, ∀ mm' ∈ g.nodes, mm ≠ mm' →
      P (fusedNode mm relu) (fusedNode mm' relu')) : (fusedNodes g).Pairwise P := by
  have hnodes : g.nodes.Nodup := List.Nodup.of_map _ hids
  refine List.pairwise_filterMap.mpr (hnodes.imp_of_mem fun {relu relu'} hr hr' hne m hm m' hm' => ?_)
  obtain ⟨mm, hf, rfl⟩ := Option.map_eq_some_iff.mp hm
  obtain ⟨mm', hf', rfl⟩ := Option.map_eq_some_iff.mp hm'
  obtain ⟨o, -, -, hin, -, hmm, -, hout, hcount, -⟩ := fusible_some hf
  obtain ⟨o₂, -, -, hin', -, hmm', -, hout', -, -⟩ := fusible_some hf'
  refine hP relu hr relu' hr' hne mm hmm mm' hmm' fun he => hne ?_
  subst he
  obtain rfl : o = o₂ := by simpa [hout] using hout'
  exact sole_consumer hcount hr hr' (by simp [hin]) (by simp [hin'])

/-- A node that is kept is in no pair. -/
theorem kept_ne {n : Node R} (hn : n ∈ g.nodes.filter (·.id ∉ fusedIds g)) {relu mm : Node R} (hr : relu ∈ g.nodes)
    (hf : fusible g relu = some mm) : n.id ≠ mm.id ∧ n ≠ relu := by
  have hnot := (List.mem_filter.mp hn).2
  rw [decide_eq_true_eq] at hnot
  refine ⟨fun he => hnot (mem_fusedIds.mpr ⟨relu, hr, mm, hf, Or.inl he⟩), fun he => ?_⟩
  exact hnot (mem_fusedIds.mpr ⟨relu, hr, mm, hf, Or.inr (by rw [he])⟩)

theorem matmulReluPass_ids (hids : (g.nodes.map (·.id)).Nodup) : ((matmulReluPass g).nodes.map (·.id)).Nodup := by
  rw [matmulReluPass_nodes, List.map_append, List.nodup_append]
  refine ⟨(List.filter_sublist.map _).nodup hids, ?_, ?_⟩
  · refine List.pairwise_map.mpr (fusedNodes_pairwise hids fun relu _ relu' _ _ mm hmm mm' hmm' hne he => hne ?_)
    exact List.inj_on_of_nodup_map hids hmm hmm' he
  · intro a ha b hb
    obtain ⟨n, hn, rfl⟩ := List.mem_map.mp ha
    obtain ⟨m, hm, rfl⟩ := List.mem_map.mp hb
    obtain ⟨relu, hr, mm, hf, rfl⟩ := mem_fusedNodes.mp hm
    exact (kept_ne hn hr hf).1

theorem matmulReluPass_producers (hids : (g.nodes.map (·.id)).Nodup) (hprod : (g.nodes.flatMap (·.outputs)).Nodup) :
    ((matmulReluPass g).nodes.flatMap (·.outputs)).Nodup := by
  rw [matmulReluPass_nodes, List.flatMap_append, List.nodup_append]
  refine ⟨(List.Sublist.flatMap List.filter_sublist _).nodup hprod, ?_, ?_⟩
  · refine List.nodup_flatMap.mpr ⟨fun m hm => ?_, ?_⟩
    · obtain ⟨relu, hr, mm, hf, rfl⟩ := mem_fusedNodes.mp hm
      exact (List.nodup_flatMap.mp hprod).1 relu hr
    · refine fusedNodes_pairwise hids fun relu hr relu' hr' hne mm _ mm' _ _ => ?_
      intro t ht ht'
      exact hne (Lists.eq_of_mem_flatMap hprod hr hr' ht ht')
  · intro a ha b hb he
    subst he
    obtain ⟨n, hn, hna⟩ := List.mem_flatMap.mp ha
    obtain ⟨m, hm, hma⟩ := List.mem_flatMap.mp hb
    obtain ⟨relu, hr, mm, hf, rfl⟩ := mem_fusedNodes.mp hm
    exact (kept_ne hn hr hf).2 (Lists.eq_of_mem_flatMap hprod (List.mem_filter.mp hn).1 hr hna hma)

/-- No node that is left reads the output of a folded MatMul. -/
theorem not_read {m : Node R} (hm : m ∈ (matmulReluPass g).nodes) {t : TensorId} (ht : t ∈ m.inputs) {relu mm : Node R}
    (hr : relu ∈ g.nodes) (hf : fusible g relu = some mm) : t ∉ mm.outputs := by
  intro hout
  obtain ⟨o, o', hop, hin, -, -, -, hmmout, hcount, -⟩ := fusible_some hf
  obtain rfl : t = o := by simpa [hmmout] using hout
  rcases mem_matmulReluPass.mp hm with ⟨hmem, hnot⟩ | ⟨relu', hr', mm', hf', rfl⟩
  · have heq := sole_consumer hcount hmem hr ht (by simp [hin])
    exact hnot (mem_fusedIds.mpr ⟨relu, hr, mm, hf, Or.inr (by rw [heq])⟩)
  · obtain ⟨-, -, -, -, -, hmm', hmmop', -⟩ := fusible_some hf'
    have heq := sole_consumer hcount hmm' hr ht (by simp [hin])
    rw [heq, hop] at hmmop'
    exact absurd hmmop' (by decide)

/-- What is no folded MatMul's output keeps its producer. -/
theorem matmulReluPass_produced (hids : (g.nodes.map (·.id)).Nodup) {t : TensorId} (hprod : g.Produced t)
    (hnot : ∀ relu ∈ g.nodes, ∀ mm, fusible g relu = some mm → t ∉ mm.outputs) : (matmulReluPass g).Produced t := by
  obtain ⟨n, hn, hout⟩ := hprod
  by_cases hid : n.id ∈ fusedIds g
  · obtain ⟨relu, hr, mm, hf, hcase⟩ := mem_fusedIds.mp hid
    rcases hcase with hmmid | hrid
    · obtain ⟨-, -, -, -, -, hmm, -⟩ := fusible_some hf
      have heq := List.inj_on_of_nodup_map hids hn hmm hmmid
      exact absurd (heq ▸ hout) (hnot relu hr mm hf)
    · have heq := List.inj_on_of_nodup_map hids hn hr hrid
      exact ⟨_, mem_matmulReluPass.mpr (Or.inr ⟨relu, hr, mm, hf, rfl⟩), heq ▸ hout⟩
  · exact ⟨n, mem_matmulReluPass.mpr (Or.inl ⟨hn, hid⟩), hout⟩

/-! ## The pass -/

/-- Distinct node ids, one producer a tensor, and no cycle. -/
structure SingleAssigned (g : Graph R) : Prop where
  node_ids : (g.nodes.map (·.id)).Nodup
  producers : (g.nodes.flatMap (·.outputs)).Nodup
  acyclic : Kahn.Acyclic g.Precedes

/-- What the pass keeps. -/
structure PassSound (g g' : Graph R) : Prop where
  assigned : SingleAssigned g'
  inputs_produced : ∀ n ∈ g'.nodes, ∀ x ∈ n.inputs, g.Produced x → g'.Produced x
  outputs : g'.outputs = g.outputs
  outputs_produced : ∀ t ∈ g.outputs, g.Produced t → g'.Produced t
  declared : ∀ n ∈ g'.nodes, ∀ t, t ∈ n.inputs ∨ t ∈ n.outputs → t ∈ g.tensors.map (·.id) → t ∈ g'.tensors.map (·.id)

/-- MatMulRelu is the Relu of the MatMul. -/
def ReluLaw {V : Type} (I : Dataflow.Interp (OpKey R) V) : Prop :=
  ∀ version attrs version' attrs' xs,
    I ⟨"MatMulRelu", version, attrs⟩ xs 0 = I ⟨"Relu", version', attrs'⟩ [I ⟨"MatMul", version, attrs⟩ xs 0] 0

theorem output_not_folded {t : TensorId} (ht : t ∈ g.outputs) {relu mm : Node R} (hf : fusible g relu = some mm) :
    t ∉ mm.outputs := by
  intro hout
  obtain ⟨o, -, -, -, -, -, -, hmmout, -, hio⟩ := fusible_some hf
  obtain rfl : t = o := by simpa [hmmout] using hout
  simp [isGraphIo, ht] at hio

theorem matmulReluPass_outputs (g : Graph R) : (matmulReluPass g).outputs = g.outputs := by
  unfold matmulReluPass
  split <;> rfl

theorem matmulReluPass_passSound (h : SingleAssigned g) : PassSound g (matmulReluPass g) := by
  obtain ⟨rank, hrank⟩ := ranked_of_acyclic h.producers h.acyclic
  have hids := matmulReluPass_ids h.node_ids
  refine ⟨⟨hids, matmulReluPass_producers h.node_ids h.producers, ?_⟩, ?_, matmulReluPass_outputs g, ?_, ?_⟩
  · exact acyclic_of_ranked hids rank fun m hm => matmulReluPass_rank hrank hm
  · intro m hm x hx hprod
    exact matmulReluPass_produced h.node_ids hprod fun relu hr mm hf => not_read hm hx hr hf
  · intro t ht hprod
    exact matmulReluPass_produced h.node_ids hprod fun relu _ mm hf => output_not_folded ht hf
  · intro m hm t ht hdecl
    exact matmulReluPass_declared hm ht hdecl

/-- Every tensor but the folded MatMuls' outputs keeps its value. -/
theorem matmulReluPass_solution {V : Type} (h : SingleAssigned g) {I : Dataflow.Interp (OpKey R) V} (hlaw : ReluLaw I)
    {src env env' : TensorId → V} (he : g.Solves I src env) (he' : (matmulReluPass g).Solves I src env') :
    ∀ t, (∀ relu ∈ g.nodes, ∀ mm, fusible g relu = some mm → t ∉ mm.outputs) → env' t = env t := by
  obtain ⟨rank, hrank⟩ := ranked_of_acyclic h.producers h.acyclic
  have hall : ∀ k t, rank t < k → (∀ relu ∈ g.nodes, ∀ mm, fusible g relu = some mm → t ∉ mm.outputs) →
      env' t = env t := by
    intro k
    induction k with
    | zero => intro t ht; omega
    | succ k ih =>
      intro t ht hnot
      by_cases hprod : (matmulReluPass g).Produced t
      · obtain ⟨m, hm, hout⟩ := hprod
        obtain ⟨i, hi⟩ := List.mem_iff_getElem?.mp hout
        have hins : m.inputs.map env' = m.inputs.map env := List.map_congr_left fun x hx => by
          have hlt := matmulReluPass_rank hrank hm x hx t hout
          exact ih x (by omega) fun relu hr mm hf => not_read hm hx hr hf
        rw [Graph.solves_output he' hm hi, hins]
        rcases mem_matmulReluPass.mp hm with ⟨hmem, -⟩ | ⟨relu, hr, mm, hf, rfl⟩
        · exact (Graph.solves_output he hmem hi).symm
        · -- the pair's value is the Relu's of the MatMul's
          obtain ⟨o, o', hop, hin, hrout, hmm, hmmop, hmmout, -⟩ := fusible_some hf
          obtain rfl : t = o' := by simpa [fusedNode, hrout] using hout
          obtain rfl : i = 0 := by
            have hlt := (List.getElem?_eq_some_iff.mp hi).1
            simp [fusedNode, hrout] at hlt
            exact hlt
          have hmid : env o = I ⟨mm.opName, mm.opVersion, mm.attributes⟩ (mm.inputs.map env) 0 :=
            Graph.solves_output he hmm (by rw [hmmout]; rfl)
          have hlast : env t = I ⟨relu.opName, relu.opVersion, relu.attributes⟩ (relu.inputs.map env) 0 :=
            Graph.solves_output he hr (by rw [hrout]; rfl)
          rw [hlast, hin, List.map_cons, List.map_nil, hmid, hop, hmmop]
          exact hlaw _ _ _ _ _
      · have hprod' : ¬ g.Produced t := fun hp => hprod (matmulReluPass_produced h.node_ids hp hnot)
        rw [Graph.solves_source he' hprod, Graph.solves_source he hprod']
  exact fun t => hall _ t (Nat.lt_succ_self _)

theorem SingleAssigned.exists_solves {V : Type} (h : SingleAssigned g) (I : Dataflow.Interp (OpKey R) V) (src : TensorId → V) :
    ∃ env, g.Solves I src env := by
  obtain ⟨rank, hrank⟩ := ranked_of_acyclic h.producers h.acyclic
  exact Dataflow.exists_solves (Valid.ranked_ops hrank) (Graph.singleProducer h.producers) I src

theorem matmulReluPass_sound (h : SingleAssigned g) : PassSound g (matmulReluPass g) ∧
    ∀ (V : Type) (I : Dataflow.Interp (OpKey R) V), ReluLaw I → ∀ src : TensorId → V,
      (∃ env, g.Solves I src env) ∧ (∃ env', (matmulReluPass g).Solves I src env') ∧
        ∀ env env', g.Solves I src env → (matmulReluPass g).Solves I src env' → ∀ t ∈ g.outputs, env' t = env t := by
  have hsound := matmulReluPass_passSound h
  refine ⟨hsound, fun V I hlaw src => ⟨h.exists_solves I src, hsound.assigned.exists_solves I src, ?_⟩⟩
  intro env env' he he' t ht
  exact matmulReluPass_solution h hlaw he he' t fun relu _ mm hf => output_not_folded ht hf

/-- Two MatMul-Relu pairs in a row. -/
def twoPairs : Graph Unit :=
  ⟨kCurrentIrVersion, "", "", "", [],
    [⟨1, "m1", "MatMul", "1", [1, 2], [3], []⟩, ⟨2, "r1", "Relu", "1", [3], [4], []⟩,
      ⟨3, "m2", "MatMul", "1", [4, 2], [5], []⟩, ⟨4, "r2", "Relu", "1", [5], [6], []⟩], [1, 2], [6], []⟩

theorem twoPairs_assigned : SingleAssigned twoPairs where
  node_ids := by decide
  producers := by decide
  acyclic := acyclic_of_ranked (by decide) id (by decide)

/-- Numbers for tensors. -/
def numbers : Dataflow.Interp (OpKey Unit) Int := fun key xs _ =>
  if key.name = "MatMul" then xs.sum - 5 else if key.name = "Relu" then max 0 xs.sum else max 0 (xs.sum - 5)

theorem numbers_law : ReluLaw numbers := by
  intro version attrs version' attrs' xs
  simp [numbers]

theorem two_pairs_folded :
    (matmulReluPass twoPairs).nodes.map (fun n => (n.opName, n.inputs, n.outputs)) =
      [("MatMulRelu", [1, 2], [4]), ("MatMulRelu", [4, 2], [6])] ∧
    PassSound twoPairs (matmulReluPass twoPairs) ∧
    ∀ env env', twoPairs.Solves numbers (fun _ => 4) env → (matmulReluPass twoPairs).Solves numbers (fun _ => 4) env' →
      env' 6 = env 6 := by
  have hsound := matmulReluPass_sound twoPairs_assigned
  refine ⟨by decide, hsound.1, fun env env' he he' => ?_⟩
  exact (hsound.2 Int numbers numbers_law fun _ => 4).2.2 env env' he he' 6 (by decide)

end Uaii.Planner
