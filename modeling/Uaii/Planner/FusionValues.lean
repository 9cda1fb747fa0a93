/-
  Uaii.Planner.FusionValues — what the passes of `apply_fusion_passes` do to the value of
  one tensor that is read after the run.

  Pass 1 drops shapes as well as nodes: a consumer sees the removed Identity's input in
  its place. Pass 2 folds a Relu away that may have been the tensor's only reader.

  Proved: fusion keeps the tensor's value, and what the nodes that feed it read, when the
  tensor is not folded away, no such node reads behind two removed Identities, and the
  shapes agree (`fusion_values`).
-/

import Uaii.Ir.Calls
import Uaii.Planner.FusionIdentity
import Uaii.Planner.MatmulRelu

namespace Uaii.Planner

open Uaii.Ir

variable {R K : Type}

/-! ## The tensors that are left -/

theorem find?_filter_id {l : List Tensor} {p : Tensor → Bool} {t : TensorId} (hp : ∀ u ∈ l, u.id = t → p u = true) :
    (l.filter p).find? (·.id == t) = l.find? (·.id == t) := by
  induction l with
  | nil => rfl
  | cons u l ih =>
    have ih' := ih fun v hv => hp v (List.mem_cons_of_mem _ hv)
    by_cases hu : u.id = t
    · rw [List.filter_cons_of_pos (hp u List.mem_cons_self hu)]
      simp [hu]
    · by_cases hpu : p u = true
      · rw [List.filter_cons_of_pos hpu]
        simp [hu, ih']
      · rw [List.filter_cons_of_neg hpu]
        simp [hu, ih']

/-- A tensor that a remaining node uses is still there. -/
theorem findTensor_live {g : Graph R} {nodes : List (Node R)} {outputs : List TensorId} {n : Node R} (hn : n ∈ nodes)
    {t : TensorId} (ht : t ∈ n.inputs ∨ t ∈ n.outputs) :
    (liveTensors g nodes outputs).find? (·.id == t) = g.findTensor t := by
  refine find?_filter_id fun u _ hu => ?_
  have hany : (nodes.any fun m => u.id ∈ m.inputs ∨ u.id ∈ m.outputs) = true :=
    List.any_eq_true.mpr ⟨n, hn, by simpa [hu] using ht⟩
  simp only [decide_eq_true_eq]
  exact Or.inr (Or.inr hany)

theorem liveTensors_ids {g : Graph R} {nodes : List (Node R)} {outputs : List TensorId} (h : (g.tensors.map (·.id)).Nodup) :
    ((liveTensors g nodes outputs).map (·.id)).Nodup := (List.filter_sublist.map _).nodup h

/-! ## Pass 1 -/

/-- What pass 1 needs of the graph to keep the value of `s`. -/
structure IdentitySafe (g : Graph R) (s : TensorId) : Prop where
  kept : ∀ y, ¬ RemovableIdentity g s y
  chains : ∀ n, g.FeedsNode s n → identityEntry g n = none → ∀ x ∈ n.inputs, ∀ y, ¬ ChainInput g x y
  shapes : ∀ x y, RemovableIdentity g x y → g.Feeds s x → g.shapeOf x = g.shapeOf y

section Identity

variable {g : Graph R} {s : TensorId}

theorem identityPass_findTensor (h : Valid g) {m : Node R} (hm : m ∈ (identityPass g).nodes) {t : TensorId}
    (ht : t ∈ m.inputs ∨ t ∈ m.outputs) : (identityPass g).findTensor t = g.findTensor t := by
  have hparts := (identityPass_parts h).1
  rw [hparts] at hm
  unfold identityPass
  split
  · rfl
  · exact findTensor_live hm ht

theorem identityPass_wellFormed (h : Valid g) : WellFormed (identityPass g) := by
  obtain ⟨hnodes, -, -⟩ := identityPass_parts h
  obtain ⟨-, hrank⟩ := identityPass_solvable h
  have hids : ((identityPass g).nodes.map (·.id)).Nodup := by
    rw [hnodes, List.map_map]
    exact ((List.filter_sublist (p := fun n => (identityEntry g n).isNone)).map (·.id)).nodup h.node_ids
  have hprod : ((identityPass g).nodes.flatMap (·.outputs)).Nodup := by
    rw [hnodes, List.flatMap_map]
    exact (List.Sublist.flatMap List.filter_sublist _).nodup h.producers
  have hdecl : ∀ m ∈ (identityPass g).nodes, ∀ t, t ∈ m.inputs ∨ t ∈ m.outputs → t ∈ g.tensors.map (·.id) := by
    intro m hm t ht
    obtain ⟨n, hn, -, rfl⟩ := (mem_identityPass_nodes h).mp hm
    rcases ht with ht | ht
    · obtain ⟨x, hx, rfl⟩ := List.mem_map.mp ht
      rcases rewire_cases h x with ⟨heq, -⟩ | ⟨i, hi, -, hin, -⟩
      · rw [heq]
        exact (h.nodes_declared n hn).1 x hx
      · exact (h.nodes_declared i hi).1 _ (by simp [hin])
    · exact (h.nodes_declared n hn).2 t ht
  have hlive : ∀ m ∈ (identityPass g).nodes, ∀ t, t ∈ m.inputs ∨ t ∈ m.outputs →
      t ∈ (identityPass g).tensors.map (·.id) := by
    intro m hm t ht
    have ht' := hdecl m hm t ht
    rw [hnodes] at hm
    unfold identityPass
    split
    · exact ht'
    · exact liveTensors_declared hm ht ht'
  refine ⟨?_, hids, hprod, fun m hm => ⟨fun t ht => hlive m hm t (Or.inl ht), fun t ht => hlive m hm t (Or.inr ht)⟩, hrank⟩
  unfold identityPass
  split
  · exact h.tensor_ids
  · exact liveTensors_ids h.tensor_ids

/-- What feeds a tensor after the pass fed it before. -/
theorem identityPass_feeds (h : Valid g) {t : TensorId} (hf : (identityPass g).Feeds s t) : g.Feeds s t := by
  induction hf with
  | self => exact .self
  | @node m t o hm ht ho _ ih =>
    obtain ⟨n, hn, -, rfl⟩ := (mem_identityPass_nodes h).mp hm
    obtain ⟨x, hx, rfl⟩ := List.mem_map.mp ht
    have hxf : g.Feeds s x := .node hn hx ho ih
    rcases rewire_cases h x with ⟨heq, -⟩ | ⟨i, hi, -, hin, hout, -⟩
    · rw [heq]
      exact hxf
    · exact .node hi (by simp [hin]) (by simp [hout]) hxf

/-- A remaining node that feeds `s` is called as before. -/
theorem identityPass_call (h : Valid g) (hsafe : IdentitySafe g s) {n : Node R} (hn : n ∈ g.nodes)
    (hkept : identityEntry g n = none) (hfeeds : g.FeedsNode s n) :
    (identityPass g).callOf { n with inputs := n.inputs.map (rewire g) } = g.callOf n := by
  have hm := (mem_identityPass_nodes h).mpr ⟨n, hn, hkept, rfl⟩
  have hin : (n.inputs.map (rewire g)).map (identityPass g).shapeOf = n.inputs.map g.shapeOf := by
    rw [List.map_map]
    refine List.map_congr_left fun x hx => ?_
    have hlive := identityPass_findTensor h hm (t := rewire g x) (Or.inl (List.mem_map_of_mem hx))
    show (identityPass g).shapeOf (rewire g x) = g.shapeOf x
    unfold Graph.shapeOf
    rw [hlive]
    rcases rewire_cases h x with ⟨heq, -⟩ | hrem
    · rw [heq]
    · exact (hsafe.shapes x _ hrem (hfeeds.input hx)).symm
  have hout : n.outputs.map (identityPass g).shapeOf = n.outputs.map g.shapeOf :=
    List.map_congr_left fun x hx => by
      unfold Graph.shapeOf
      rw [identityPass_findTensor h hm (t := x) (Or.inr hx)]
  unfold Graph.callOf
  simp only [hin, hout]

variable {κ : Kernel R K} {past past' : Past K} {src env env' : TensorId → List K}

theorem runs_length (he : g.Runs κ past src env) (hsrc : ∀ t, (src t).length = floatCount (g.shapeOf t)) (t : TensorId) :
    (env t).length = floatCount (g.shapeOf t) := by
  by_cases hprod : g.Produced t
  · obtain ⟨n, hn, hout⟩ := hprod
    obtain ⟨i, hi⟩ := List.mem_iff_getElem?.mp hout
    have hshape : (n.outputs.map g.shapeOf).getD i [] = g.shapeOf t := by
      rw [List.getD_eq_getElem?_getD, List.getElem?_map, hi]
      rfl
    rw [Graph.runs_output he hn hi]
    simp only [kernelOutput, Graph.callOf, hshape, List.length_map, List.length_range]
  · rw [Graph.runs_source he hprod]
    exact hsrc t

/-- Across a removed Identity the floats do not change. -/
theorem runs_removable (hκ : KernelLaws κ) (hsrc : ∀ t, (src t).length = floatCount (g.shapeOf t))
    (he : g.Runs κ past src env) (hsafe : IdentitySafe g s) {x y : TensorId} (hrem : RemovableIdentity g x y)
    (hx : g.Feeds s x) : env x = env y := by
  have hshape := hsafe.shapes x y hrem hx
  obtain ⟨n, hn, hop, hin, hout, -⟩ := hrem
  rw [Graph.runs_output he hn (i := 0) (by rw [hout]; rfl), hin]
  have hcall : g.callOf n = ⟨⟨"Identity", n.opVersion, n.attributes⟩, [g.shapeOf y], [g.shapeOf y]⟩ := by
    unfold Graph.callOf
    rw [hop, hin, hout]
    simp [hshape]
  rw [hcall]
  exact hκ.identity _ _ _ _ _ (runs_length he hsrc y)

/-- A node that feeds `s` through `t` reads what it read before, if the tensors below `t` have their values. -/
theorem identityPass_read (h : Valid g) (hκ : KernelLaws κ) (hsafe : IdentitySafe g s)
    (hsrc : ∀ t, (src t).length = floatCount (g.shapeOf t)) (he : g.Runs κ past src env) {rank : TensorId → Nat}
    (hrank : ∀ n ∈ g.nodes, ∀ x ∈ n.inputs, ∀ o ∈ n.outputs, rank x < rank o) {n : Node R} (hn : n ∈ g.nodes)
    (hkept : identityEntry g n = none) {t : TensorId} (ht : t ∈ n.outputs) (hfeeds : (identityPass g).Feeds s t)
    (hbelow : ∀ u, rank u < rank t → (identityPass g).Feeds s u → (∀ y, ¬ RemovableIdentity g u y) → env' u = env u) :
    (n.inputs.map (rewire g)).map env' = n.inputs.map env := by
  rw [List.map_map]
  refine List.map_congr_left fun x hx => ?_
  have hnode : g.FeedsNode s n := ⟨hn, t, ht, identityPass_feeds h hfeeds⟩
  have hm := (mem_identityPass_nodes h).mpr ⟨n, hn, hkept, rfl⟩
  have hread : (identityPass g).Feeds s (rewire g x) := .node hm (List.mem_map_of_mem hx) ht hfeeds
  have hlt := hrank n hn x hx t ht
  show env' (rewire g x) = env x
  rcases rewire_cases h x with ⟨heq, hstays⟩ | hrem
  · rw [heq] at hread ⊢
    exact hbelow x hlt hread hstays
  · -- `x` is the output of a removed Identity, whose input stays
    have hystays : ∀ z, ¬ RemovableIdentity g (rewire g x) z := fun z hz =>
      hsafe.chains n hnode hkept x hx _ ⟨hrem, z, hz⟩
    rw [runs_removable hκ hsrc he hsafe hrem (hnode.input hx)]
    obtain ⟨i, hi, -, hin, hout, -⟩ := hrem
    have hylt := hrank i hi (rewire g x) (by simp [hin]) x (by simp [hout])
    exact hbelow _ (by omega) hread hystays

/-- What feeds `s` and stays has its value, and so has what a remaining node reads. -/
theorem identityPass_values (h : Valid g) (hκ : KernelLaws κ) (hsafe : IdentitySafe g s)
    (hsrc : ∀ t, (src t).length = floatCount (g.shapeOf t))
    (hpast : ∀ m, (identityPass g).FeedsNode s m → past' m.id = past m.id) (he : g.Runs κ past src env)
    (he' : (identityPass g).Runs κ past' src env') :
    env' s = env s ∧
      ∀ m, (identityPass g).FeedsNode s m → ∃ n ∈ g.nodes, n.id = m.id ∧ m.inputs.map env' = n.inputs.map env := by
  obtain ⟨rank, hrank⟩ := h.ranked
  have hall : ∀ k t, rank t < k → (identityPass g).Feeds s t → (∀ y, ¬ RemovableIdentity g t y) → env' t = env t := by
    intro k
    induction k with
    | zero => intro t ht; omega
    | succ k ih =>
      intro t ht hfeeds hstays
      by_cases hprod : g.Produced t
      · obtain ⟨m, hm, hout⟩ := (identityPass_produced h).mpr ⟨hprod, hstays⟩
        obtain ⟨n, hn, hkept, rfl⟩ := (mem_identityPass_nodes h).mp hm
        obtain ⟨i, hi⟩ := List.mem_iff_getElem?.mp hout
        have hins := identityPass_read h hκ hsafe hsrc he hrank hn hkept hout hfeeds fun u hu => ih u (by omega)
        rw [Graph.runs_output he hn hi, Graph.runs_output he' hm hi,
          identityPass_call h hsafe hn hkept ⟨hn, t, hout, identityPass_feeds h hfeeds⟩, hins,
          hpast _ ⟨hm, t, hout, hfeeds⟩]
      · have hprod' : ¬ (identityPass g).Produced t := fun hp => hprod ((identityPass_produced h).mp hp).1
        rw [Graph.runs_source he hprod, Graph.runs_source he' hprod']
  refine ⟨hall _ s (Nat.lt_succ_self _) .self hsafe.kept, fun m hm => ?_⟩
  obtain ⟨hmem, t, ht, hfeeds⟩ := hm
  obtain ⟨n, hn, hkept, rfl⟩ := (mem_identityPass_nodes h).mp hmem
  exact ⟨n, hn, rfl, identityPass_read h hκ hsafe hsrc he hrank hn hkept ht hfeeds fun u _ =>
    hall _ u (Nat.lt_succ_self _)⟩

end Identity

/-! ## Pass 2 -/

/-- What pass 2 needs of the graph to keep the value of `s`. -/
structure ReluSafe (g : Graph R) (s : TensorId) : Prop where
  kept : ∀ relu ∈ g.nodes, ∀ mm, fusible g relu = some mm → s ∉ mm.outputs
  shapes : ∀ relu, g.FeedsNode s relu → ∀ mm, fusible g relu = some mm → ∀ o ∈ mm.outputs, ∀ o' ∈ relu.outputs,
    g.shapeOf o = g.shapeOf o'

section Relu

variable {g : Graph R} {s : TensorId}

theorem matmulReluPass_findTensor {m : Node R} (hm : m ∈ (matmulReluPass g).nodes) {t : TensorId}
    (ht : t ∈ m.inputs ∨ t ∈ m.outputs) : (matmulReluPass g).findTensor t = g.findTensor t := by
  rw [matmulReluPass_nodes] at hm
  unfold matmulReluPass
  split
  · rfl
  · exact findTensor_live hm ht

theorem matmulReluPass_wellFormed (h : WellFormed g) : WellFormed (matmulReluPass g) := by
  obtain ⟨rank, hrank⟩ := h.ranked
  have hdecl : ∀ m ∈ (matmulReluPass g).nodes, ∀ t, t ∈ m.inputs ∨ t ∈ m.outputs → t ∈ (matmulReluPass g).tensors.map (·.id) := by
    intro m hm t ht
    refine matmulReluPass_declared hm ht ?_
    obtain ⟨n, hn, hnt⟩ := matmulReluPass_touches hm ht
    exact hnt.elim ((h.declared n hn).1 t) ((h.declared n hn).2 t)
  refine ⟨?_, matmulReluPass_ids h.node_ids, matmulReluPass_producers h.node_ids h.producers,
    fun m hm => ⟨fun t ht => hdecl m hm t (Or.inl ht), fun t ht => hdecl m hm t (Or.inr ht)⟩, rank,
    fun m hm => matmulReluPass_rank hrank hm⟩
  unfold matmulReluPass
  split
  · exact h.tensor_ids
  · exact liveTensors_ids h.tensor_ids

/-- What feeds a tensor after the pass fed it before. -/
theorem matmulReluPass_feeds {t : TensorId} (hf : (matmulReluPass g).Feeds s t) : g.Feeds s t := by
  induction hf with
  | self => exact .self
  | @node m t o hm ht ho _ ih =>
    rcases mem_matmulReluPass.mp hm with ⟨hmem, -⟩ | ⟨relu, hr, mm, hf, rfl⟩
    · exact .node hmem ht ho ih
    · obtain ⟨u, u', -, hin, -, hmm, -, hout, -⟩ := fusible_some hf
      exact .node hmm ht (by rw [hout]; exact List.mem_singleton.mpr rfl) (.node hr (by simp [hin]) ho ih)

/-- Nothing that feeds `s` after the pass is a folded MatMul's output. -/
theorem not_folded (hsafe : ReluSafe g s) {t : TensorId} (hfeeds : (matmulReluPass g).Feeds s t) {relu mm : Node R}
    (hr : relu ∈ g.nodes) (hf : fusible g relu = some mm) : t ∉ mm.outputs := by
  intro ht
  cases hfeeds with
  | self => exact hsafe.kept relu hr mm hf ht
  | node hm htin _ _ => exact not_read hm htin hr hf ht

theorem matmulReluPass_shapeOf {m : Node R} (hm : m ∈ (matmulReluPass g).nodes) {t : TensorId}
    (ht : t ∈ m.inputs ∨ t ∈ m.outputs) : (matmulReluPass g).shapeOf t = g.shapeOf t := by
  unfold Graph.shapeOf
  rw [matmulReluPass_findTensor hm ht]

variable {κ : Kernel R K} {past past' : Past K} {src env env' : TensorId → List K}

/-- What feeds `s` has its value after the pass. -/
theorem matmulReluPass_values (h : WellFormed g) (hκ : KernelLaws κ) (hsafe : ReluSafe g s)
    (hpast : ∀ m, (matmulReluPass g).FeedsNode s m → past' m.id = past m.id) (he : g.Runs κ past src env)
    (he' : (matmulReluPass g).Runs κ past' src env') : ∀ t, (matmulReluPass g).Feeds s t → env' t = env t := by
  obtain ⟨rank, hrank⟩ := h.ranked
  have hall : ∀ k t, rank t < k → (matmulReluPass g).Feeds s t → env' t = env t := by
    intro k
    induction k with
    | zero => intro t ht; omega
    | succ k ih =>
      intro t ht hfeeds
      by_cases hprod : (matmulReluPass g).Produced t
      · obtain ⟨m, hm, hout⟩ := hprod
        obtain ⟨i, hi⟩ := List.mem_iff_getElem?.mp hout
        have hins : m.inputs.map env' = m.inputs.map env := List.map_congr_left fun x hx => by
          have hlt := matmulReluPass_rank hrank hm x hx t hout
          exact ih x (by omega) (.node hm hx hout hfeeds)
        have hinShapes : m.inputs.map (matmulReluPass g).shapeOf = m.inputs.map g.shapeOf :=
          List.map_congr_left fun x hx => matmulReluPass_shapeOf hm (Or.inl hx)
        have houtShapes : m.outputs.map (matmulReluPass g).shapeOf = m.outputs.map g.shapeOf :=
          List.map_congr_left fun x hx => matmulReluPass_shapeOf hm (Or.inr hx)
        rw [Graph.runs_output he' hm hi, hins, Graph.callOf, hinShapes, houtShapes]
        rcases mem_matmulReluPass.mp hm with ⟨hmem, -⟩ | ⟨relu, hr, mm, hf, rfl⟩
        · rw [Graph.runs_output he hmem hi, hpast m ⟨hm, t, hout, hfeeds⟩]
          rfl
        · -- the value of a folded pair is the Relu's of the MatMul's
          have hshape : ∀ o ∈ mm.outputs, ∀ o' ∈ relu.outputs, g.shapeOf o = g.shapeOf o' :=
            hsafe.shapes relu ⟨hr, t, hout, matmulReluPass_feeds hfeeds⟩ mm hf
          obtain ⟨o, o', hop, hin, hrout, hmm, hmmop, hmmout, -⟩ := fusible_some hf
          obtain rfl : t = o' := by simpa [fusedNode, hrout] using hout
          obtain rfl : i = 0 := by
            have hlt := (List.getElem?_eq_some_iff.mp hi).1
            simp [fusedNode, hrout] at hlt
            exact hlt
          have hot : g.shapeOf o = g.shapeOf t := hshape o (by simp [hmmout]) t (by simp [hrout])
          have hmid : env o = kernelOutput κ (past mm.id) (g.callOf mm) (mm.inputs.map env) 0 :=
            Graph.runs_output he hmm (by rw [hmmout]; rfl)
          have hlast : env t = kernelOutput κ (past relu.id) (g.callOf relu) (relu.inputs.map env) 0 :=
            Graph.runs_output he hr (by rw [hrout]; rfl)
          rw [hlast, hin, List.map_cons, List.map_nil, hmid]
          simp only [fusedNode, Graph.callOf, hrout, hin, hmmout, hop, hmmop, List.map_cons, List.map_nil, hot]
          exact hκ.matmulRelu _ _ _ _ _ _ _ _ _ _
      · have hprod' : ¬ g.Produced t := fun hp =>
          hprod (matmulReluPass_produced h.node_ids hp fun relu hr mm hf => not_folded hsafe hfeeds hr hf)
        rw [Graph.runs_source he' hprod, Graph.runs_source he hprod']
  exact fun t => hall _ t (Nat.lt_succ_self _)

end Relu

/-! ## Both passes -/

/-- What fusion needs of the graph to keep the value of `s`. -/
structure FusionSafe (g : Graph R) (s : TensorId) : Prop where
  identity : IdentitySafe g s
  relu : ReluSafe (identityPass g) s

theorem fusion_wellFormed {g : Graph R} (h : Valid g) : WellFormed (applyFusionPasses g).1 :=
  matmulReluPass_wellFormed (identityPass_wellFormed h)

/-- Fusion keeps the value of `s`, and a node that feeds it reads what the node of its id
    read before. -/
theorem fusion_values {g : Graph R} {s : TensorId} {κ : Kernel R K} {past past' : Past K} {src env env' : TensorId → List K}
    (h : Valid g) (hκ : KernelLaws κ) (hsafe : FusionSafe g s) (hsrc : ∀ t, (src t).length = floatCount (g.shapeOf t))
    (hpast : ∀ m, (applyFusionPasses g).1.FeedsNode s m → past' m.id = past m.id) (he : g.Runs κ past src env)
    (he' : (applyFusionPasses g).1.Runs κ past' src env') :
    env' s = env s ∧ ∀ m, (applyFusionPasses g).1.FeedsNode s m →
      ∃ n ∈ g.nodes, n.id = m.id ∧ m.inputs.map env' = n.inputs.map env := by
  have hwf := identityPass_wellFormed h
  obtain ⟨env₁, he₁⟩ := Graph.exists_runs hwf κ past src
  obtain ⟨hs₁, hreads₁⟩ := identityPass_values h hκ hsafe.identity hsrc (fun _ _ => rfl) he he₁
  have hvals := matmulReluPass_values hwf hκ hsafe.relu hpast he₁ he'
  refine ⟨(hvals s .self).trans hs₁, fun m hm => ?_⟩
  have hins : m.inputs.map env' = m.inputs.map env₁ :=
    List.map_congr_left fun x hx => hvals x (hm.input hx)
  obtain ⟨hmem, t, ht, hfeeds⟩ := hm
  rcases mem_matmulReluPass.mp hmem with ⟨hkept, -⟩ | ⟨relu, hr, mm, hf, rfl⟩
  · obtain ⟨n, hn, hid, hread⟩ := hreads₁ m ⟨hkept, t, ht, matmulReluPass_feeds hfeeds⟩
    exact ⟨n, hn, hid, hins.trans hread⟩
  · obtain ⟨o, -, -, hin, -, hmm, -, hout, -⟩ := fusible_some hf
    have hfeedsMm : (identityPass g).FeedsNode s mm :=
      ⟨hmm, o, by simp [hout], .node hr (by simp [hin]) ht (matmulReluPass_feeds hfeeds)⟩
    obtain ⟨n, hn, hid, hread⟩ := hreads₁ mm hfeedsMm
    exact ⟨n, hn, hid, hins.trans hread⟩

end Uaii.Planner
