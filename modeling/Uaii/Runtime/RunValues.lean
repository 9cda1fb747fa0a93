/-
  Uaii.Runtime.RunValues — what a run leaves in the memory of one tensor.

  Every tensor's buffer is a cell; `run` is the execution of the plan's calls over the
  cells (`runOps_ok`). A placement is sound for a tensor when what feeds it is intact
  where it is read (`Placement`).

  Proved: a run over a sound placement leaves the tensor's value (`run_values`).
-/

import Uaii.Lib.Storage
import Uaii.Runtime.Generate

namespace Uaii.Runtime

open Uaii.Ir Uaii.Planner Uaii.Quant Dataflow.Cells

variable {R K : Type} [Field K]

/-! ## Cells -/

def cellOf (s : Session R) (t : TensorId) : Nat := ((s.buffers.find t).bind (·.data)).getD 0

/-- A tensor's floats in its allocation. -/
def layout (K : Type) [Field K] (s : Session R) : Dataflow.Cells TensorId (List K) Nat (Nat → K) where
  cell := cellOf s
  get t c := (List.range (floatCount (s.graph.shapeOf t))).map c
  put t xs c j := if j < floatCount (s.graph.shapeOf t) then xs.getD j 0 else c j

omit [Field K] in
theorem layout_get_put [Field K] {s : Session R} {t : TensorId} {xs : List K} (h : xs.length = floatCount (s.graph.shapeOf t))
    (c : Nat → K) : (layout K s).get t ((layout K s).put t xs c) = xs := by
  refine List.ext_getElem (by simp [layout, h]) fun j hj hj' => ?_
  simp [layout, ← h, hj']

/-- Every tensor has a buffer of its shape, in an allocation large enough. -/
def Laid (s : Session R) : Prop :=
  ∀ t ∈ s.graph.tensors, ∃ b, s.buffers.find t.id = some b ∧ b.data = some (cellOf s t.id) ∧ b.shape = t.shape ∧
    floatsIn b = floatCount t.shape ∧ bufferMemory s b = .ok (some (cellOf s t.id))

/-- What `findView` returns. -/
structure ViewOf (s : Session R) (t : TensorId) (v : TensorBuffer × Nat) : Prop where
  cell : v.2 = cellOf s t
  shape : v.1.shape = s.graph.shapeOf t
  floats : floatsIn v.1 = floatCount (s.graph.shapeOf t)

section Views

variable {s : Session R}

theorem shapeOf_tensor {g : Graph R} (hids : (g.tensors.map (·.id)).Nodup) {t : Tensor} (ht : t ∈ g.tensors) :
    g.shapeOf t.id = t.shape := by
  rw [Graph.shapeOf, findTensor_of_nodup hids ht]
  rfl

theorem findView_ok (hids : (s.graph.tensors.map (·.id)).Nodup) (hlaid : Laid s) (what : String) {t : TensorId}
    (ht : t ∈ s.graph.tensors.map (·.id)) : ∃ v, findView s what t = .ok v ∧ ViewOf s t v := by
  obtain ⟨u, hu, rfl⟩ := List.mem_map.mp ht
  obtain ⟨b, hb, -, hshape, hfloats, hmem⟩ := hlaid u hu
  refine ⟨(b, cellOf s u.id), ?_, rfl, ?_, ?_⟩
  · simp only [findView, hb, hmem, ok_bind]
  · rw [shapeOf_tensor hids hu]
    exact hshape
  · rw [shapeOf_tensor hids hu]
    exact hfloats

theorem findViews_ok (hids : (s.graph.tensors.map (·.id)).Nodup) (hlaid : Laid s) (what : String) :
    ∀ tids : List TensorId, (∀ t ∈ tids, t ∈ s.graph.tensors.map (·.id)) →
      ∃ vs, findViews s what tids = .ok vs ∧ List.Forall₂ (ViewOf s) tids vs := by
  intro tids
  induction tids with
  | nil => intro _; exact ⟨[], rfl, .nil⟩
  | cons t tids ih =>
    intro h
    obtain ⟨v, hv, hview⟩ := findView_ok hids hlaid what (h t List.mem_cons_self)
    obtain ⟨vs, hvs, hviews⟩ := ih fun u hu => h u (List.mem_cons_of_mem _ hu)
    refine ⟨v :: vs, ?_, .cons hview hviews⟩
    simp only [findViews, hv, hvs, ok_bind]

theorem views_shapes {tids : List TensorId} {vs : List (TensorBuffer × Nat)} (h : List.Forall₂ (ViewOf s) tids vs) :
    vs.map (·.1.shape) = tids.map s.graph.shapeOf := by
  induction h with
  | nil => rfl
  | cons hv _ ih => rw [List.map_cons, List.map_cons, ih, hv.shape]

theorem views_read {mem : Nat → Nat → K} {tids : List TensorId} {vs : List (TensorBuffer × Nat)}
    (h : List.Forall₂ (ViewOf s) tids vs) : vs.map (readFloats mem) = tids.map ((layout K s).read mem) := by
  induction h with
  | nil => rfl
  | cons hv _ ih =>
    rw [List.map_cons, List.map_cons, ih, readFloats, hv.floats, hv.cell]
    rfl

theorem views_write (f : Nat → List K) {tids : List TensorId} {vs : List (TensorBuffer × Nat)}
    (h : List.Forall₂ (ViewOf s) tids vs) : ∀ (i : Nat) (mem : Nat → Nat → K),
      writeOutputs f vs i mem = (layout K s).store ((tids.zipIdx i).map fun p => (p.1, f p.2)) mem := by
  induction h with
  | nil => intro i mem; rfl
  | cons hv _ ih =>
    intro i mem
    rw [writeOutputs, ih, List.zipIdx_cons, List.map_cons, store, writeFloats, hv.floats, hv.cell]
    rfl

end Views

/-! ## Running the plan -/

section Run

variable {s : Session R} {κ : Kernel R K}

theorem runNode_ok (hwf : WellFormed s.graph) (hlaid : Laid s) {n : Node R} (hn : n ∈ s.graph.nodes) (m : Machine K) :
    runNode κ s n m = .ok ⟨(layout K s).step (callInterp κ m.past) m.mem (s.graph.toCall n),
      Function.update m.past n.id (m.past n.id ++ [n.inputs.map ((layout K s).read m.mem)])⟩ := by
  obtain ⟨ins, hins, hinv⟩ := findViews_ok hwf.tensor_ids hlaid "input" n.inputs (hwf.declared n hn).1
  obtain ⟨outs, houts, houtv⟩ := findViews_ok hwf.tensor_ids hlaid "output" n.outputs (hwf.declared n hn).2
  simp only [runNode, hins, houts, ok_bind, views_read hinv, views_shapes hinv, views_shapes houtv, views_write _ houtv]
  rfl

theorem runOps_ok (hwf : WellFormed s.graph) (hlaid : Laid s) (h : HashOrder) : ∀ (order : List (Node R)) (m : Machine K),
    (∀ n ∈ order, n ∈ s.graph.nodes) → (order.map (·.id)).Nodup →
      ∃ m', runOps κ s (order.map (plannedOp h s.graph)) m = .ok m' ∧
        m'.mem = (layout K s).exec (callInterp κ m.past) (order.map s.graph.toCall) m.mem ∧
        (∀ id, id ∉ order.map (·.id) → m'.past id = m.past id) ∧
        ∀ pre n post, order = pre ++ n :: post → m'.past n.id = m.past n.id ++
          [n.inputs.map ((layout K s).read ((layout K s).exec (callInterp κ m.past) (pre.map s.graph.toCall) m.mem))] := by
  intro order
  induction order with
  | nil => intro m _ _; exact ⟨m, rfl, rfl, fun _ _ => rfl, by simp⟩
  | cons n order ih =>
    intro m hmem hnd
    obtain ⟨hnot, hnd'⟩ := List.nodup_cons.mp hnd
    have hn := hmem n List.mem_cons_self
    have hfind : s.graph.findNode n.id = some n := Lists.find?_of_nodup hwf.node_ids hn
    obtain ⟨m', hrun, hmem', hother, hpast⟩ := ih
      ⟨(layout K s).step (callInterp κ m.past) m.mem (s.graph.toCall n),
        Function.update m.past n.id (m.past n.id ++ [n.inputs.map ((layout K s).read m.mem)])⟩
      (fun k hk => hmem k (List.mem_cons_of_mem _ hk)) hnd'
    -- what the first node has read matters to no other
    have hcongr : ∀ ops : List (Node R), (∀ k ∈ ops, k ∈ order) → ∀ mem,
        (layout K s).exec (callInterp κ (Function.update m.past n.id (m.past n.id ++ [n.inputs.map ((layout K s).read m.mem)])))
          (ops.map s.graph.toCall) mem = (layout K s).exec (callInterp κ m.past) (ops.map s.graph.toCall) mem := by
      intro ops hops mem
      refine exec_congr _ _ fun op hop vals i => ?_
      obtain ⟨k, hk, rfl⟩ := List.mem_map.mp hop
      have hne : k.id ≠ n.id := by
        intro he
        have hkid : k.id ∈ order.map (·.id) := List.mem_map_of_mem (hops k hk)
        rw [he] at hkid
        exact hnot hkid
      show kernelOutput κ (Function.update m.past n.id _ k.id) _ vals i = kernelOutput κ (m.past k.id) _ vals i
      rw [Function.update_of_ne hne]
    refine ⟨m', ?_, ?_, fun id hid => ?_, fun pre k post hsplit => ?_⟩
    · have hid : s.graph.findNode (plannedOp h s.graph n).nodeId = some n := hfind
      simp only [List.map_cons, runOps, hid, runNode_ok hwf hlaid hn, ok_bind]
      exact hrun
    · rw [hmem', hcongr order (fun k hk => hk)]
      rfl
    · rw [List.map_cons, List.mem_cons, not_or] at hid
      rw [hother id hid.2]
      exact Function.update_of_ne hid.1 ..
    · cases pre with
      | nil =>
        obtain ⟨rfl, rfl⟩ : n = k ∧ order = post := by simpa using hsplit
        rw [hother n.id hnot]
        exact Function.update_self ..
      | cons p pre =>
        obtain ⟨rfl, hrest⟩ : n = p ∧ order = pre ++ k :: post := by simpa using hsplit
        have hk : k ∈ order := by rw [hrest]; simp
        have hne : k.id ≠ n.id := by
          intro he
          have hkid : k.id ∈ order.map (·.id) := List.mem_map_of_mem hk
          rw [he] at hkid
          exact hnot hkid
        rw [hpast pre k post hrest, hcongr pre fun j hj => by rw [hrest]; exact List.mem_append_left _ hj]
        show Function.update m.past n.id _ k.id ++ _ = _
        rw [Function.update_of_ne hne]
        rfl

/-- What feeds `scores` is intact where it is read, and what no node produces stays. -/
structure Placement (s : Session R) (order : List (Node R)) (scores tokens : TensorId) : Prop where
  reads : ∀ pre n post, order = pre ++ n :: post → s.graph.FeedsNode scores n → ∀ x ∈ n.inputs,
    Intact (cellOf s) (pre.map s.graph.toCall) x
  kept : Intact (cellOf s) (order.map s.graph.toCall) scores
  sources : ∀ t, s.graph.Feeds scores t → ¬ s.graph.Produced t → t ≠ tokens →
    (∀ n ∈ s.graph.nodes, ∀ o ∈ n.outputs, cellOf s o ≠ cellOf s t) ∧ cellOf s tokens ≠ cellOf s t

variable {h : HashOrder} {order : List (Node R)} {scores tokens : TensorId} {past : Past K} {src env : TensorId → List K}

omit [Field K] in
/-- Executed in the plan's order with a variable a tensor, the calls give the run's values. -/
theorem exec_order (hwf : WellFormed s.graph) (hplan : Planned h s.graph s.plan order) (hrun : s.graph.Runs κ past src env) :
    Dataflow.exec (callInterp κ past) (order.map s.graph.toCall) src = env := by
  have hmem : ∀ op, op ∈ order.map s.graph.toCall ↔ op ∈ s.graph.calls := fun op =>
    (hplan.perm.map s.graph.toCall).mem_iff
  have hsingle : Dataflow.SingleProducer (order.map s.graph.toCall) := by
    unfold Dataflow.SingleProducer
    rw [List.flatMap_map]
    exact (hplan.perm.flatMap_right (·.outputs)).nodup_iff.mpr hwf.producers
  have hordered : Dataflow.Ordered (order.map s.graph.toCall) := by
    intro pre op post hsplit x hx m hm
    obtain ⟨p, q, rfl, rfl, hq⟩ := List.map_eq_append_iff.mp hsplit
    obtain ⟨n, r, rfl, rfl, rfl⟩ := List.map_eq_cons_iff.mp hq
    obtain ⟨k, hk, rfl⟩ := List.mem_map.mp (show m ∈ (n :: r).map s.graph.toCall from hm)
    exact hplan.sorted p n r rfl x hx k hk
  have hsolves : Dataflow.Solves (order.map s.graph.toCall) (callInterp κ past) src
      (Dataflow.exec (callInterp κ past) (order.map s.graph.toCall) src) := Dataflow.exec_solves hordered hsingle
  exact Graph.calls_unique hwf
    ⟨fun op hop => hsolves.output op ((hmem op).mpr hop), fun t ht => hsolves.source t fun op hop => ht op ((hmem op).mp hop)⟩
    hrun

/-- After a run over a sound placement `scores` has its value, the nodes that feed it have
    read theirs, and what no node produces is as it was. -/
theorem run_values (hwf : WellFormed s.graph) (hlaid : Laid s) (hplan : Planned h s.graph s.plan order)
    (hplace : Placement s order scores tokens) (hrun : s.graph.Runs κ past src env) {m : Machine K}
    (hpast : ∀ n, s.graph.FeedsNode scores n → m.past n.id = past n.id)
    (hsrc : ∀ t, s.graph.Feeds scores t → ¬ s.graph.Produced t → (layout K s).read m.mem t = src t) :
    ∃ m', s.run κ m = .ok m' ∧ (layout K s).read m'.mem scores = env scores ∧
      (∀ n, s.graph.FeedsNode scores n → m'.past n.id = past n.id ++ [n.inputs.map env]) ∧
      ∀ t, s.graph.Feeds scores t → ¬ s.graph.Produced t → t ≠ tokens → (layout K s).read m'.mem t = src t := by
  have hmem : ∀ n ∈ order, n ∈ s.graph.nodes := fun n => hplan.perm.mem_iff.mp
  obtain ⟨m', hok, hmem', -, hpast'⟩ := runOps_ok (κ := κ) hwf hlaid h order m hmem
    ((hplan.perm.map (·.id)).nodup_iff.mpr hwf.node_ids)
  have hexec := exec_order hwf hplan hrun
  -- the agreement of cells and variables, for every prefix of the plan
  have hagree : ∀ pre post, order = pre ++ post → ∀ x, s.graph.Feeds scores x →
      Intact (cellOf s) (pre.map s.graph.toCall) x → (¬ s.graph.Produced x ∨ ∃ k ∈ pre, x ∈ k.outputs) →
        (layout K s).read ((layout K s).exec (callInterp κ m.past) (pre.map s.graph.toCall) m.mem) x =
          Dataflow.exec (callInterp κ past) (pre.map s.graph.toCall) src x := by
    intro pre post hsplit x hx hintact hor
    have hpre : ∀ k ∈ pre, k ∈ s.graph.nodes := fun k hk => hmem k (by rw [hsplit]; exact List.mem_append_left _ hk)
    have hinit : ∀ t, s.graph.Feeds scores t → ¬ s.graph.Produced t → (layout K s).read m.mem t = src t :=
      fun t ht hu => hsrc t ht hu
    refine exec_agrees ?_ ?_ hinit ?_ x hx hintact ?_
    · intro op hop
      obtain ⟨n, hn, rfl⟩ := List.mem_map.mp hop
      exact (List.nodup_flatMap.mp hwf.producers).1 n (hpre n hn)
    · intro op hop vals i o hi c
      obtain ⟨n, hn, rfl⟩ := List.mem_map.mp hop
      refine layout_get_put ?_ c
      have hshape : (n.outputs.map s.graph.shapeOf).getD i [] = s.graph.shapeOf o := by
        rw [List.getD_eq_getElem?_getD, List.getElem?_map, show n.outputs[i]? = some o from hi]
        rfl
      show (kernelOutput κ (m.past n.id) (s.graph.callOf n) vals i).length = _
      simp only [kernelOutput, Graph.callOf, hshape, List.length_map, List.length_range]
    · intro p op q hpq hfeeds
      obtain ⟨p', q', rfl, rfl, hq⟩ := List.map_eq_append_iff.mp hpq
      obtain ⟨n, r, rfl, rfl, rfl⟩ := List.map_eq_cons_iff.mp hq
      have hn : n ∈ s.graph.nodes := hpre n (by simp)
      have hnode : s.graph.FeedsNode scores n := ⟨hn, hfeeds⟩
      have hsplit' : order = p' ++ n :: (r ++ post) := by rw [hsplit]; simp
      refine ⟨fun vals i => ?_, fun y hy => ⟨hnode.input hy, hplace.reads p' n _ hsplit' hnode y hy, ?_⟩⟩
      · show kernelOutput κ (m.past n.id) _ vals i = kernelOutput κ (past n.id) _ vals i
        rw [hpast n hnode]
      · by_cases hprod : s.graph.Produced y
        · obtain ⟨k, hk, hout⟩ := hprod
          have hko := hplan.perm.mem_iff.mpr hk
          rw [hsplit'] at hko
          rcases List.mem_append.mp hko with hkp | hkn
          · exact Or.inr ⟨_, List.mem_map_of_mem hkp, hout⟩
          · exact absurd hout (hplan.sorted p' n _ hsplit' y hy k hkn)
        · exact Or.inl hprod
    · rcases hor with hu | ⟨k, hk, hout⟩
      · exact Or.inl hu
      · exact Or.inr ⟨_, List.mem_map_of_mem hk, hout⟩
  have hwhole := hagree order [] (by simp)
  refine ⟨m', by rw [Session.run, hplan.ops]; exact hok, ?_, fun n hn => ?_, fun t ht hu hne => ?_⟩
  · rw [hmem', hwhole scores .self hplace.kept, hexec]
    by_cases hprod : s.graph.Produced scores
    · obtain ⟨k, hk, hout⟩ := hprod
      exact Or.inr ⟨k, hplan.perm.mem_iff.mpr hk, hout⟩
    · exact Or.inl hprod
  · obtain ⟨pre, post, hsplit⟩ := List.append_of_mem (hplan.perm.mem_iff.mpr hn.1)
    rw [hpast' pre n post hsplit, hpast n hn]
    have hvals : ∀ x ∈ n.inputs, (layout K s).read ((layout K s).exec (callInterp κ m.past) (pre.map s.graph.toCall) m.mem) x =
        env x := by
      intro x hx
      have hlater : ∀ op ∈ (n :: post).map s.graph.toCall, x ∉ op.outs := by
        intro op hop
        obtain ⟨k, hk, rfl⟩ := List.mem_map.mp hop
        exact hplan.sorted pre n post hsplit x hx k hk
      rw [hagree pre (n :: post) hsplit x (hn.input hx) (hplace.reads pre n post hsplit hn x hx), ← hexec, hsplit,
        List.map_append, Dataflow.exec_append, Dataflow.exec_of_not_produced _ _ hlater]
      by_cases hprod : s.graph.Produced x
      · obtain ⟨k, hk, hout⟩ := hprod
        have hko := hplan.perm.mem_iff.mpr hk
        rw [hsplit] at hko
        rcases List.mem_append.mp hko with hkp | hkn
        · exact Or.inr ⟨k, hkp, hout⟩
        · exact absurd hout (hplan.sorted pre n post hsplit x hx k hkn)
      · exact Or.inl hprod
    rw [List.map_congr_left hvals]
  · have hapart := (hplace.sources t ht hu hne).1
    have hintact : Intact (cellOf s) (order.map s.graph.toCall) t := by
      intro p op q hpq
      have hop : op ∈ order.map s.graph.toCall := by rw [hpq]; simp
      obtain ⟨n, hn, rfl⟩ := List.mem_map.mp hop
      exact Or.inl fun o ho _ => hapart n (hmem n hn) o ho
    have hnone : ∀ op ∈ order.map s.graph.toCall, t ∉ op.outs := by
      intro op hop hout
      obtain ⟨n, hn, rfl⟩ := List.mem_map.mp hop
      exact hu ⟨n, hmem n hn, hout⟩
    rw [hmem', hwhole t ht hintact (Or.inl hu), Dataflow.exec_of_not_produced _ _ hnone]

end Run

end Uaii.Runtime
