/-
  Uaii.Ir.Reads — which weights the nodes of a graph read that a program builds.

  A weight is known by its name and the place of its data. `Traced` says of a program that
  has come from `b₀` to `b` which labels the tensors carry that it has in hand, and which
  weights its nodes have read, in the order of the nodes.
-/

import Uaii.Ir.Building

namespace Uaii.Ir

open Uaii.Quant

variable {R : Type}

/-- A weight's name and where its data is. -/
abbrev Label := String × String

/-- The label of a weight; no other tensor has one. -/
def Tensor.labels (t : Tensor) : List Label := if t.isWeight then [(t.name, t.weightRef)] else []

def Graph.labelsOf (g : Graph R) (x : TensorId) : List Label := ((g.findTensor x).map Tensor.labels).getD []

/-- The weights that the nodes read. -/
def Graph.weightsRead (g : Graph R) : List Label := g.nodes.flatMap fun n => n.inputs.flatMap g.labelsOf

/-- The tensors and the nodes have ids that were given out. -/
structure Declared (b : GraphBuilder R) : Prop where
  next : (0 : Nat) < b.nextTensorId
  tensors : ∀ t ∈ b.graph.tensors, (0 : Nat) < t.id ∧ (t.id : Nat) < b.nextTensorId
  inputs : ∀ n ∈ b.graph.nodes, ∀ x ∈ n.inputs, (x : Nat) < b.nextTensorId

structure Traced (b₀ b : GraphBuilder R) (env : List (TensorId × List Label)) (labels : List Label) : Prop where
  declared : Declared b
  env : ∀ e ∈ env, (e.1 : Nat) < b.nextTensorId ∧ b.graph.labelsOf e.1 = e.2
  reads : b.graph.weightsRead = b₀.graph.weightsRead ++ labels

variable {b₀ b b' : GraphBuilder R} {u : Tensor} {x t : TensorId}

theorem Declared.init (name producer : String) : Declared ((GraphBuilder.init (R := R) name).setProducer producer) :=
  ⟨Nat.one_pos, by simp [GraphBuilder.init, GraphBuilder.setProducer], by simp [GraphBuilder.init, GraphBuilder.setProducer]⟩

/-! ## One more tensor -/

theorem labelsOf_declare_old (hu : u.id = b.nextTensorId) (hx : (x : Nat) < b.nextTensorId) :
    (b.declare u).graph.labelsOf x = b.graph.labelsOf x := by
  have hne : (u.id == x) = false := by
    rw [beq_eq_false_iff_ne, hu]
    exact Nat.ne_of_gt hx
  show (((b.graph.tensors ++ [u]).find? (·.id == x)).map _).getD [] = _
  rw [List.find?_append, List.find?_cons, hne, List.find?_nil, Option.or_none]
  rfl

theorem labelsOf_declare_new (h : Declared b) (hu : u.id = b.nextTensorId) : (b.declare u).graph.labelsOf u.id = u.labels := by
  have hnone : b.graph.tensors.find? (·.id == u.id) = none := by
    rw [List.find?_eq_none]
    intro t ht hid
    have hlt := (h.tensors t ht).2
    rw [beq_iff_eq.mp hid, hu] at hlt
    exact absurd hlt (Nat.lt_irrefl _)
  show (((b.graph.tensors ++ [u]).find? (·.id == u.id)).map _).getD [] = _
  rw [List.find?_append, hnone, Option.none_or, List.find?_cons, beq_self_eq_true]
  rfl

theorem weightsRead_declare (h : Declared b) (hu : u.id = b.nextTensorId) :
    (b.declare u).graph.weightsRead = b.graph.weightsRead := by
  have hsame : ∀ n ∈ b.graph.nodes, n.inputs.flatMap (b.declare u).graph.labelsOf = n.inputs.flatMap b.graph.labelsOf := by
    intro n hn
    refine List.flatMap_congr fun x hx => ?_
    exact labelsOf_declare_old hu (h.inputs n hn x hx)
  exact List.flatMap_congr hsame

namespace Traced

open Build

variable {env : List (TensorId × List Label)} {labels : List Label} {name nodeName opName : String} {outputs : List TensorId}
  {attributes : List (Attribute R)} {v : Unit}

theorem start (h : Declared b) : Traced b b [] [] := ⟨h, by simp, (List.append_nil _).symm⟩

theorem weaken (p : Traced b₀ b env labels) {env' : List (TensorId × List Label)} (h : ∀ e ∈ env', e ∈ env) : Traced b₀ b env' labels :=
  ⟨p.declared, fun e he => p.env e (h e he), p.reads⟩

/-- The tensor that was made last, and what was there before. -/
theorem top {e : TensorId × List Label} (p : Traced b₀ b (e :: env) labels) {env' : List (TensorId × List Label)}
    (h : ∀ e ∈ env', e ∈ env) : Traced b₀ b (e :: env') labels :=
  p.weaken (List.forall_mem_cons.mpr ⟨List.mem_cons_self, fun x hx => List.mem_cons_of_mem _ (h x hx)⟩)

theorem relabel (p : Traced b₀ b env labels) {labels' : List Label} (h : labels = labels') : Traced b₀ b env labels' := h ▸ p

theorem learn (p : Traced b₀ b env labels) {e : TensorId × List Label} (he : e ∈ env) : Traced b₀ b (e :: env) labels :=
  p.weaken (List.forall_mem_cons.mpr ⟨he, fun _ h => h⟩)

/-- The id of a tensor that is not there. -/
theorem zero (p : Traced b₀ b env labels) : Traced b₀ b ((0, []) :: env) labels := by
  refine ⟨p.declared, List.forall_mem_cons.mpr ⟨⟨p.declared.next, ?_⟩, p.env⟩, p.reads⟩
  have hnone : b.graph.findTensor 0 = none := by
    unfold Graph.findTensor
    rw [List.find?_eq_none]
    intro t ht hid
    have hpos := (p.declared.tensors t ht).1
    rw [beq_iff_eq.mp hid] at hpos
    exact absurd hpos (Nat.lt_irrefl _)
  show ((b.graph.findTensor 0).map _).getD [] = []
  rw [hnone]
  rfl

theorem declare (p : Traced b₀ b env labels) (hu : u.id = b.nextTensorId) :
    Traced b₀ (b.declare u) ((u.id, u.labels) :: env) labels := by
  refine ⟨⟨Nat.succ_pos _, ?_, fun n hn x hx => Nat.lt_succ_of_lt (p.declared.inputs n hn x hx)⟩, ?_, ?_⟩
  · intro t ht
    rcases List.mem_append.mp ht with ht | ht
    · exact ⟨(p.declared.tensors t ht).1, Nat.lt_succ_of_lt (p.declared.tensors t ht).2⟩
    · rw [List.mem_singleton.mp ht, hu]
      exact ⟨p.declared.next, Nat.lt_succ_self _⟩
  · refine List.forall_mem_cons.mpr ⟨⟨hu ▸ Nat.lt_succ_self _, labelsOf_declare_new p.declared hu⟩, fun e he => ?_⟩
    obtain ⟨hlt, hlabels⟩ := p.env e he
    exact ⟨Nat.lt_succ_of_lt hlt, (labelsOf_declare_old hu hlt).trans hlabels⟩
  · rw [weightsRead_declare p.declared hu, p.reads]

theorem tensor (p : Traced b₀ b env labels) {shape : List Int} (h : (Build.tensor name shape).run b = .ok (t, b')) :
    Traced b₀ b' ((t, []) :: env) labels := by
  obtain ⟨rfl, rfl⟩ := Prod.mk.inj (Except.ok.inj h)
  exact p.declare (u := ⟨b.nextTensorId, name, .f32, shape, .unspecified, false, "", .f32⟩) rfl

theorem weight (p : Traced b₀ b env labels) {dtype : DType} {shape : List Int} {ref : String} {f : QuantFormat}
    (h : (Build.weight name dtype shape ref f).run b = .ok (t, b')) : Traced b₀ b' ((t, [(name, ref)]) :: env) labels ∧ t ≠ 0 := by
  obtain ⟨rfl, rfl⟩ := Prod.mk.inj (Except.ok.inj h)
  refine ⟨p.declare (u := ⟨b.nextTensorId, name, dtype, shape, .external, true, ref, f⟩) rfl, ?_⟩
  exact Nat.pos_iff_ne_zero.mp p.declared.next

/-- A node reads what its inputs carry. -/
theorem node (p : Traced b₀ b env labels) (inputs : List (TensorId × List Label))
    (h : (Build.node name opName (inputs.map (·.1)) outputs attributes).run b = .ok (v, b')) (hin : ∀ e ∈ inputs, e ∈ env) :
    Traced b₀ b' env (labels ++ inputs.flatMap (·.2)) := by
  obtain ⟨-, rfl⟩ := Prod.mk.inj (Except.ok.inj h)
  refine ⟨⟨p.declared.next, p.declared.tensors, fun n hn x hx => ?_⟩, p.env, ?_⟩
  · rcases List.mem_append.mp hn with hn | hn
    · exact p.declared.inputs n hn x hx
    · rw [List.mem_singleton.mp hn] at hx
      obtain ⟨e, he, rfl⟩ := List.mem_map.mp hx
      exact (p.env e (hin e he)).1
  · have hread : (inputs.map (·.1)).flatMap b.graph.labelsOf = inputs.flatMap (·.2) := by
      rw [List.flatMap_map]
      exact List.flatMap_congr fun e he => (p.env e (hin e he)).2
    show (b.graph.nodes ++ [_]).flatMap _ = _
    rw [List.flatMap_append, List.flatMap_singleton, ← List.append_assoc, ← p.reads]
    exact congrArg (b.graph.weightsRead ++ ·) hread

theorem emit (p : Traced b₀ b env labels) (inputs : List (TensorId × List Label)) {shape : List Int}
    (h : (Build.emit name shape nodeName opName (inputs.map (·.1)) attributes).run b = .ok (t, b')) (hin : ∀ e ∈ inputs, e ∈ env) :
    Traced b₀ b' ((t, []) :: env) (labels ++ inputs.flatMap (·.2)) := by
  obtain ⟨y, b₁, h₁, h⟩ := step_ok h
  obtain ⟨_, b₂, h₂, h⟩ := step_ok h
  obtain ⟨rfl, rfl⟩ := pure_ok h
  exact (p.tensor h₁).node inputs h₂ fun e he => List.mem_cons_of_mem _ (hin e he)

/-- A node for a weight that may be missing. -/
theorem orEmit (p : Traced b₀ b env labels) {shape : List Int} {w : TensorId} {lw : List Label}
    (h : (if w = 0 then pure x else Build.emit name shape nodeName opName [x, w] attributes : Build R TensorId).run b = .ok (t, b'))
    (hx : (x, []) ∈ env) (hweight : (w, lw) ∈ env) (hnil : w = 0 → lw = []) : Traced b₀ b' ((t, []) :: env) (labels ++ lw) := by
  split at h
  · next h0 =>
    obtain ⟨rfl, rfl⟩ := pure_ok h
    exact (p.learn hx).relabel (by simp [hnil h0])
  · exact (p.emit [(x, []), (w, lw)] h (by simp [hx, hweight])).relabel (by simp)

/-- A norm with its bias, if it is of the kind that has one, or without. -/
theorem eitherNode {c : Prop} [Decidable c] {nodeName' opName' : String} {attributes' : List (Attribute R)} {w bias : TensorId}
    {lw lb : List Label} (p : Traced b₀ b env labels)
    (h : (if c ∧ bias ≠ 0 then Build.node nodeName opName [x, w, bias] outputs attributes
      else Build.node nodeName' opName' [x, w] outputs attributes').run b = .ok (v, b'))
    (hx : (x, []) ∈ env) (hweight : (w, lw) ∈ env) (hbias : (bias, lb) ∈ env) (hnil : bias = 0 → lb = []) :
    Traced b₀ b' env (labels ++ (lw ++ if c then lb else [])) := by
  split at h
  · next hyes => exact (p.node [(x, []), (w, lw), (bias, lb)] h (by simp [hx, hweight, hbias])).relabel (by simp [hyes.1])
  · next hno =>
    refine (p.node [(x, []), (w, lw)] h (by simp [hx, hweight])).relabel ?_
    by_cases hc : c
    · have h0 : bias = 0 := by
        by_contra hne
        exact hno ⟨hc, hne⟩
      simp [hnil h0]
    · simp [hc]

theorem tensor_ne_zero (p : Traced b₀ b env labels) {shape : List Int} (h : (Build.tensor name shape).run b = .ok (t, b')) : t ≠ 0 := by
  obtain ⟨rfl, -⟩ := Prod.mk.inj (Except.ok.inj h)
  exact Nat.pos_iff_ne_zero.mp p.declared.next

theorem emit_ne_zero (p : Traced b₀ b env labels) {shape : List Int} {inputs : List TensorId}
    (h : (Build.emit name shape nodeName opName inputs attributes).run b = .ok (t, b')) : t ≠ 0 := by
  obtain ⟨y, b₁, h₁, h⟩ := step_ok h
  obtain ⟨_, b₂, h₂, h⟩ := step_ok h
  obtain ⟨rfl, rfl⟩ := pure_ok h
  exact p.tensor_ne_zero h₁

theorem io (p : Traced b₀ b env labels) {inputs : List TensorId} (h : (Build.io inputs outputs).run b = .ok (v, b')) :
    Traced b₀ b' env labels := by
  obtain ⟨-, rfl⟩ := Prod.mk.inj (Except.ok.inj h)
  exact ⟨⟨p.declared.next, p.declared.tensors, p.declared.inputs⟩, p.env, p.reads⟩

theorem metadata (p : Traced b₀ b env labels) {l : List (String × String)} (h : (Build.addMetadata l).run b = .ok (v, b')) :
    Traced b₀ b' env labels := by
  obtain ⟨hnext, hnode, hgraph, -⟩ := addMetadata_run h
  obtain ⟨graph, next, nextNode⟩ := b'
  simp only at hnext hnode hgraph
  subst hnext hnode
  rw [hgraph]
  exact ⟨⟨p.declared.next, p.declared.tensors, p.declared.inputs⟩, p.env, p.reads⟩

end Traced

end Uaii.Ir
