/-
  Uaii.Ir.Semantics — the meaning of a graph: its nodes as the operators of a dataflow
  graph. What an operator computes depends on its name, version and attributes only.

  Proved: an accepted graph has exactly one meaning (`Valid.exists_solves`,
  `Valid.unique`).
-/

import Uaii.Ir.Validator
import Uaii.Lib.Dataflow

namespace Uaii.Ir

variable {R : Type}

/-- What `dispatch` gets of a node beside its tensors. -/
structure OpKey (R : Type) where
  name : String
  version : String
  attributes : List (Attribute R)
  deriving DecidableEq, Repr

def Node.toOp (n : Node R) : Dataflow.Op (OpKey R) TensorId := ⟨⟨n.opName, n.opVersion, n.attributes⟩, n.inputs, n.outputs⟩

def Graph.ops (g : Graph R) : List (Dataflow.Op (OpKey R) TensorId) := g.nodes.map Node.toOp

/-- `src`: what the buffers hold before the first operator. -/
abbrev Graph.Solves {V : Type} (g : Graph R) (I : Dataflow.Interp (OpKey R) V) (src env : TensorId → V) : Prop :=
  Dataflow.Solves g.ops I src env

def Graph.IsWeight (g : Graph R) (t : TensorId) : Prop := ∃ w ∈ g.tensors, w.id = t ∧ w.isWeight = true

def Graph.Produced (g : Graph R) (t : TensorId) : Prop := ∃ n ∈ g.nodes, t ∈ n.outputs

/-- A graph input, a weight, or an output of a node. -/
def Graph.Defined (g : Graph R) (t : TensorId) : Prop := t ∈ g.inputs ∨ g.IsWeight t ∨ g.Produced t

instance (g : Graph R) (t : TensorId) : Decidable (g.IsWeight t) := inferInstanceAs (Decidable (∃ w ∈ g.tensors, _))

instance (g : Graph R) (t : TensorId) : Decidable (g.Produced t) := inferInstanceAs (Decidable (∃ n ∈ g.nodes, _))

instance (g : Graph R) (t : TensorId) : Decidable (g.Defined t) := inferInstanceAs (Decidable (_ ∨ _))

/-- A graph output depends on the tensor. -/
inductive Graph.FeedsOutput (g : Graph R) : TensorId → Prop
  | output {t : TensorId} : t ∈ g.outputs → FeedsOutput g t
  | node {n : Node R} {t o : TensorId} : n ∈ g.nodes → t ∈ n.inputs → o ∈ n.outputs → FeedsOutput g o → FeedsOutput g t

theorem Graph.mem_ops {g : Graph R} {op : Dataflow.Op (OpKey R) TensorId} : op ∈ g.ops ↔ ∃ n ∈ g.nodes, n.toOp = op :=
  List.mem_map

theorem Graph.solves_output {V : Type} {g : Graph R} {I : Dataflow.Interp (OpKey R) V} {src env : TensorId → V}
    (h : g.Solves I src env) {n : Node R} (hn : n ∈ g.nodes) {i : Nat} {o : TensorId} (ho : n.outputs[i]? = some o) :
    env o = I ⟨n.opName, n.opVersion, n.attributes⟩ (n.inputs.map env) i :=
  h.output n.toOp (List.mem_map_of_mem hn) i o ho

theorem Graph.solves_source {V : Type} {g : Graph R} {I : Dataflow.Interp (OpKey R) V} {src env : TensorId → V}
    (h : g.Solves I src env) {t : TensorId} (ht : ¬ g.Produced t) : env t = src t := by
  refine h.source t fun op hop hout => ?_
  obtain ⟨n, hn, rfl⟩ := Graph.mem_ops.mp hop
  exact ht ⟨n, hn, hout⟩

theorem Graph.singleProducer {g : Graph R} (h : (g.nodes.flatMap (·.outputs)).Nodup) : Dataflow.SingleProducer g.ops := by
  unfold Dataflow.SingleProducer Graph.ops
  rw [List.flatMap_map]
  exact h

namespace Valid

variable {g : Graph R}

theorem single (h : Valid g) : Dataflow.SingleProducer g.ops := Graph.singleProducer h.producers

/-- A tensor ranks just above the node that produces it. -/
theorem ranked (h : Valid g) : ∃ rank : TensorId → Nat, ∀ n ∈ g.nodes, ∀ x ∈ n.inputs, ∀ o ∈ n.outputs, rank x < rank o := by
  obtain ⟨rank, hrank⟩ := h.acyclic
  let rankT : TensorId → Nat := fun t => (tensorProducer g t).elim 0 (rank · + 1)
  have hprod : ∀ n ∈ g.nodes, ∀ o ∈ n.outputs, rankT o = rank n.id + 1 := by
    intro n hn o ho
    simp only [rankT, tensorProducer_eq h.node_id_ne h.producers hn ho, Option.elim_some]
  refine ⟨rankT, fun n hn x hx o ho => ?_⟩
  rw [hprod n hn o ho]
  cases hx' : tensorProducer g x with
  | none => simp only [rankT, hx', Option.elim_none]; omega
  | some p =>
    obtain ⟨m, hm, rfl, hout⟩ := tensorProducer_mem hx'
    rw [hprod m hm x hout]
    have := hrank m hm n hn x hout hx
    omega

theorem ranked_ops {rank : TensorId → Nat} (h : ∀ n ∈ g.nodes, ∀ x ∈ n.inputs, ∀ o ∈ n.outputs, rank x < rank o) :
    Dataflow.Ranked g.ops rank := by
  intro op hop
  obtain ⟨n, hn, rfl⟩ := Graph.mem_ops.mp hop
  exact h n hn

theorem exists_solves {V : Type} (h : Valid g) (I : Dataflow.Interp (OpKey R) V) (src : TensorId → V) :
    ∃ env, g.Solves I src env := by
  obtain ⟨rank, hrank⟩ := h.ranked
  exact Dataflow.exists_solves (ranked_ops hrank) h.single I src

theorem unique {V : Type} (h : Valid g) {I : Dataflow.Interp (OpKey R) V} {src env env' : TensorId → V}
    (he : g.Solves I src env) (he' : g.Solves I src env') : env = env' := by
  obtain ⟨rank, hrank⟩ := h.ranked
  exact he.unique (ranked_ops hrank) he'

end Valid

end Uaii.Ir
