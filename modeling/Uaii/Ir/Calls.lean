/-
  Uaii.Ir.Calls — the nodes of a graph as kernel calls on floats.

  A kernel sees the shapes of its tensors beside its attributes, and may look back at what
  its node has read in earlier runs, as attention does through its cache. What the
  kernels compute is a parameter.

  Proved: the tensors that feed a tensor are closed under producers' inputs
  (`Feeds.input`), and a graph's calls have at most one solution (`calls_unique`).
-/

import Mathlib.Algebra.Field.Defs
import Uaii.Ir.PlanOrder

namespace Uaii.Ir

variable {R K V : Type}

/-- Floats of a tensor of a shape. -/
def floatCount (shape : List Int) : Nat := wrap64 (shapeNumel shape * 4) / 4

/-- What `dispatch` is given beside the floats. -/
structure OpCall (R : Type) where
  key : OpKey R
  inShapes : List (List Int)
  outShapes : List (List Int)
  deriving DecidableEq, Repr

/-- Element `j` of output `i`, from the inputs of the earlier runs and of this one. -/
abbrev Kernel (R K : Type) := OpCall R → List (List (List K)) → List (List K) → Nat → Nat → K

/-- Output `i`. -/
def kernelOutput (κ : Kernel R K) (past : List (List (List K))) (call : OpCall R) (ins : List (List K)) (i : Nat) : List K :=
  (List.range (floatCount (call.outShapes.getD i []))).map (κ call past ins i)

/-- What each node has read in the earlier runs. -/
abbrev Past (K : Type) := NodeId → List (List (List K))

def callInterp (κ : Kernel R K) (past : Past K) : Dataflow.Interp (NodeId × OpCall R) (List K) := fun op ins i =>
  kernelOutput κ (past op.1) op.2 ins i

namespace Graph

variable (g : Graph R)

def shapeOf (t : TensorId) : List Int := ((g.findTensor t).map (·.shape)).getD []

def callOf (n : Node R) : OpCall R :=
  ⟨⟨n.opName, n.opVersion, n.attributes⟩, n.inputs.map g.shapeOf, n.outputs.map g.shapeOf⟩

def toCall (n : Node R) : Dataflow.Op (NodeId × OpCall R) TensorId := ⟨(n.id, g.callOf n), n.inputs, n.outputs⟩

def calls : List (Dataflow.Op (NodeId × OpCall R) TensorId) := g.nodes.map g.toCall

/-- The values of one run: `src` holds what no node produces. -/
abbrev Runs (κ : Kernel R K) (past : Past K) (src env : TensorId → List K) : Prop :=
  Dataflow.Solves g.calls (callInterp κ past) src env

/-- A path of nodes leads from the tensor to `s`. -/
inductive Feeds (s : TensorId) : TensorId → Prop
  | self : Feeds s s
  | node {n : Node R} {t o : TensorId} : n ∈ g.nodes → t ∈ n.inputs → o ∈ n.outputs → Feeds s o → Feeds s t

/-- A node with an output that feeds `s`. -/
def FeedsNode (s : TensorId) (n : Node R) : Prop := n ∈ g.nodes ∧ ∃ o ∈ n.outputs, g.Feeds s o

variable {g}

theorem FeedsNode.input {s : TensorId} {n : Node R} (h : g.FeedsNode s n) {x : TensorId} (hx : x ∈ n.inputs) :
    g.Feeds s x := by
  obtain ⟨hn, o, ho, hfeeds⟩ := h
  exact .node hn hx ho hfeeds

theorem mem_calls {op : Dataflow.Op (NodeId × OpCall R) TensorId} : op ∈ g.calls ↔ ∃ n ∈ g.nodes, g.toCall n = op :=
  List.mem_map

theorem calls_single (h : (g.nodes.flatMap (·.outputs)).Nodup) : Dataflow.SingleProducer g.calls := by
  unfold Dataflow.SingleProducer calls
  rw [List.flatMap_map]
  exact h

theorem calls_ranked {rank : TensorId → Nat} (h : ∀ n ∈ g.nodes, ∀ x ∈ n.inputs, ∀ o ∈ n.outputs, rank x < rank o) :
    Dataflow.Ranked g.calls rank := by
  intro op hop
  obtain ⟨n, hn, rfl⟩ := mem_calls.mp hop
  exact h n hn

section Runs

variable {κ : Kernel R K} {past : Past K} {src env : TensorId → List K}

theorem runs_output (h : g.Runs κ past src env) {n : Node R} (hn : n ∈ g.nodes) {i : Nat} {o : TensorId}
    (ho : n.outputs[i]? = some o) : env o = kernelOutput κ (past n.id) (g.callOf n) (n.inputs.map env) i :=
  h.output (g.toCall n) (List.mem_map_of_mem hn) i o ho

theorem runs_source (h : g.Runs κ past src env) {t : TensorId} (ht : ¬ g.Produced t) : env t = src t := by
  refine h.source t fun op hop hout => ?_
  obtain ⟨n, hn, rfl⟩ := mem_calls.mp hop
  exact ht ⟨n, hn, hout⟩

theorem exists_runs (h : WellFormed g) (κ : Kernel R K) (past : Past K) (src : TensorId → List K) :
    ∃ env, g.Runs κ past src env := by
  obtain ⟨rank, hrank⟩ := h.ranked
  exact Dataflow.exists_solves (calls_ranked hrank) (calls_single h.producers) _ src

theorem calls_unique (h : WellFormed g) {env' : TensorId → List K} (he : g.Runs κ past src env)
    (he' : g.Runs κ past src env') : env = env' := by
  obtain ⟨rank, hrank⟩ := h.ranked
  exact he.unique (calls_ranked hrank) he'

end Runs

end Graph

/-- The laws of the kernels that fusion relies on: Identity copies between tensors of one
    shape, a MatMulRelu is the Relu of the MatMul, and these look at their inputs only. -/
structure KernelLaws (κ : Kernel R K) : Prop where
  identity : ∀ (version : String) (attributes : List (Attribute R)) (shape : List Int) (past : List (List (List K)))
    (x : List K), x.length = floatCount shape →
      kernelOutput κ past ⟨⟨"Identity", version, attributes⟩, [shape], [shape]⟩ [x] 0 = x
  matmulRelu : ∀ (version version' : String) (attributes attributes' : List (Attribute R)) (ins : List (List Int))
    (shape : List Int) (past past' past'' : List (List (List K))) (xs : List (List K)),
      kernelOutput κ past ⟨⟨"MatMulRelu", version, attributes⟩, ins, [shape]⟩ xs 0 =
        kernelOutput κ past' ⟨⟨"Relu", version', attributes'⟩, [shape], [shape]⟩
          [kernelOutput κ past'' ⟨⟨"MatMul", version, attributes⟩, ins, [shape]⟩ xs 0] 0

end Uaii.Ir
