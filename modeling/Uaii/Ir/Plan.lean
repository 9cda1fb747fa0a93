/-
  Uaii.Ir.Plan — `build_execution_plan` (`libs/uaii-ir/src/plan.cpp`).

  The code iterates over hash maps, so the plan depends on their order: `HashOrder` is
  an arbitrary permutation, applied wherever the code walks a map or a set.
-/

import Mathlib.Data.List.Dedup
import Uaii.Ir.Graph
import Uaii.Lib.Kahn

namespace Uaii.Ir

/-- The order in which a hash map of ids is walked. -/
structure HashOrder where
  walk : List Nat → List Nat
  perm : ∀ l, (walk l).Perm l

/-- Insertion order. -/
def HashOrder.inserted : HashOrder := ⟨id, fun _ => .refl _⟩

structure PlannedOp where
  nodeId : NodeId
  nodeName : String
  opName : String
  opVersion : String
  dependencies : List NodeId
  inputs : List TensorId
  outputs : List TensorId
  deriving DecidableEq, Repr

structure MemoryPlanHint where
  tensorId : TensorId
  name : String
  estimatedBytes : Nat
  isGraphInput : Bool
  isGraphOutput : Bool
  isWeight : Bool
  deriving DecidableEq, Repr

structure ExecutionPlan where
  irVersion : IrVersion
  graphName : String
  ops : List PlannedOp
  memoryHints : List MemoryPlanHint
  graphInputs : List TensorId
  graphOutputs : List TensorId
  deriving DecidableEq, Repr

variable {R : Type}

def memoryHints (g : Graph R) : List MemoryPlanHint :=
  g.tensors.map fun t => ⟨t.id, t.name, estimateTensorBytes t, t.id ∈ g.inputs, t.id ∈ g.outputs, t.isWeight⟩

/-- `producer`: the last node to produce a tensor. -/
def lastProducer (g : Graph R) (t : TensorId) : Option NodeId := (g.nodes.reverse.find? (t ∈ ·.outputs)).map (·.id)

/-- `unique_deps`. -/
def uniqueDeps (g : Graph R) (n : Node R) : List NodeId :=
  (n.inputs.filterMap fun t => (lastProducer g t).filter (· ≠ n.id)).dedup

def planEdges (g : Graph R) : List (NodeId × NodeId) := g.nodes.flatMap fun n => (uniqueDeps g n).map fun p => (p, n.id)

def lastNode (g : Graph R) (id : NodeId) : Option (Node R) := g.nodes.reverse.find? (·.id == id)

/-- `deps[id]`, which collects the predecessors of every node of the id. -/
def planDeps (h : HashOrder) (g : Graph R) (id : NodeId) : List NodeId :=
  (g.nodes.filter (·.id == id)).flatMap fun n => h.walk (uniqueDeps g n)

def plannedOp (h : HashOrder) (g : Graph R) (n : Node R) : PlannedOp :=
  ⟨n.id, n.name, n.opName, n.opVersion, planDeps h g n.id, n.inputs, n.outputs⟩

def buildExecutionPlan (h : HashOrder) (g : Graph R) : Result ExecutionPlan :=
  let ids := h.walk (g.nodes.map (·.id)).dedup
  let order := Kahn.order ids (planEdges g)
  if order.length ≠ g.nodes.length then
    fail .invalidArgument "cannot build execution plan: graph has a cycle"
  else
    .ok ⟨g.version, g.name, (order.filterMap (lastNode g)).map (plannedOp h g), memoryHints g, g.inputs, g.outputs⟩

end Uaii.Ir
