/-
  Uaii.Planner.Fusion — `apply_fusion_passes` (`libs/uaii-planner/src/fusion.cpp`).

  Pass 1 removes Identity nodes whose output is no graph input or output and gives
  their consumers the Identity's input instead: one lookup for every input, so an
  input that is itself the output of a removed Identity stays. Pass 2 folds a Relu into
  the MatMul that only it consumes.
-/

import Uaii.Ir.Graph

namespace Uaii.Planner

open Uaii.Ir

variable {R : Type}

structure FusionStats where
  nodesBefore : Nat
  nodesAfter : Nat
  matmulReluFused : Nat
  identityRemoved : Nat
  deriving DecidableEq, Repr

def countConsumers (g : Graph R) (tid : TensorId) : Nat :=
  (g.nodes.map fun n => n.inputs.count tid).sum + g.outputs.count tid

def isGraphIo (g : Graph R) (tid : TensorId) : Bool := tid ∈ g.inputs || tid ∈ g.outputs

/-- Tensors that are still referenced. -/
def liveTensors (g : Graph R) (nodes : List (Node R)) (outputs : List TensorId) : List Tensor :=
  g.tensors.filter fun t => t.id ∈ g.inputs ∨ t.id ∈ outputs ∨ nodes.any fun n => t.id ∈ n.inputs ∨ t.id ∈ n.outputs

/-! ## Pass 1 -/

/-- A node's `replace` entry, when it is an Identity the pass removes. -/
def identityEntry (g : Graph R) (n : Node R) : Option (TensorId × TensorId) :=
  match n.inputs, n.outputs with
  | [i], [o] => if n.opName = "Identity" ∧ isGraphIo g o = false then some (o, i) else none
  | _, _ => none

/-- `replace`, the latest entry first. -/
def replaceEntries (g : Graph R) : List (TensorId × TensorId) := (g.nodes.filterMap (identityEntry g)).reverse

def replaceOf (g : Graph R) (t : TensorId) : Option TensorId := ((replaceEntries g).find? (·.1 == t)).map (·.2)

/-- `it != replace.end() ? it->second : in`. -/
def rewire (g : Graph R) (t : TensorId) : TensorId := (replaceOf g t).getD t

def identityKept (g : Graph R) : List (Node R) := g.nodes.filter fun n => (identityEntry g n).isNone

def identityPass (g : Graph R) : Graph R :=
  if replaceEntries g = [] then g
  else
    let kept := (identityKept g).map fun n => { n with inputs := n.inputs.map (rewire g) }
    let outputs := g.outputs.map (rewire g)
    { g with tensors := liveTensors g kept outputs, nodes := kept, outputs := outputs }

/-! ## Pass 2 -/

/-- `producer`: the last node to produce a tensor. -/
def producerOf (g : Graph R) (t : TensorId) : Option (Node R) := g.nodes.reverse.find? (t ∈ ·.outputs)

/-- The MatMul a Relu is folded into. -/
def fusible (g : Graph R) (relu : Node R) : Option (Node R) :=
  match relu.inputs, relu.outputs with
  | [i], [_] =>
    if relu.opName = "Relu" then
      match producerOf g i with
      | some mm =>
        match mm.outputs with
        | [o] => if mm.opName = "MatMul" ∧ countConsumers g o = 1 ∧ isGraphIo g o = false then some mm else none
        | _ => none
      | none => none
    else none
  | _, _ => none

def fusedNode (mm relu : Node R) : Node R :=
  { mm with name := mm.name ++ "_relu", opName := "MatMulRelu", outputs := relu.outputs }

def fusedNodes (g : Graph R) : List (Node R) := g.nodes.filterMap fun relu => (fusible g relu).map (fusedNode · relu)

/-- `remove`. -/
def fusedIds (g : Graph R) : List NodeId :=
  g.nodes.flatMap fun relu => match fusible g relu with | some mm => [mm.id, relu.id] | none => []

def matmulReluPass (g : Graph R) : Graph R :=
  if fusedIds g = [] then g
  else
    let kept := g.nodes.filter (·.id ∉ fusedIds g) ++ fusedNodes g
    { g with tensors := liveTensors g kept g.outputs, nodes := kept }

def applyFusionPasses (g : Graph R) : Graph R × FusionStats :=
  let g1 := identityPass g
  let g2 := matmulReluPass g1
  (g2, ⟨g.nodes.length, g2.nodes.length, (fusedNodes g1).length, (replaceEntries g).length⟩)

end Uaii.Planner
