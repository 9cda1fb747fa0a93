/-
  Uaii.Ir.Graph — the intermediate representation (`include/uaii/ir/graph.hpp`,
  `node.hpp`, `tensor.hpp`, `attribute.hpp`, `version.hpp`) and `GraphBuilder`
  (`libs/uaii-ir/src/graph.cpp`).

  Ids are 64-bit words, dimensions `int64_t`. `R` is the type of the floating-point
  attributes. An attribute's type is that of its value.
-/

import Uaii.Ir.DType
import Uaii.Quant.Formats

namespace Uaii.Ir

open Uaii.Quant

abbrev TensorId := Nat
abbrev NodeId := Nat

structure IrVersion where
  major : Nat
  minor : Nat
  deriving DecidableEq, Repr

def IrVersion.toString (v : IrVersion) : String := Nat.repr v.major ++ "." ++ Nat.repr v.minor

def kCurrentIrVersion : IrVersion := ⟨1, 0⟩

def isCompatible (v : IrVersion) : Bool := v.major == kCurrentIrVersion.major && v.minor ≤ kCurrentIrVersion.minor

def checkCompatible (v : IrVersion) : Result Unit :=
  if isCompatible v then .ok ()
  else fail .invalidArgument ("unsupported UAII IR version " ++ v.toString ++ " (supported major=" ++
    Nat.repr kCurrentIrVersion.major ++ ", minor<= " ++ Nat.repr kCurrentIrVersion.minor ++ ")")

inductive AttributeValue (R : Type) where
  | string (s : String)
  | int (i : Int)
  | float (x : R)
  | bool (b : Bool)
  | intArray (xs : List Int)
  | floatArray (xs : List R)
  deriving DecidableEq, Repr

/-- `AttributeType`'s enumerators. -/
def attributeTypeCode {R : Type} : AttributeValue R → Nat
  | .string _ => 0
  | .int _ => 1
  | .float _ => 2
  | .bool _ => 3
  | .intArray _ => 4
  | .floatArray _ => 5

def attributeTypeName {R : Type} : AttributeValue R → String
  | .string _ => "string"
  | .int _ => "int"
  | .float _ => "float"
  | .bool _ => "bool"
  | .intArray _ => "int_array"
  | .floatArray _ => "float_array"

structure Attribute (R : Type) where
  key : String
  value : AttributeValue R
  deriving DecidableEq, Repr

inductive StorageHint where
  | unspecified
  | ram
  | mmap
  | external
  deriving DecidableEq, Repr

def StorageHint.toString : StorageHint → String
  | .ram => "ram"
  | .mmap => "mmap"
  | .external => "external"
  | .unspecified => "unspecified"

def parseStorageHint (text : String) : Option StorageHint :=
  let t := lower text
  if t = "unspecified" ∨ t = "default" ∨ t = "" then some .unspecified
  else if t = "ram" then some .ram
  else if t = "mmap" then some .mmap
  else if t = "external" then some .external
  else none

@[simp] theorem parseStorageHint_toString (hint : StorageHint) : parseStorageHint hint.toString = some hint := by
  cases hint <;> decide

structure Tensor where
  id : TensorId
  name : String
  dtype : DType
  shape : List Int
  storageHint : StorageHint
  isWeight : Bool
  weightRef : String
  quantFormat : QuantFormat
  deriving DecidableEq, Repr

structure Node (R : Type) where
  id : NodeId
  name : String
  opName : String
  opVersion : String
  inputs : List TensorId
  outputs : List TensorId
  attributes : List (Attribute R)
  deriving DecidableEq, Repr

structure Graph (R : Type) where
  version : IrVersion
  name : String
  producer : String
  domain : String
  tensors : List Tensor
  nodes : List (Node R)
  inputs : List TensorId
  outputs : List TensorId
  metadata : List (String × String)
  deriving DecidableEq, Repr

/-- Equal in every field. The metadata is an unordered map. -/
def SameGraph {R : Type} (g g' : Graph R) : Prop :=
  { g with metadata := [] } = { g' with metadata := [] } ∧ g.metadata.Perm g'.metadata

/-- 0 for no dimensions, and when one is negative. -/
def shapeNumel (dims : List Int) : Nat :=
  if dims = [] ∨ dims.any (· < 0) then 0 else dims.foldl (fun n d => wrap64 (n * d.toNat)) 1

def estimateTensorBytes (t : Tensor) : Nat :=
  let elem := dtypeSizeBytes t.dtype
  let n := shapeNumel t.shape
  if elem = 0 ∨ n = 0 then 0 else wrap64 (elem * n)

variable {R : Type}

namespace Graph

def findTensor (g : Graph R) (id : TensorId) : Option Tensor := g.tensors.find? (·.id == id)

/-- A map from ids filled in list order: the last tensor of an id. -/
def byId (g : Graph R) (id : TensorId) : Option Tensor := g.tensors.reverse.find? (·.id == id)

def findNode (g : Graph R) (id : NodeId) : Option (Node R) := g.nodes.find? (·.id == id)

end Graph

/-! ## Building -/

structure GraphBuilder (R : Type) where
  graph : Graph R
  nextTensorId : TensorId
  nextNodeId : NodeId
  deriving DecidableEq, Repr

namespace GraphBuilder

/-- `GraphBuilder(name)`. -/
def init (name : String) : GraphBuilder R :=
  ⟨⟨kCurrentIrVersion, name, "uaii-graph-builder", "uaii", [], [], [], [], []⟩, 1, 1⟩

def setProducer (b : GraphBuilder R) (producer : String) : GraphBuilder R :=
  { b with graph := { b.graph with producer := producer } }

/-- `metadata[key] = value`. -/
def setMetadata (b : GraphBuilder R) (key value : String) : GraphBuilder R :=
  { b with graph := { b.graph with metadata := b.graph.metadata.filter (·.1 != key) ++ [(key, value)] } }

def addTensor (b : GraphBuilder R) (name : String) (dtype : DType) (shape : List Int)
    (hint : StorageHint) : TensorId × GraphBuilder R :=
  let t : Tensor := ⟨b.nextTensorId, name, dtype, shape, hint, false, "", .f32⟩
  (b.nextTensorId, { b with
    graph := { b.graph with tensors := b.graph.tensors ++ [t] }
    nextTensorId := b.nextTensorId + 1 })

def addWeight (b : GraphBuilder R) (name : String) (dtype : DType) (shape : List Int) (weightRef : String)
    (quantFormat : QuantFormat) : TensorId × GraphBuilder R :=
  let t : Tensor := ⟨b.nextTensorId, name, dtype, shape, .external, true, weightRef, quantFormat⟩
  (b.nextTensorId, { b with
    graph := { b.graph with tensors := b.graph.tensors ++ [t] }
    nextTensorId := b.nextTensorId + 1 })

def addNode (b : GraphBuilder R) (name opName opVersion : String) (inputs outputs : List TensorId)
    (attributes : List (Attribute R)) : NodeId × GraphBuilder R :=
  let n : Node R := ⟨b.nextNodeId, name, opName, opVersion, inputs, outputs, attributes⟩
  (b.nextNodeId, { b with
    graph := { b.graph with nodes := b.graph.nodes ++ [n] }
    nextNodeId := b.nextNodeId + 1 })

def setInputs (b : GraphBuilder R) (inputs : List TensorId) : GraphBuilder R :=
  { b with graph := { b.graph with inputs := inputs } }

def setOutputs (b : GraphBuilder R) (outputs : List TensorId) : GraphBuilder R :=
  { b with graph := { b.graph with outputs := outputs } }

def build (b : GraphBuilder R) : Graph R := b.graph

end GraphBuilder

end Uaii.Ir
