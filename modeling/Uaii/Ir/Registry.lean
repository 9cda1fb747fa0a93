/-
  Uaii.Ir.Registry — operator schemas (`include/uaii/ir/op.hpp`,
  `libs/uaii-ir/src/registry.cpp`, `builtins.cpp`), as far as validation reads them.
-/

import Uaii.Core.Error

namespace Uaii.Ir

/-- -1 means variadic. -/
structure OpSchema where
  name : String
  version : String
  minInputs : Int
  maxInputs : Int
  minOutputs : Int
  maxOutputs : Int
  deriving DecidableEq, Repr

def opKey (name version : String) : String := name ++ "@" ++ version

/-- Registered schemas, the latest first. -/
abbrev OperatorRegistry := List OpSchema

namespace OperatorRegistry

def registerSchema (r : OperatorRegistry) (schema : OpSchema) : Result OperatorRegistry :=
  if schema.name = "" then fail .invalidArgument "op schema name is empty"
  else .ok ((if schema.version = "" then { schema with version := "1" } else schema) :: r)

def findSchema (r : OperatorRegistry) (name version : String) : Option OpSchema :=
  r.find? fun s => opKey s.name s.version == opKey name version

/-- `register_builtin_schemas`. -/
def builtin : OperatorRegistry :=
  [⟨"MatMul", "1", 2, 2, 1, 1⟩,
   ⟨"MatMulRelu", "1", 2, 2, 1, 1⟩,
   ⟨"Add", "1", 2, 2, 1, 1⟩,
   ⟨"Mul", "1", 2, 2, 1, 1⟩,
   ⟨"Sub", "1", 2, 2, 1, 1⟩,
   ⟨"Div", "1", 2, 2, 1, 1⟩,
   ⟨"Relu", "1", 1, 1, 1, 1⟩,
   ⟨"Relu2", "1", 1, 1, 1, 1⟩,
   ⟨"Neg", "1", 1, 1, 1, 1⟩,
   ⟨"Gelu", "1", 1, 1, 1, 1⟩,
   ⟨"Silu", "1", 1, 1, 1, 1⟩,
   ⟨"Softcap", "1", 1, 1, 1, 1⟩,
   ⟨"Softmax", "1", 1, 1, 1, 1⟩,
   ⟨"LayerNorm", "1", 1, 3, 1, 1⟩,
   ⟨"RMSNorm", "1", 1, 2, 1, 1⟩,
   ⟨"Reshape", "1", 1, 2, 1, 1⟩,
   ⟨"Transpose", "1", 1, 1, 1, 1⟩,
   ⟨"Identity", "1", 1, 1, 1, 1⟩,
   ⟨"Cast", "1", 1, 1, 1, 1⟩,
   ⟨"Concat", "1", 1, (-1), 1, 1⟩,
   ⟨"Split", "1", 1, 1, 1, (-1)⟩,
   ⟨"Attention", "1", 3, 5, 1, 3⟩,
   ⟨"RoPE", "1", 1, 2, 1, 1⟩,
   ⟨"MLAExpandK", "1", 2, 2, 1, 1⟩,
   ⟨"Slice", "1", 1, 1, 1, 1⟩,
   ⟨"Embedding", "1", 2, 2, 1, 1⟩,
   ⟨"Positions", "1", 1, 1, 1, 1⟩,
   ⟨"MLP", "1", 3, 3, 1, 1⟩,
   ⟨"MoERouter", "1", 2, 2, 2, 2⟩,
   ⟨"MoEExperts", "1", 3, 3, 1, 1⟩,
   ⟨"MoEExpertsSwiGLU", "1", 5, (-1), 1, 1⟩]

end OperatorRegistry

end Uaii.Ir
