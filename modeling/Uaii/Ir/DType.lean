/-
  Uaii.Ir.DType — `DType` (`include/uaii/interfaces/types.hpp`), its names and sizes
  (`libs/uaii-ir/src/dtype.cpp`).
-/

import Uaii.Core.Error

namespace Uaii

inductive DType where
  | unknown
  | f32
  | f16
  | bf16
  | i8
  | i32
  | i64
  | u8
  | u32
  | bool
  deriving DecidableEq, Repr

def DType.toString : DType → String
  | .f32 => "f32"
  | .f16 => "f16"
  | .bf16 => "bf16"
  | .i8 => "i8"
  | .i32 => "i32"
  | .i64 => "i64"
  | .u8 => "u8"
  | .u32 => "u32"
  | .bool => "bool"
  | .unknown => "unknown"

namespace Ir

/-- `std::tolower`, byte by byte. -/
def lower (s : String) : String := String.ofList (s.toList.map Char.toLower)

def parseDtype (text : String) : Option DType :=
  let t := lower text
  if t = "f32" ∨ t = "float32" ∨ t = "float" then some .f32
  else if t = "f16" ∨ t = "float16" ∨ t = "half" then some .f16
  else if t = "bf16" ∨ t = "bfloat16" then some .bf16
  else if t = "i8" ∨ t = "int8" then some .i8
  else if t = "i32" ∨ t = "int32" then some .i32
  else if t = "i64" ∨ t = "int64" then some .i64
  else if t = "u8" ∨ t = "uint8" then some .u8
  else if t = "u32" ∨ t = "uint32" then some .u32
  else if t = "bool" ∨ t = "boolean" then some .bool
  else if t = "unknown" then some .unknown
  else none

@[simp] theorem parseDtype_toString (d : DType) : parseDtype d.toString = some d := by
  cases d <;> decide

def dtypeSizeBytes : DType → Nat
  | .f32 => 4
  | .f16 => 2
  | .bf16 => 2
  | .i8 => 1
  | .i32 => 4
  | .i64 => 8
  | .u8 => 1
  | .u32 => 4
  | .bool => 1
  | .unknown => 0

/-- The enumerator's value. -/
def dtypeCode : DType → Nat
  | .unknown => 0
  | .f32 => 1
  | .f16 => 2
  | .bf16 => 3
  | .i8 => 4
  | .i32 => 5
  | .i64 => 6
  | .u8 => 7
  | .u32 => 8
  | .bool => 9

end Ir

end Uaii
