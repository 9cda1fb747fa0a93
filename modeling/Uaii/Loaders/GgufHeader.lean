/-
  Uaii.Loaders.GgufHeader — the header of a GGUF file and the file that is written
  (`libs/uaii-loaders/src/gguf.cpp`: `read_array`, `read_value`, `write_value`,
  `write_array`, `gguf_read_header`, `gguf_write_f32`).

  An integer or a float is its bits, a `std::string` its bytes, one character each; a map
  is the list of its entries, in the order of insertion, or as the writer walks it. Memory
  that runs out is left out; a vector longer than `max_size` throws.

  `read_value` nests through arrays of arrays; the recursion takes fuel, by the file's
  length, and each level reads twelve bytes.
-/

import Uaii.Loaders.GgufTensor

namespace Uaii.Loaders

open Codec (leBytes leValue textOf bytesOf)

/-! ## Reading on -/

abbrev Reading (α : Type) := StateT ByteReader (Except Fault) α

namespace Reading

def bytes (n : Nat) : Reading (List UInt8) := fun r => r.readBytes n

def pod (k : Nat) : Reading Nat := fun r => r.readPod k

def bits (w : Nat) : Reading (BitVec w) := do
  let n ← pod (w / 8)
  pure (BitVec.ofNat w n)

def string : Reading String := do
  let b ← (ByteReader.readString : Reading (List UInt8))
  pure (String.ofList (textOf b))

/-- `reserve(n)`, or a vector of `n`. -/
def reserve (elemSize n : Nat) : Reading Unit :=
  if (2 ^ 63 - 1) / elemSize < n then throw (.thrown "std::length_error") else pure ()

def many {α : Type} (p : Reading α) : Nat → Reading (List α)
  | 0 => pure []
  | n + 1 => do
    let x ← p
    let xs ← many p n
    pure (x :: xs)

end Reading

/-! ## Values -/

inductive GgufValueType where
  | uint8
  | int8
  | uint16
  | int16
  | uint32
  | int32
  | float32
  | bool
  | string
  | array
  | uint64
  | int64
  | float64
  deriving DecidableEq, Repr

def GgufValueType.code : GgufValueType → Nat
  | .uint8 => 0
  | .int8 => 1
  | .uint16 => 2
  | .int16 => 3
  | .uint32 => 4
  | .int32 => 5
  | .float32 => 6
  | .bool => 7
  | .string => 8
  | .array => 9
  | .uint64 => 10
  | .int64 => 11
  | .float64 => 12

/-- `static_cast<GgufValueType>`, none for a number that is no enumerator. -/
def GgufValueType.ofCode : Nat → Option GgufValueType
  | 0 => some .uint8
  | 1 => some .int8
  | 2 => some .uint16
  | 3 => some .int16
  | 4 => some .uint32
  | 5 => some .int32
  | 6 => some .float32
  | 7 => some .bool
  | 8 => some .string
  | 9 => some .array
  | 10 => some .uint64
  | 11 => some .int64
  | 12 => some .float64
  | _ => none

theorem GgufValueType.ofCode_code (t : GgufValueType) : ofCode t.code = some t := by cases t <;> rfl

inductive GgufValue where
  | monostate
  | bool (b : Bool)
  | uint8 (x : BitVec 8)
  | int8 (x : BitVec 8)
  | uint16 (x : BitVec 16)
  | int16 (x : BitVec 16)
  | uint32 (x : BitVec 32)
  | int32 (x : BitVec 32)
  | uint64 (x : BitVec 64)
  | int64 (x : BitVec 64)
  | float (x : BitVec 32)
  | double (x : BitVec 64)
  | string (s : String)
  | strings (xs : List String)
  | int32s (xs : List (BitVec 32))
  | int64s (xs : List (BitVec 64))
  | floats (xs : List (BitVec 32))
  deriving DecidableEq, Repr

section Read

open Reading

/-- Elements of other types are read and dropped. -/
def readArray (readValue : Option GgufValueType → Reading GgufValue) : Reading GgufValue := do
  let et ← pod 4
  let n ← pod 8
  match GgufValueType.ofCode et with
  | some .string => do
    reserve 32 n
    let vals ← many string n
    pure (.strings vals)
  | some .int32 => do
    reserve 4 n
    let vals ← many (bits 32) n
    pure (.int32s vals)
  | some .int64 => do
    reserve 8 n
    let vals ← many (bits 64) n
    pure (.int64s vals)
  | some .float32 => do
    reserve 4 n
    let vals ← many (bits 32) n
    pure (.floats vals)
  | at_ => do
    let _ ← many (readValue at_) n
    pure .monostate

def readValue : Nat → Option GgufValueType → Reading GgufValue
  | 0, _ => throw (.undefined "out of fuel")
  | fuel + 1, type =>
    match type with
    | some .uint8 => do
      let v ← bits 8
      pure (.uint8 v)
    | some .int8 => do
      let v ← bits 8
      pure (.int8 v)
    | some .uint16 => do
      let v ← bits 16
      pure (.uint16 v)
    | some .int16 => do
      let v ← bits 16
      pure (.int16 v)
    | some .uint32 => do
      let v ← bits 32
      pure (.uint32 v)
    | some .int32 => do
      let v ← bits 32
      pure (.int32 v)
    | some .float32 => do
      let v ← bits 32
      pure (.float v)
    | some .bool => do
      let v ← bits 8
      pure (.bool (v != 0))
    | some .string => do
      let s ← string
      pure (.string s)
    | some .array => readArray (readValue fuel)
    | some .uint64 => do
      let v ← bits 64
      pure (.uint64 v)
    | some .int64 => do
      let v ← bits 64
      pure (.int64 v)
    | some .float64 => do
      let v ← bits 64
      pure (.double v)
    | none => throw (.error .invalidArgument "unknown GGUF value type")

end Read

/-! ## `gguf_read_header` -/

/-- `static_cast<GgufType>`. -/
def ggufTypeOf (n : UInt32) : GgufType :=
  match n.toNat with
  | 0 => .f32
  | 1 => .f16
  | 2 => .q4_0
  | 3 => .q4_1
  | 6 => .q5_0
  | 7 => .q5_1
  | 8 => .q8_0
  | 10 => .q2_k
  | 11 => .q3_k
  | 12 => .q4_k
  | 13 => .q5_k
  | 14 => .q6_k
  | 15 => .q8_k
  | 16 => .iq2_xxs
  | 17 => .iq2_xs
  | 18 => .iq3_xxs
  | 19 => .iq1_s
  | 20 => .iq4_nl
  | 21 => .iq3_s
  | 22 => .iq2_s
  | 23 => .iq4_xs
  | 24 => .i8
  | 25 => .i16
  | 26 => .i32
  | 27 => .i64
  | 28 => .f64
  | 29 => .iq1_m
  | 30 => .bf16
  | _ => .other n

/-- A parsed header. -/
structure GgufHeader extends GgufFile where
  version : Nat
  kv : List (String × GgufValue)
  deriving DecidableEq, Repr

/-- `file.kv.emplace(key, value)`. -/
def emplaceKv (kv : List (String × GgufValue)) (e : String × GgufValue) : List (String × GgufValue) :=
  if kv.any (·.1 == e.1) then kv else kv ++ [e]

section Read

open Reading

/-- A key, a type and a value. -/
def readKv (fuel : Nat) : Reading (String × GgufValue) := do
  let key ← string
  let vt ← pod 4
  let value ← readValue fuel (GgufValueType.ofCode vt)
  pure (key, value)

def readTensorInfo : Reading GgufTensorInfo := do
  let name ← string
  let nDims ← pod 4
  let dims ← many (pod 8) nDims
  let typ ← pod 4
  let offset ← pod 8
  pure ⟨name, dims, ggufTypeOf (.ofNat typ), offset⟩

/-- `"GGUF"`. -/
def magic : List UInt8 := [71, 71, 85, 70]

/-- `sizeof(GgufTensorInfo)`. -/
def tensorInfoSize : Nat := 72

/-- What follows the path. -/
def readHeaderBody (path : String) (fuel : Nat) : Reading GgufHeader := do
  let m ← bytes 4
  if m ≠ magic then throw (.error .invalidArgument "not a GGUF file")
  else do
    let version ← pod 4
    let tensorCount ← pod 8
    let kvCount ← pod 8
    let entries ← many (readKv fuel) kvCount
    reserve tensorInfoSize tensorCount
    let tensors ← many readTensorInfo tensorCount
    let r ← get
    -- up to the next multiple of 32
    pure ⟨⟨tensors, wrap64 (r.pos + 31) / 32 * 32, path⟩, version, entries.foldl emplaceKv []⟩

end Read

def ggufReadHeader (fs : FileSystem) (path : String) : Result GgufHeader := do
  let r ← ByteReader.fromFile fs path
  let (file, _) ← (readHeaderBody path (r.data.length + 1)).run r
  .ok file

/-! ## `gguf_write_f32` -/

def podBits {w : Nat} (x : BitVec w) : List UInt8 := leBytes (w / 8) x.toNat

def writeString (s : String) : List UInt8 := leBytes 8 s.length ++ bytesOf s.toList

/-- A count and the elements. -/
def writeElems {α : Type} (w : α → List UInt8) (xs : List α) : List UInt8 := leBytes 8 xs.length ++ xs.flatMap w

def writeType (t : GgufValueType) : List UInt8 := leBytes 4 t.code

/-- `write_value` and `write_array`, as the alternative is dispatched. `write_value` also has
    a case for `Int64`, which is not called. -/
def writeValue : GgufValue → List UInt8
  | .string s => writeType .string ++ writeString s
  | .uint32 x => writeType .uint32 ++ podBits x
  | .int32 x => writeType .int32 ++ podBits x
  | .float x => writeType .float32 ++ podBits x
  | .bool b => writeType .bool ++ leBytes 1 (if b then 1 else 0)
  | .uint64 x => writeType .uint64 ++ podBits x
  | .strings xs => writeType .array ++ (writeType .string ++ writeElems writeString xs)
  | .int32s xs => writeType .array ++ (writeType .int32 ++ writeElems podBits xs)
  | .int64s xs => writeType .array ++ (writeType .int64 ++ writeElems podBits xs)
  | .floats xs => writeType .array ++ (writeType .float32 ++ writeElems podBits xs)
  | _ => writeType .string ++ writeString ""

def writeKv (e : String × GgufValue) : List UInt8 := writeString e.1 ++ writeValue e.2

/-- A tensor to be written: `info.name` and `info.dims` of its entry, and the values. -/
structure GgufTensorData where
  name : String
  dims : List Nat
  data : List UInt32
  deriving DecidableEq, Repr

/-- The entry of a tensor whose values start at `offset`. -/
def writeInfo (t : GgufTensorData) (offset : Nat) : List UInt8 :=
  writeString t.name ++ (leBytes 4 t.dims.length ++ (t.dims.flatMap (leBytes 8) ++ (leBytes 4 0 ++ leBytes 8 offset)))

def writeInfos : Nat → List GgufTensorData → List UInt8
  | _, [] => []
  | offset, t :: ts => writeInfo t offset ++ writeInfos (wrap64 (offset + wrap64 (t.data.length * 4))) ts

/-- `pad_to(32)`. -/
def padTo32 (size : Nat) : List UInt8 := List.replicate ((32 - size % 32) % 32) 0

def ggufHead (kv : List (String × GgufValue)) (tensors : List GgufTensorData) : List UInt8 :=
  magic ++ (leBytes 4 3 ++ (leBytes 8 tensors.length ++ (leBytes 8 kv.length ++ (kv.flatMap writeKv ++ writeInfos 0 tensors))))

def ggufData (tensors : List GgufTensorData) : List UInt8 := tensors.flatMap fun t => t.data.flatMap fun x => leBytes 4 x.toNat

/-- The file. -/
def ggufWriteF32 (kv : List (String × GgufValue)) (tensors : List GgufTensorData) : List UInt8 :=
  ggufHead kv tensors ++ (padTo32 (ggufHead kv tensors).length ++ ggufData tensors)

end Uaii.Loaders
