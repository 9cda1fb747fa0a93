/-
  Uaii.Loaders.GgufTensor — reading one tensor of a parsed GGUF file
  (`libs/uaii-loaders/src/gguf.cpp`: `gguf_load_tensor_f32`, `gguf_load_tensor_raw`
  and what they call).

  Both look a tensor up by name (with an optional `#e=k` expert slice), compute where
  its elements start, and read them: `raw` returns the packed bytes, `f32` decodes.
  For `Q8_0` and `Q4_0` the f32 path has decoders of its own; for the other block
  formats it loads the raw bytes and calls the row kernel.

  Element counts and byte offsets are `size_t`. `out->resize(n)` throws when the
  vector of floats would be longer than `max_size`.
-/

import Uaii.Loaders.BinaryIo

namespace Uaii.Loaders

open Uaii.Quant

inductive GgufType where
  | f32
  | f16
  | q4_0
  | q4_1
  | q5_0
  | q5_1
  | q8_0
  | q2_k
  | q3_k
  | q4_k
  | q5_k
  | q6_k
  | q8_k
  | iq2_xxs
  | iq2_xs
  | iq3_xxs
  | iq1_s
  | iq4_nl
  | iq3_s
  | iq2_s
  | iq4_xs
  | i8
  | i16
  | i32
  | i64
  | f64
  | iq1_m
  | bf16
  /-- A type number of the file that is no enumerator. -/
  | other (n : UInt32)
  deriving DecidableEq, Repr

def GgufType.toString : GgufType → String
  | .f32 => "f32"
  | .f16 => "f16"
  | .q4_0 => "q4_0"
  | .q4_1 => "q4_1"
  | .q5_0 => "q5_0"
  | .q5_1 => "q5_1"
  | .q8_0 => "q8_0"
  | .q2_k => "q2_k"
  | .q3_k => "q3_k"
  | .q4_k => "q4_k"
  | .q5_k => "q5_k"
  | .q6_k => "q6_k"
  | .q8_k => "q8_k"
  | .iq2_xxs => "iq2_xxs"
  | .iq2_xs => "iq2_xs"
  | .iq3_xxs => "iq3_xxs"
  | .iq1_s => "iq1_s"
  | .iq4_nl => "iq4_nl"
  | .iq3_s => "iq3_s"
  | .iq2_s => "iq2_s"
  | .iq4_xs => "iq4_xs"
  | .i8 => "i8"
  | .i16 => "i16"
  | .i32 => "i32"
  | .i64 => "i64"
  | .f64 => "f64"
  | .iq1_m => "iq1_m"
  | .bf16 => "bf16"
  | .other _ => "other"

def ggufTypeSupported : GgufType → Bool
  | .f32 | .f16 | .q4_0 | .q4_1 | .q5_0 | .q5_1 | .q8_0 | .q2_k | .q3_k | .q4_k | .q5_k | .q6_k | .iq4_nl => true
  | _ => false

def ggufTypeToQuant : GgufType → QuantFormat
  | .f32 => .f32
  | .f16 => .f16
  | .q4_0 => .q4_0
  | .q4_1 => .q4_1
  | .q5_0 => .q5_0
  | .q5_1 => .q5_1
  | .q8_0 => .q8_0
  | .q2_k => .q2_k
  | .q3_k => .q3_k
  | .q4_k => .q4_k
  | .q5_k => .q5_k
  | .q6_k => .q6_k
  | .iq4_nl => .iq4_nl
  | _ => .f32

def ggufTypeNbytesPerElem : GgufType → Nat
  | .f32 => 4
  | .f16 => 2
  | .bf16 => 2
  | .i8 => 1
  | .i16 => 2
  | .i32 => 4
  | .i64 => 8
  | .f64 => 8
  | _ => 0

/-- The block-quantised types. -/
def GgufType.isBlock (t : GgufType) : Bool := isGgufBlockQuant (ggufTypeToQuant t)

structure GgufTensorInfo where
  name : String
  /-- 64-bit words, innermost dimension first. -/
  dims : List Nat
  type : GgufType
  offset : Nat
  deriving DecidableEq, Repr

/-- The fields of a parsed header that loading a tensor uses. -/
structure GgufFile where
  tensors : List GgufTensorInfo
  dataOffset : Nat
  path : String
  deriving DecidableEq, Repr

/-- Row-major dims, as `int64_t`. -/
def dimsToShape (dims : List Nat) : List Int := dims.reverse.map toI64

def numelOf (dims : List Nat) : Nat := dims.foldl (fun n d => wrap64 (n * d)) 1

/-! ## `name#e=3` -/

/-- `(int) strtol(s, nullptr, 10)`, which is what `atoi` computes. -/
def atoi (s : List Char) : Int :=
  let s := s.dropWhile (·.isWhitespace)
  let (neg, s) :=
    match s with
    | '-' :: r => (true, r)
    | '+' :: r => (false, r)
    | r => (false, r)
  let m : Nat := (s.takeWhile (·.isDigit)).foldl (fun n c => n * 10 + (c.toNat - 48)) 0
  let long : Int := if neg then max (-(m : Int)) (-2 ^ 63) else min m (2 ^ 63 - 1)
  (long + 2 ^ 31) % 2 ^ 32 - 2 ^ 31

/-- `find("#e=")`: what is before its first occurrence and what is after it. -/
def findSlice : List Char → Option (List Char × List Char)
  | [] => none
  | c :: s =>
    if ['#', 'e', '='].isPrefixOf (c :: s) then some ([], s.drop 2)
    else (findSlice s).map fun p => (c :: p.1, p.2)

/-- The name without the suffix, and the expert (-1 without one). -/
def parseExpertSlice (name : String) : String × Int :=
  match findSlice name.toList with
  | some (key, e) => (String.ofList key, atoi e)
  | none => (name, -1)

/-! ## The two loaders -/

/-- What both loaders compute before they read. -/
structure TensorSlice where
  info : GgufTensorInfo
  expert : Int
  /-- The slice's index and element count. -/
  eIdx : Nat
  n : Nat
  deriving DecidableEq, Repr

def resolveSlice (notFound : String) (file : GgufFile) (tensorName : String) : Result TensorSlice :=
  let (key, expert) := parseExpertSlice tensorName
  match file.tensors.find? (·.name == key) with
  | none => fail .notFound (notFound ++ key)
  | some info =>
    let nFull := numelOf info.dims
    if expert < 0 then .ok ⟨info, expert, 0, nFull⟩
    else if info.dims.length < 3 then
      fail .invalidArgument ("GGUF expert slice needs rank-3 bank: " ++ key)
    else
      let eCount := info.dims.getLast?.getD 0
      if eCount = 0 ∨ nFull % eCount ≠ 0 ∨ (eCount : Int) ≤ expert then
        fail .invalidArgument ("GGUF expert slice out of range for " ++ key)
      else .ok ⟨info, expert, expert.toNat, nFull / eCount⟩

namespace TensorSlice

def qf (s : TensorSlice) : QuantFormat := ggufTypeToQuant s.info.type

/-- Bytes of the tensor before the slice. -/
def packedBefore (s : TensorSlice) : Nat :=
  let p := packedNbytes s.qf (wrap64 (s.eIdx * s.n))
  if p = 0 then wrap64 (s.eIdx * s.n * ggufTypeNbytesPerElem s.info.type) else p

def start (file : GgufFile) (s : TensorSlice) : Nat := wrap64 (file.dataOffset + s.info.offset + s.packedBefore)

def shape (s : TensorSlice) : List Int :=
  let d := dimsToShape s.info.dims
  if 0 ≤ s.expert then d.drop 1 else d

/-- Bytes of the slice, 0 when the type's size is unknown. -/
def nbytes (s : TensorSlice) : Nat :=
  let p := packedNbytes s.qf s.n
  if p = 0 then wrap64 (s.n * ggufTypeNbytesPerElem s.info.type) else p

end TensorSlice

def ggufLoadTensorRaw (fs : FileSystem) (file : GgufFile) (tensorName : String) :
    Result (List UInt8 × List Int × GgufType) := do
  let s ← resolveSlice "tensor not in gguf: " file tensorName
  if !ggufTypeSupported s.info.type then
    fail .notImplemented ("unsupported GGUF type for raw load: " ++ s.info.type.toString)
  else if s.nbytes = 0 then
    fail .notImplemented ("unsupported GGUF type for raw load: " ++ s.info.type.toString)
  else
    let r ← ByteReader.fromFile fs file.path
    let (bytes, _) ← (r.seek (s.start file)).readBytes s.nbytes
    .ok (bytes, s.shape, s.info.type)

variable {K : Type} [Ring K] (F : FloatBits K)

/-- One element group per block, block after block. -/
def readBlocks (readBlock : ByteReader → Result (List K × ByteReader)) : Nat → ByteReader → Result (List K)
  | 0, _ => .ok []
  | nblocks + 1, r => do
    let (xs, r) ← readBlock r
    let rest ← readBlocks readBlock nblocks r
    .ok (xs ++ rest)

def readBlockQ8_0 (r : ByteReader) : Result (List K × ByteReader) := do
  let (dbits, r) ← r.readU16
  let d := F.f16 dbits
  let (qs, r) ← r.readBytes 32
  .ok ((List.range 32).map fun i => d * ((Quant.i8 (byteAt qs i) : Int) : K), r)

/-- The loader's own `Q4_0`: `out[i]` and `out[i + 1]` from the two nibbles of `qs[i / 2]`. -/
def readBlockQ4_0 (r : ByteReader) : Result (List K × ByteReader) := do
  let (dbits, r) ← r.readU16
  let d := F.f16 dbits
  let (qs, r) ← r.readBytes 16
  .ok ((List.range 32).map fun i =>
    let byte := byteAt qs (i / 2)
    let x := if i % 2 = 0 then byte &&& 0x0F else byte >>> 4
    d * (((x.toNat : Int) - 8 : Int) : K), r)

/-- `std::vector<float>::max_size()`. -/
def maxFloats : Nat := 2 ^ 61 - 1

def ggufLoadTensorF32 (fs : FileSystem) (file : GgufFile) (tensorName : String) : Result (List K × List Int) := do
  let s ← resolveSlice "GGUF tensor not found: " file tensorName
  let r ← ByteReader.fromFile fs file.path
  let r := r.seek (s.start file)
  if s.n > maxFloats then .error (.thrown "std::length_error")
  else
    let out : List K ←
      match s.info.type with
      | .f32 => do
        let (b, _) ← r.readBytes (wrap64 (s.n * 4))
        .ok ((List.range s.n).map fun i => F.f32 (u32At b (4 * i)))
      | .f16 => do
        let (b, _) ← r.readBytes (wrap64 (s.n * 2))
        .ok ((List.range s.n).map fun i => F.f16 (u16At b (2 * i)))
      | .q8_0 =>
        if s.n % 32 ≠ 0 then fail .invalidArgument "Q8_0 numel not multiple of 32"
        else readBlocks (readBlockQ8_0 F) (s.n / 32) r
      | .q4_0 =>
        if s.n % 32 ≠ 0 then fail .invalidArgument "Q4_0 numel not multiple of 32"
        else readBlocks (readBlockQ4_0 F) (s.n / 32) r
      | .i8 => do
        let (b, _) ← r.readBytes s.n
        .ok (b.map fun x => ((Quant.i8 x : Int) : K))
      | .q4_1 | .q5_0 | .q5_1 | .q2_k | .q3_k | .q4_k | .q5_k | .q6_k | .iq4_nl => do
        let (packed, _, _) ← ggufLoadTensorRaw fs file tensorName
        dequantGgufRow F s.qf packed (toI64 s.n)
      | t =>
        fail .notImplemented ("unsupported GGUF dtype for f32 load: " ++ t.toString ++
          " (supported: F32/F16/Q4_0/Q4_1/Q5_*/Q8_0/Q*_K/IQ4_NL/I8)")
    .ok (out, s.shape)

end Uaii.Loaders
