/-
  Uaii.Loaders.Safetensors — reading and writing safetensors files
  (`libs/uaii-loaders/src/safetensors.cpp`: `safetensors_read_header`,
  `safetensors_load_tensor_f32`, `safetensors_write` and their conversions).

  A `float` is its 32 bits, a `std::string` its bytes, one character each. A file is what
  is written; where its map is walked, the order is `MapOrder`'s, and the tensors and the
  metadata to be written are listed in the order in which their maps are walked.

  A header number that no integer can hold, and a read whose wrapped end alone lies in
  the file, are undefined behaviour.
-/

import Mathlib.Algebra.Order.BigOperators.GroupWithZero.List
import Uaii.Loaders.BinaryIo
import Uaii.Loaders.MiniJson
import Uaii.Loaders.GgufTensor

namespace Uaii.Loaders

open Codec (leBytes leValue textOf bytesOf)
open MiniJson (Value findField quoted field arrayText objectText)
open TextStream (integer decimal)
open Uaii.Ir (castI64 castUnsigned)

/-- The order in which a map is walked. -/
structure MapOrder where
  walk : {α : Type} → List (String × α) → List (String × α)
  perm : ∀ {α : Type} (m : List (String × α)), (walk m).Perm m

def MapOrder.inserted : MapOrder := ⟨id, fun _ => .refl _⟩

/-! ## Floats -/

def f32ToF16Bits (x : UInt32) : UInt16 :=
  let sign := (x >>> 16) &&& 0x8000
  let exp : Int := ((x >>> 23) &&& 0xFF).toNat - 127 + 15
  let mant := x &&& 0x7FFFFF
  if (x >>> 23) &&& 0xFF = 0xFF then (sign ||| 0x7C00 ||| (if mant = 0 then (0 : UInt32) else 0x200)).toUInt16
  else if exp ≤ 0 then
    if exp < -10 then sign.toUInt16
    else
      let m := (mant ||| 0x800000) >>> (1 - exp).toNat.toUInt32
      (sign ||| (m >>> 13)).toUInt16
  else if 31 ≤ exp then (sign ||| 0x7C00).toUInt16
  else (sign ||| (exp.toNat.toUInt32 <<< 10) ||| (mant >>> 13)).toUInt16

def f32ToBf16Bits (x : UInt32) : UInt16 :=
  let lsb := (x >>> 16) &&& 1
  ((x + (0x7FFF + lsb)) >>> 16).toUInt16

/-- The `F16` branch of the reader. -/
def f16ToF32Bits (h : UInt16) : UInt32 :=
  let sign := (h.toUInt32 >>> 15) &&& 1
  let exp := (h.toUInt32 >>> 10) &&& 0x1F
  let mant := h.toUInt32 &&& 0x3FF
  if exp = 0 then sign <<< 31
  else if exp = 31 then ((sign <<< 31) ||| (0x7F800000 : UInt32)) ||| (mant <<< 13)
  else ((sign <<< 31) ||| ((exp + 112) <<< 23)) ||| (mant <<< 13)

def bf16ToF32Bits (h : UInt16) : UInt32 := h.toUInt32 <<< 16

/-- `static_cast<float>` of an integer below `2 ^ 24`. -/
def f32OfInt (i : Int) : UInt32 :=
  if i = 0 then 0
  else
    let k := Nat.log2 i.natAbs
    .ofNat ((if i < 0 then 2 ^ 31 else 0) + (127 + k) * 2 ^ 23 + (i.natAbs * 2 ^ (23 - k) - 2 ^ 23))

/-! ## `safetensors_read_header` -/

structure SafetensorsTensorInfo where
  name : String
  dtype : String
  shape : List Int
  /-- `data_offsets[0]` and `data_offsets[1]`. -/
  first : Nat
  last : Nat
  deriving DecidableEq, Repr

structure SafetensorsFile where
  path : String
  headerSize : Nat
  dataOffset : Nat
  metadata : List (String × String)
  tensors : List SafetensorsTensorInfo
  deriving DecidableEq, Repr

def dtypeOf : Value → Result String
  | .string s => .ok s
  | _ => fail .invalidArgument "dtype not string"

def shapeDim : Value → Result Int
  | .number x => castI64 x
  | _ => fail .invalidArgument "shape dim"

def shapeOf : Value → Result (List Int)
  | .array items => items.mapM shapeDim
  | _ => fail .invalidArgument "shape not array"

/-- The kinds of the two are not looked at. -/
def dataOffsets : Value → Result (Nat × Nat)
  | .array [a, b] => do
    let first ← castUnsigned 64 a.num
    let last ← castUnsigned 64 b.num
    .ok (first, last)
  | _ => fail .invalidArgument "data_offsets"

def tensorInfo (name : String) (fields : List (String × Value)) : Result SafetensorsTensorInfo :=
  match findField fields "dtype", findField fields "shape", findField fields "data_offsets" with
  | some dit, some sit, some oit => do
    let dtype ← dtypeOf dit
    let shape ← shapeOf sit
    let (first, last) ← dataOffsets oit
    .ok ⟨name, dtype, shape, first, last⟩
  | _, _, _ => fail .invalidArgument ("tensor entry incomplete: " ++ name)

def metadataEntry (m : String × Value) : Option (String × String) :=
  match m.2 with
  | .string s => some (m.1, s)
  | _ => none

/-- One entry of the header. -/
def addEntry (order : MapOrder) (file : SafetensorsFile) (kv : String × Value) : Result SafetensorsFile :=
  match kv.2 with
  | .object fields =>
    if kv.1 = "__metadata__" then .ok { file with metadata := (order.walk fields).filterMap metadataEntry }
    else do
      let info ← tensorInfo kv.1 fields
      .ok { file with tensors := file.tensors ++ [info] }
  | _ => .ok file

def headerFile (order : MapOrder) (path : String) (headerLen : Nat) : Value → Result SafetensorsFile
  | .object fields => (order.walk fields).foldlM (addEntry order) ⟨path, headerLen, wrap64 (8 + headerLen), [], []⟩
  | _ => fail .invalidArgument "safetensors header not object"

def safetensorsReadHeader (order : MapOrder) (fs : FileSystem) (path : String) : Result SafetensorsFile := do
  let r ← ByteReader.fromFile fs path
  let (headerLen, r) ← r.readPod 8
  if headerLen = 0 ∨ r.data.length < headerLen then fail .invalidArgument "invalid safetensors header length"
  else
    let (header, _) ← r.readBytes headerLen
    let root ← MiniJson.parse (textOf header)
    headerFile order path headerLen root

theorem readHeader_of {order : MapOrder} {fs : FileSystem} {path : String} {data header : List UInt8} {len : Nat}
    {r r' : ByteReader} {root : Value} (hfs : fs path = some data) (hlen : ByteReader.readPod ⟨data, 0⟩ 8 = .ok (len, r))
    (hok : ¬ (len = 0 ∨ r.data.length < len)) (hheader : r.readBytes len = .ok (header, r'))
    (hroot : MiniJson.parse (textOf header) = .ok root) :
    safetensorsReadHeader order fs path = headerFile order path len root := by
  simp only [safetensorsReadHeader, ByteReader.fromFile, hfs, ok_bind, hlen, hok, if_false, hheader, hroot]

/-! ## `safetensors_load_tensor_f32` -/

def loadNumel (shape : List Int) : Result Nat :=
  shape.foldlM (fun numel d => if d < 0 then fail .invalidArgument "dynamic shape" else .ok (wrap64 (numel * d.toNat))) 1

/-- A shape without negative dimensions: the product, which wraps. -/
theorem loadNumel_iff {shape : List Int} {n : Nat} :
    loadNumel shape = .ok n ↔ (∀ d ∈ shape, 0 ≤ d) ∧ n = wrap64 shape.prod.toNat := by
  have hloop : ∀ (shape : List Int) (m : Nat), m < 2 ^ 64 → (shape.foldlM (fun numel d =>
      if d < 0 then fail .invalidArgument "dynamic shape" else .ok (wrap64 (numel * d.toNat))) m = (.ok n : Result Nat) ↔
        (∀ d ∈ shape, 0 ≤ d) ∧ n = wrap64 (m * shape.prod.toNat)) := by
    intro shape
    induction shape with
    | nil =>
      intro m hm
      have hwrap : wrap64 (m * (List.prod ([] : List Int)).toNat) = m := by simpa using wrap64_of_lt hm
      rw [hwrap]
      show (Except.ok m : Result Nat) = .ok n ↔ _
      simp [eq_comm]
    | cons d ds ih =>
      intro m hm
      rw [List.foldlM_cons, List.forall_mem_cons, List.prod_cons]
      by_cases hd : d < 0
      · simp only [hd, if_true]
        exact ⟨fun h => absurd h (fail_ne_ok _ _ _), fun h => absurd hd (not_lt.mpr h.1.1)⟩
      · simp only [hd, if_false]
        rw [ok_bind, ih (wrap64 (m * d.toNat)) (Nat.mod_lt _ (by decide))]
        have hmul : (∀ e ∈ ds, 0 ≤ e) → wrap64 (wrap64 (m * d.toNat) * ds.prod.toNat) = wrap64 (m * (d * ds.prod).toNat) := by
          intro hds
          rw [Int.toNat_mul (not_lt.mp hd) (List.prod_nonneg hds), wrap64, wrap64, wrap64, Nat.mod_mul_mod, Nat.mul_assoc]
        exact ⟨fun h => ⟨⟨not_lt.mp hd, h.1⟩, h.2.trans (hmul h.1)⟩, fun h => ⟨h.1.2, h.2.trans (hmul h.1.2).symm⟩⟩
  have hone := hloop shape 1 (by decide)
  rwa [Nat.one_mul] at hone

/-- The `i`-th word of `k` bytes. -/
def wordAt (k : Nat) (bytes : List UInt8) (i : Nat) : Nat := leValue ((bytes.drop (k * i)).take k)

/-- How an element is stored: its bytes, and how they give a float. -/
structure Stored where
  label : String
  size : Nat
  decode : Nat → UInt32

def storedF32 : Stored := ⟨"F32", 4, .ofNat⟩

def storedF16 : Stored := ⟨"F16", 2, fun w => f16ToF32Bits (.ofNat w)⟩

def storedBf16 : Stored := ⟨"BF16", 2, fun w => bf16ToF32Bits (.ofNat w)⟩

def storedI8 : Stored := ⟨"I8", 1, fun w => f32OfInt (Quant.i8 (.ofNat w))⟩

def storedU8 : Stored := ⟨"U8", 1, fun w => f32OfInt w⟩

def storedOf (dtype : String) : Result Stored :=
  if dtype = "F32" ∨ dtype = "f32" then .ok storedF32
  else if dtype = "F16" ∨ dtype = "f16" then .ok storedF16
  else if dtype = "BF16" ∨ dtype = "bf16" then .ok storedBf16
  else if dtype = "I8" ∨ dtype = "i8" then .ok storedI8
  else if dtype = "U8" ∨ dtype = "u8" then .ok storedU8
  else if dtype = "F8_E4M3" ∨ dtype = "F8_E5M2" ∨ dtype = "f8_e4m3" ∨ dtype = "f8_e5m2" then
    fail .notImplemented ("safetensors dtype " ++ dtype ++ " is not loaded. Convert this checkpoint to BF16.")
  else fail .notImplemented ("safetensors dtype not supported for f32 load: " ++ dtype)

namespace SafetensorsTensorInfo

def nbytes (info : SafetensorsTensorInfo) : Nat := wrap64 (info.last + (2 ^ 64 - info.first))

end SafetensorsTensorInfo

def safetensorsLoadTensorF32 (fs : FileSystem) (file : SafetensorsFile) (tensorName : String) :
    Result (List UInt32 × List Int) :=
  match file.tensors.find? (·.name == tensorName) with
  | none => fail .notFound ("safetensors tensor not found: " ++ tensorName)
  | some info => do
    let r ← ByteReader.fromFile fs file.path
    let r := r.seek (wrap64 (file.dataOffset + info.first))
    let numel ← loadNumel info.shape
    if maxFloats < numel then .error (.thrown "std::length_error")
    else
      let stored ← storedOf info.dtype
      if info.nbytes ≠ wrap64 (numel * stored.size) then fail .invalidArgument (stored.label ++ " size mismatch")
      else
        let (b, _) ← r.readBytes info.nbytes
        .ok ((List.range numel).map fun i => stored.decode (wordAt stored.size b i), info.shape)

section Load

variable {fs : FileSystem} {file : SafetensorsFile} {name : String} {info : SafetensorsTensorInfo} {data : List UInt8} {numel : Nat}
  {stored : Stored}

/-- Where a tensor starts in the file. -/
def SafetensorsFile.start (file : SafetensorsFile) (info : SafetensorsTensorInfo) : Nat := wrap64 (file.dataOffset + info.first)

/-- A load whose checks pass is its read. -/
theorem load_of (hinfo : file.tensors.find? (·.name == name) = some info) (hfs : fs file.path = some data)
    (hnumel : loadNumel info.shape = .ok numel) (hmax : numel ≤ maxFloats) (hstored : storedOf info.dtype = .ok stored)
    (hbytes : info.nbytes = wrap64 (numel * stored.size)) :
    safetensorsLoadTensorF32 fs file name = (ByteReader.readBytes ⟨data, file.start info⟩ info.nbytes).bind fun p =>
      .ok ((List.range numel).map fun i => stored.decode (wordAt stored.size p.1 i), info.shape) := by
  simp only [safetensorsLoadTensorF32, hinfo, ByteReader.fromFile, hfs, ok_bind, hnumel, not_lt.mpr hmax, if_false, hstored,
    not_not.mpr hbytes]
  rfl

theorem loadNumel_defined (shape : List Int) (what : String) : loadNumel shape ≠ .error (.undefined what) := by
  have hloop : ∀ (shape : List Int) (n : Nat), shape.foldlM (fun numel d =>
      if d < 0 then fail .invalidArgument "dynamic shape" else .ok (wrap64 (numel * d.toNat))) n ≠
        (.error (.undefined what) : Result Nat) := by
    intro shape
    induction shape with
    | nil =>
      intro n h
      cases h
    | cons d ds ih =>
      intro n
      rw [List.foldlM_cons]
      split
      · intro h
        cases h
      · exact ih _
  exact hloop shape 1

theorem storedOf_defined (dtype what : String) : storedOf dtype ≠ .error (.undefined what) := by
  unfold storedOf
  repeat' split
  all_goals
    intro h
    cases h

/-- What a load that passed has checked. -/
theorem load_checked (h : Passed (safetensorsLoadTensorF32 fs file name)) :
    ∃ info data numel stored, file.tensors.find? (·.name == name) = some info ∧ fs file.path = some data ∧
      loadNumel info.shape = .ok numel ∧ numel ≤ maxFloats ∧ storedOf info.dtype = .ok stored ∧
      info.nbytes = wrap64 (numel * stored.size) := by
  unfold safetensorsLoadTensorF32 at h
  cases hinfo : file.tensors.find? (·.name == name) with
  | none =>
    simp only [hinfo] at h
    exact absurd h fail_not_passed
  | some info =>
    simp only [hinfo, ByteReader.fromFile] at h
    cases hfs : fs file.path with
    | none =>
      simp only [hfs] at h
      exact absurd h fail_not_passed
    | some data =>
      simp only [hfs, ok_bind] at h
      obtain ⟨numel, hnumel, h⟩ := h.bind (loadNumel_defined _)
      split at h
      · rcases h with ⟨a, ha⟩ | ⟨what, hw⟩
        · cases ha
        · cases hw
      · rename_i hmax
        obtain ⟨stored, hstored, h⟩ := h.bind (storedOf_defined _)
        split at h
        · exact absurd h fail_not_passed
        · rename_i hbytes
          exact ⟨info, data, numel, stored, rfl, rfl, hnumel, not_lt.mp hmax, hstored, not_not.mp hbytes⟩

end Load

/-! ## `safetensors_write` -/

/-- A name, its shape and its values. -/
structure NamedTensor where
  name : String
  shape : List Int
  data : List UInt32
  deriving DecidableEq, Repr

structure Planned where
  tensor : NamedTensor
  first : Nat
  last : Nat
  deriving DecidableEq, Repr

def planTensors (elemBytes : Nat) : Nat → List NamedTensor → List Planned
  | _, [] => []
  | offset, t :: ts =>
    let last := wrap64 (offset + wrap64 (t.data.length * elemBytes))
    ⟨t, offset, last⟩ :: planTensors elemBytes last ts

def metadataText (metadata : List (String × String)) : List Char :=
  field "__metadata__" (objectText (metadata.map fun m => field m.1 (quoted m.2)))

def plannedText (dt : String) (p : Planned) : List Char :=
  field p.tensor.name (objectText [field "dtype" (quoted dt), field "shape" (arrayText (p.tensor.shape.map integer)),
    field "data_offsets" (arrayText [decimal p.first, decimal p.last])])

def headerText (dt : String) (metadata : List (String × String)) (planned : List Planned) : List Char :=
  objectText ((if metadata = [] then [] else [metadataText metadata]) ++ planned.map (plannedText dt))

/-- The bytes of a value. -/
def packedBytes (dt : String) (x : UInt32) : List UInt8 :=
  if dt = "F32" then leBytes 4 x.toNat
  else if dt = "F16" then leBytes 2 (f32ToF16Bits x).toNat
  else leBytes 2 (f32ToBf16Bits x).toNat

/-- `std::toupper` of each character. -/
def upper (dtype : String) : String := String.ofList (dtype.toList.map Char.toUpper)

/-- The file. -/
def safetensorsWrite (tensors : List NamedTensor) (dtype : String) (metadata : List (String × String)) : Result (List UInt8) :=
  let dt := upper dtype
  if dt ≠ "F32" ∧ dt ≠ "F16" ∧ dt ≠ "BF16" then
    fail .invalidArgument ("safetensors_write dtype must be F32, F16, or BF16 (got " ++ dtype ++ ")")
  else
    let planned := planTensors (if dt = "F32" then 4 else 2) 0 tensors
    let header := bytesOf (headerText dt metadata planned)
    .ok (leBytes 8 header.length ++ header ++ tensors.flatMap fun t => t.data.flatMap (packedBytes dt))

end Uaii.Loaders
