/-
  Uaii.Loaders.WeightRef — `load_weight_ref_f32` and `load_weight_ref_auto`
  (`libs/uaii-loaders/src/registry.cpp`).

  A weight reference is `file#tensor`, a tensor of a container, or a file of raw
  floats. The header parsers, the safetensors reader and the file system are
  parameters: what is proved holds for every content of the files.

  Proved: a tensor whose bytes and whose floats have one size is a tensor of floats
  (`raw_as_floats`).
-/

import Uaii.Loaders.GgufPaths
import Uaii.Ir.Graph

namespace Uaii.Loaders

open Uaii.Ir Uaii.Quant

/-- What the loaders read from outside. -/
structure Readers (K : Type) where
  fs : FileSystem
  /-- `gguf_read_header`. -/
  ggufHeader : String → Result GgufFile
  /-- `safetensors_read_header`, then `safetensors_load_tensor_f32`. -/
  safetensors : String → String → Result (List K × List Int)

/-! ## References -/

def joinPath (dir file : String) : String :=
  if dir = "" then file
  else
    match dir.toList.getLast? with
    | some '/' | some '\\' => dir ++ file
    | _ => dir ++ "/" ++ file

/-- What is before the first `#`, and what is after it. -/
def splitHash (s : String) : Option (String × String) :=
  if s.toList.contains '#' then
    some (String.ofList (s.toList.takeWhile (· != '#')), String.ofList ((s.toList.dropWhile (· != '#')).drop 1))
  else none

/-- From the last dot on. -/
def extension (s : String) : String :=
  if s.toList.contains '.' then String.ofList ('.' :: (s.toList.reverse.takeWhile (· != '.')).reverse) else ""

def lowerExtension (s : String) : String := String.ofList ((extension s).toList.map Char.toLower)

/-! ## Loading -/

/-- What a weight's buffer holds: bytes of a file, or decoded floats. -/
inductive Content (K : Type) where
  | bytes (b : List UInt8)
  | floats (xs : List K)
  deriving DecidableEq, Repr

/-- Elements of a shape, negative dimensions counted as 0; 1 without dimensions. -/
def countDims (dims : List Int) : Nat := dims.foldl (fun n d => wrap64 (n * d.toNat)) 1

/-- The check of a loaded shape: equal, or as many elements. -/
def shapeFits (expected shape : List Int) : Bool :=
  expected = [] ∨ expected = shape ∨ countDims expected = countDims shape

section Loading

variable {K : Type} [Ring K] (F : FloatBits K) (rd : Readers K)

/-- The floats of a container's tensor. -/
def loadContainerF32 (weightRef file tensor : String) : Result (List K × List Int) :=
  if lowerExtension file = ".gguf" then do
    let gf ← rd.ggufHeader file
    ggufLoadTensorF32 F rd.fs gf tensor
  else if lowerExtension file = ".safetensors" then rd.safetensors file tensor
  else fail .invalidArgument ("unsupported weight container in ref: " ++ weightRef)

/-- `load_weight_ref_f32` into `nbytes` bytes at `dst`; `hasDst` is `dst != nullptr`. -/
def loadWeightRefF32 (weightRef weightsDir : String) (expected : List Int) (hasDst : Bool) (nbytes : Nat) :
    Result (Content K) :=
  if !hasDst ∨ nbytes = 0 then fail .invalidArgument "weight load args"
  else
    match splitHash weightRef with
    | some (file, tensor) => do
      let (values, shape) ← loadContainerF32 F rd weightRef (joinPath weightsDir file) tensor
      if !shapeFits expected shape then fail .invalidArgument ("weight shape mismatch for " ++ weightRef)
      else if wrap64 (values.length * 4) ≠ nbytes then fail .invalidArgument ("weight byte size mismatch for " ++ weightRef)
      else .ok (.floats values)
    | none =>
      match rd.fs (joinPath weightsDir weightRef) with
      | none => fail .notFound ("weight file not found: " ++ joinPath weightsDir weightRef)
      | some data =>
        if data.length < nbytes then fail .ioError ("short read for weight " ++ joinPath weightsDir weightRef)
        else .ok (.bytes (data.take nbytes))

/-- `load_weight_ref_auto` with `keep_packed` and no float destination: the packed bytes
    and their format. -/
def loadWeightRefAuto (weightRef weightsDir : String) (expected : List Int) : Result (List UInt8 × QuantFormat) :=
  let asF32 : Result (List UInt8 × QuantFormat) := do
    let _ ← loadWeightRefF32 F rd weightRef weightsDir expected false 0
    .ok ([], .f32)
  match splitHash weightRef with
  | none => asF32
  | some (file, tensor) =>
    if lowerExtension (joinPath weightsDir file) ≠ ".gguf" then asF32
    else do
      let gf ← rd.ggufHeader (joinPath weightsDir file)
      let (packed, _, gt) ← ggufLoadTensorRaw rd.fs gf tensor
      if !ggufTypeSupported gt then fail .notImplemented ("unsupported GGUF quant type: " ++ gt.toString)
      else if !isGgufBlockQuant (ggufTypeToQuant gt) then asF32
      else .ok (packed, ggufTypeToQuant gt)

end Loading

/-! ## Bytes and floats of one tensor -/

section Sizes

variable {K : Type} [CommRing K] (F : FloatBits K) (fs : FileSystem) (file : GgufFile) (name : String)

omit [CommRing K] in
theorem readBlocks_length {readBlock : ByteReader → Result (List K × ByteReader)}
    (hblock : ∀ r xs r', readBlock r = .ok (xs, r') → xs.length = 32) :
    ∀ (nb : Nat) (r : ByteReader) (xs : List K), readBlocks readBlock nb r = .ok xs → xs.length = nb * 32 := by
  intro nb
  induction nb with
  | zero =>
    intro r xs h
    cases h
    rfl
  | succ nb ih =>
    intro r xs h
    unfold readBlocks at h
    obtain ⟨⟨ys, r'⟩, hy, h⟩ := bind_ok h
    obtain ⟨zs, hz, h⟩ := bind_ok h
    cases h
    rw [List.length_append, hblock _ _ _ hy, ih _ _ hz]
    omega

theorem readBlockQ8_0_length (r : ByteReader) (xs : List K) (r' : ByteReader) (h : readBlockQ8_0 F r = .ok (xs, r')) :
    xs.length = 32 := by
  unfold readBlockQ8_0 at h
  obtain ⟨⟨d, r₁⟩, -, h⟩ := bind_ok h
  obtain ⟨⟨qs, r₂⟩, -, h⟩ := bind_ok h
  cases h
  simp

theorem readBlockQ4_0_length (r : ByteReader) (xs : List K) (r' : ByteReader) (h : readBlockQ4_0 F r = .ok (xs, r')) :
    xs.length = 32 := by
  unfold readBlockQ4_0 at h
  obtain ⟨⟨d, r₁⟩, -, h⟩ := bind_ok h
  obtain ⟨⟨qs, r₂⟩, -, h⟩ := bind_ok h
  cases h
  simp

/-- The row kernels check that the columns are whole blocks. -/
theorem dequantGgufRow_cols {f : QuantFormat} {packed : List UInt8} {n : Nat} {row : List K}
    (h : dequantGgufRow F f packed n = .ok row) : isGgufBlockQuant f = true → row.length = n := by
  intro hf
  refine dequantGgufRow_length F hf ?_ h
  obtain ⟨k, hk, hq, -⟩ := rowKernel_spec F hf
  simp only [dequantGgufRow, hk] at h
  unfold dequantRow at h
  split at h
  · exact absurd h (fail_ne_ok _ _ _)
  · rename_i hmod
    rw [← hq]
    have hmod := not_not.mp hmod
    rw [Int.tmod_eq_emod_of_nonneg (by omega)] at hmod
    exact_mod_cast hmod

/-- A tensor of floats has as many as the slice has elements. -/
theorem loadF32_length {s : TensorSlice} (hs : resolveSlice "GGUF tensor not found: " file name = .ok s) {xs : List K}
    {shape : List Int} (h : ggufLoadTensorF32 F fs file name = .ok (xs, shape)) : s.n ≤ maxFloats ∧ xs.length = s.n := by
  simp only [ggufLoadTensorF32, hs, ok_bind] at h
  obtain ⟨r, -, h⟩ := bind_ok h
  split at h
  · cases h
  rename_i hfits
  refine ⟨Nat.not_lt.mp hfits, ?_⟩
  have hcols : toI64 s.n = s.n := toI64_of_lt (by unfold maxFloats at hfits; omega)
  have hkernel : isGgufBlockQuant s.qf = true →
      (ggufLoadTensorRaw fs file name >>= fun p => dequantGgufRow F s.qf p.1 (toI64 s.n) >>= fun out =>
        .ok (out, s.shape)) = .ok (xs, shape) → xs.length = s.n := by
    intro hf hrow
    obtain ⟨p, -, hrow⟩ := bind_ok hrow
    obtain ⟨out, hout, hrow⟩ := bind_ok hrow
    cases hrow
    rw [hcols] at hout
    exact dequantGgufRow_cols F hout hf
  have hblocks : ∀ (readBlock : ByteReader → Result (List K × ByteReader)) (r : ByteReader) (m : String),
      (∀ r ys r', readBlock r = .ok (ys, r') → ys.length = 32) →
      (if s.n % 32 ≠ 0 then fail .invalidArgument m >>= fun out => .ok (out, s.shape)
        else readBlocks readBlock (s.n / 32) r >>= fun out => .ok (out, s.shape)) = .ok (xs, shape) → xs.length = s.n := by
    intro readBlock r m hblock h
    split at h
    · cases h
    · obtain ⟨out, hout, h⟩ := bind_ok h
      cases h
      rw [readBlocks_length hblock _ _ _ hout]
      omega
  cases ht : s.info.type
  case q4_0 => rw [ht] at h; exact hblocks _ _ _ (readBlockQ4_0_length F) h
  case q8_0 => rw [ht] at h; exact hblocks _ _ _ (readBlockQ8_0_length F) h
  case q4_1 | q5_0 | q5_1 | q2_k | q3_k | q4_k | q5_k | q6_k | iq4_nl =>
    rw [ht] at h
    exact hkernel (by rw [TensorSlice.qf, ht]; rfl) h
  case f32 | f16 =>
    simp only [ht] at h
    obtain ⟨p, -, h⟩ := bind_ok h
    cases h
    simp
  case i8 =>
    simp only [ht] at h
    obtain ⟨⟨b, r'⟩, hb, h⟩ := bind_ok h
    cases h
    rw [List.length_map, ByteReader.readBytes_length hb]
  all_goals
    rw [ht] at h
    cases h

/-- A raw load that succeeds is of a supported type, and has the bytes of its slice. -/
theorem loadRaw_slice {bytes : List UInt8} {shape : List Int} {ty : GgufType}
    (h : ggufLoadTensorRaw fs file name = .ok (bytes, shape, ty)) :
    ∃ s, resolveSlice "tensor not in gguf: " file name = .ok s ∧ s.info.type = ty ∧ ggufTypeSupported ty = true ∧
      s.nbytes ≠ 0 ∧ bytes.length = s.nbytes := by
  have hload := h
  unfold ggufLoadTensorRaw at h
  obtain ⟨s, hs, h⟩ := bind_ok h
  split at h
  · exact absurd h (fail_ne_ok _ _ _)
  rename_i hsup
  split at h
  · exact absurd h (fail_ne_ok _ _ _)
  rename_i hnz
  obtain ⟨r, -, h⟩ := bind_ok h
  obtain ⟨⟨b, r'⟩, hb, h⟩ := bind_ok h
  cases h
  exact ⟨s, hs, rfl, by simpa using hsup, hnz, ByteReader.readBytes_length hb⟩

/-- The floats in memory. -/
def wordsOf (b : List UInt8) : List K := (List.range (b.length / 4)).map fun i => F.f32 (u32At b (4 * i))

def Content.asFloats : Content K → List K
  | .bytes b => wordsOf F b
  | .floats xs => xs

/-- Only a tensor of floats has as many bytes packed as decoded; then they are the same. -/
theorem raw_as_floats {bytes : List UInt8} {shape shape' : List Int} {ty : GgufType} {xs : List K}
    (hraw : ggufLoadTensorRaw fs file name = .ok (bytes, shape, ty))
    (hf32 : ggufLoadTensorF32 F fs file name = .ok (xs, shape')) (hsize : bytes.length = wrap64 (xs.length * 4)) :
    ty = .f32 ∧ wordsOf F bytes = xs := by
  obtain ⟨s, hs, hty, hsup, hnz, hlen⟩ := loadRaw_slice fs file name hraw
  obtain ⟨hfits, hxs⟩ := loadF32_length F fs file name (resolveSlice_message file name hs) hf32
  have hwrap : wrap64 (s.n * 4) = s.n * 4 := wrap64_of_lt (by unfold maxFloats at hfits; omega)
  rw [hlen, hxs, hwrap] at hsize
  have hpos : 0 < s.n := by omega
  have hf : ty = .f32 := by
    by_cases hblock : ty.isBlock = true
    · subst hty
      have hle : s.n / blockElems s.qf * blockBytes s.qf ≤ 2 * s.n := by
        have hq : isGgufBlockQuant s.qf = true := hblock
        generalize s.qf = q at hq ⊢
        cases q <;> simp_all only [isGgufBlockQuant, blockElems, blockBytes, reduceCtorEq]
        all_goals omega
      rw [nbytes_eq hblock hfits] at hsize
      omega
    · cases ty <;> simp [GgufType.isBlock, ggufTypeToQuant, isGgufBlockQuant, ggufTypeSupported] at hblock hsup ⊢
      have hhalf : wrap64 (s.n * 2) = s.n * 2 := wrap64_of_lt (by unfold maxFloats at hfits; omega)
      simp only [TensorSlice.nbytes, TensorSlice.qf, hty, ggufTypeToQuant, packedNbytes, hhalf,
        ggufTypeNbytesPerElem] at hsize
      split at hsize <;> omega
  refine ⟨hf, ?_⟩
  obtain ⟨r, r', hr, hread⟩ := rawLoad_ok fs file name hs hraw
  rw [hf] at hty
  rw [hsize] at hread
  simp only [ggufLoadTensorF32, resolveSlice_message file name hs, ok_bind, hr, if_neg (Nat.not_lt.mpr hfits), hty, hwrap,
    hread] at hf32
  cases hf32
  rw [wordsOf, hlen, hsize, Nat.mul_div_cancel _ (by omega : 0 < 4)]

end Sizes

end Uaii.Loaders
