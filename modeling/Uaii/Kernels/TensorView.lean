/-
  Uaii.Kernels.TensorView — `kernels::TensorView`
  (`include/uaii/kernels/tensor_view.hpp`).

  `data` is the memory the view points to, as `f32()` shows it: the words up to the end
  of the allocation, or `none` for a null pointer.
-/

import Uaii.Ir.DType
import Uaii.Quant.Formats

namespace Uaii.Kernels

open Uaii.Quant

structure TensorView (K : Type) where
  dtype : DType
  shape : List Int
  data : Option (List K)
  quantFormat : QuantFormat
  deriving DecidableEq, Repr

namespace TensorView

variable {K : Type}

/-- `TensorView{}`. -/
def null : TensorView K := ⟨.unknown, [], none, .f32⟩

/-- A view of floats. -/
def ofF32 (shape : List Int) (xs : List K) : TensorView K := ⟨.f32, shape, some xs, .f32⟩

def rank (t : TensorView K) : Nat := t.shape.length

def dim (t : TensorView K) (i : Nat) : Int := t.shape.getD i 1

def numel (t : TensorView K) : Nat :=
  if t.shape = [] ∨ t.shape.any (· < 0) then 0 else t.shape.foldl (fun n d => wrap64 (n * d.toNat)) 1

def isQuantized (t : TensorView K) : Bool :=
  isGgufBlockQuant t.quantFormat ||
    (t.quantFormat != .f32 && t.quantFormat != .f16 && t.quantFormat != .bf16 && t.dtype != .f32)

/-- The words at `f32()`; none behind a null pointer. -/
def f32 (t : TensorView K) : List K := t.data.getD []

end TensorView

end Uaii.Kernels
