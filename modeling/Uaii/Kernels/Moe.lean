/-
  Uaii.Kernels.Moe — `moe_experts_swiglu_f32` and `moe_experts_swiglu_listed_f32`
  (`libs/uaii-kernels/src/transformer.cpp`).

  Both rank the router's probabilities with `std::partial_sort`, take the first `k`
  experts, and add up their SwiGLU outputs weighted by probability. One takes the
  experts' matrices from packed banks, the other from a list of views.

  Numbers are exact; `exp` and the sort are parameters. The matrices are read as floats,
  and a read outside a matrix's memory is indeterminate (`Poison`).
-/

import Mathlib.Algebra.Field.Defs
import Mathlib.Order.Defs.LinearOrder
import Mathlib.Data.List.Sort
import Uaii.Kernels.TensorView
import Uaii.Lib.Poison

namespace Uaii.Kernels

open Poison

/-- `std::partial_sort` by descending probability: `sort k l` is a permutation of `l` whose
    first `k` elements are sorted and come before the rest. -/
structure PartialSort (K : Type) [LinearOrder K] where
  sort : Nat → List (K × Nat) → List (K × Nat)
  perm : ∀ k l, (sort k l).Perm l
  sorted : ∀ k l, ((sort k l).take k).Pairwise fun a b => b.1 ≤ a.1
  first : ∀ k l, ∀ a ∈ (sort k l).take k, ∀ b ∈ (sort k l).drop k, b.1 ≤ a.1

/-- `std::partial_sort` as a full sort. -/
def fullSort (K : Type) [LinearOrder K] : PartialSort K where
  sort _ l := l.insertionSort fun a b => b.1 ≤ a.1
  perm _ l := List.perm_insertionSort _ l
  sorted _ l := (List.pairwise_insertionSort _ l).sublist (List.take_sublist _ _)
  first k l a ha b hb := by
    have hall := List.pairwise_insertionSort (fun a b : K × Nat => b.1 ≤ a.1) l
    rw [← List.take_append_drop k (l.insertionSort _), List.pairwise_append] at hall
    exact hall.2.2 a ha b hb

section Kernel

variable {K : Type} [Field K] [LinearOrder K] (exp : K → K) (ps : PartialSort K)

/-- `k`, of `E` experts. -/
def topCount (topK : Int) (E : Nat) : Nat :=
  let k := if 0 < topK then topK else 1
  min k.toNat E

/-- Row `b`'s experts with their probabilities, the first `k` in order. -/
def ranked (probs : List K) (E k b : Nat) : List (K × Nat) :=
  (ps.sort k ((List.range E).map fun e => (probs.getD (b * E + e) 0, e))).take k

def mass (top : List (K × Nat)) : K :=
  let m := top.foldl (fun m t => m + t.1) 0
  if 0 < m then m else 1

/-- An expert's matrices, as the kernel's pointers read them. -/
structure ExpertReads (K : Type) where
  gate : Nat → Option K
  up : Nat → Option K
  down : Nat → Option K

def silu (x : K) : K := x * (1 / (1 + exp (-x)))

/-- `hid[i]`. -/
def hidden (D : Nat) (xb : Nat → K) (m : ExpertReads K) (i : Nat) : Option K :=
  let gsum := sumTo D fun d => (m.gate (i * D + d)).map (xb d * ·)
  let usum := sumTo D fun d => (m.up (i * D + d)).map (xb d * ·)
  mul (gsum.map (silu exp)) usum

/-- An expert's output at `o`. -/
def expertOut (D I : Nat) (xb : Nat → K) (m : ExpertReads K) (o : Nat) : Option K :=
  sumTo I fun i => mul (hidden exp D xb m i) (m.down (o * I + i))

/-- `Y[b * D + o]`. -/
def moeCell (D I : Nat) (xb : Nat → K) (experts : Nat → ExpertReads K) (top : List (K × Nat)) (o : Nat) : Option K :=
  sumOver top fun t => (expertOut exp D I xb (experts t.2) o).map (t.1 / mass top * ·)

/-- `Y`. -/
def moeRows (B D I : Nat) (xs : List K) (experts : Nat → ExpertReads K) (top : Nat → List (K × Nat)) : List (Option K) :=
  (List.range B).flatMap fun b =>
    (List.range D).map (moeCell exp D I (fun d => xs.getD (b * D + d) 0) experts (top b))

/-- What the kernels share: they read `x` and `probs` as they are, so both must have the
    floats their shapes say. -/
def readsOk (x probs : TensorView K) (B D E : Nat) : Bool := B * D ≤ x.f32.length && B * E ≤ probs.f32.length

def moeExpertsSwigluF32 (x gateExps upExps downExps probs : TensorView K) (outShape : List Int) (numExperts topK : Int) :
    Result (List (Option K)) :=
  if x.rank ≠ 2 ∨ outShape.length ≠ 2 ∨ gateExps.rank ≠ 3 ∨ upExps.rank ≠ 3 ∨ downExps.rank ≠ 3 ∨ probs.rank ≠ 2 then
    fail .invalidArgument "moe swiglu expects x[B,D], gate/up[E,I,D], down[E,D,I], probs[B,E]"
  else
    let B := x.dim 0
    let D := x.dim 1
    let E := gateExps.dim 0
    let I := gateExps.dim 1
    if E ≠ numExperts ∨ upExps.dim 0 ≠ E ∨ upExps.dim 1 ≠ I ∨ upExps.dim 2 ≠ D ∨ downExps.dim 0 ≠ E ∨ downExps.dim 1 ≠ D ∨
        downExps.dim 2 ≠ I ∨ probs.dim 0 ≠ B ∨ probs.dim 1 ≠ E ∨ outShape.getD 0 1 ≠ B ∨ outShape.getD 1 1 ≠ D ∨
        gateExps.dim 2 ≠ D then
      fail .invalidArgument "moe swiglu shape mismatch"
    else if I < 0 ∨ D < 0 ∨ E < 0 then .error (.thrown "std::length_error")
    else
      let (B, D, E, I) := (B.toNat, D.toNat, E.toNat, I.toNat)
      if !readsOk x probs B D E then .error (.undefined "read past x or probs")
      else
        let k := topCount topK E
        let experts := fun e => { gate := fun j => gateExps.f32[e * (I * D) + j]?
                                  up := fun j => upExps.f32[e * (I * D) + j]?
                                  down := fun j => downExps.f32[e * (D * I) + j]? : ExpertReads K }
        .ok (moeRows exp B D I x.f32 experts (ranked ps probs.f32 E k))

/-- The views of expert `e`. -/
def gateOf (triples : List (TensorView K)) (e : Nat) : TensorView K := triples.getD (e * 3) .null
def upOf (triples : List (TensorView K)) (e : Nat) : TensorView K := triples.getD (e * 3 + 1) .null
def downOf (triples : List (TensorView K)) (e : Nat) : TensorView K := triples.getD (e * 3 + 2) .null

/-- The width of the first expert that is there. -/
def listedWidth (triples : List (TensorView K)) (E : Nat) : Int :=
  let i := match (List.range E).find? fun e => (gateOf triples e).data.isSome ∧ (gateOf triples e).rank = 2 with
    | some e => (gateOf triples e).dim 0
    | none => 0
  if i ≤ 0 ∧ (gateOf triples 0).rank = 2 then (gateOf triples 0).dim 0 else i

/-- All of an expert's views are null. -/
def absent (triples : List (TensorView K)) (e : Nat) : Bool :=
  (gateOf triples e).data.isNone && (upOf triples e).data.isNone && (downOf triples e).data.isNone

def missing (triples : List (TensorView K)) (e : Nat) : Bool :=
  (gateOf triples e).data.isNone || (upOf triples e).data.isNone || (downOf triples e).data.isNone

def listedShapeOk (triples : List (TensorView K)) (I D : Int) (e : Nat) : Bool :=
  absent triples e ||
    (!missing triples e && (gateOf triples e).shape == [I, D] && (upOf triples e).shape == [I, D] &&
      (downOf triples e).shape == [D, I])

def listedReads (triples : List (TensorView K)) (e : Nat) : ExpertReads K where
  gate j := (gateOf triples e).f32[j]?
  up j := (upOf triples e).f32[j]?
  down j := (downOf triples e).f32[j]?

def moeExpertsSwigluListedF32 (x probs : TensorView K) (triples : List (TensorView K)) (numExperts topK : Int)
    (outShape : List Int) : Result (List (Option K)) :=
  if x.rank ≠ 2 ∨ outShape.length ≠ 2 ∨ probs.rank ≠ 2 ∨ numExperts ≤ 0 then fail .invalidArgument "moe listed rank"
  else
    let B := x.dim 0
    let D := x.dim 1
    if probs.dim 0 ≠ B ∨ probs.dim 1 ≠ numExperts ∨ outShape.getD 0 1 ≠ B ∨ outShape.getD 1 1 ≠ D then
      fail .invalidArgument "moe listed shape mismatch"
    else
      let E := numExperts.toNat
      let I := listedWidth triples E
      if I ≤ 0 then fail .invalidArgument "moe listed expert width unknown"
      else if !(List.range E).all (listedShapeOk triples I D) then
        fail .invalidArgument "moe listed expert shape expected gate/up[I,D] down[D,I]"
      else
        let (B, D, I) := (B.toNat, D.toNat, I.toNat)
        if !readsOk x probs B D E then .error (.undefined "read past x or probs")
        else
          let top := ranked ps probs.f32 E (topCount topK E)
          match ((List.range B).flatMap fun b => (top b).map (·.2)).find? (missing triples) with
          | some e => fail .notFound ("MoE expert " ++ Nat.repr e ++ " was not paged in")
          | none => .ok (moeRows exp B D I x.f32 (listedReads triples) top)

end Kernel

end Uaii.Kernels
