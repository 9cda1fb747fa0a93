/-
  Uaii.Loaders.RopeNodes — the RoPE nodes behind a tensor of a graph.

  `ropeParams` are the arguments that `dispatch_cpu` (`libs/uaii-kernels/src/dispatch.cpp`)
  gives to `rope_f32`. A tensor is turned if it comes from a RoPE node without positions,
  as it is, through an Identity or as the second part of every head that MLAExpandK puts
  together.
-/

import Uaii.Kernels.RopeTurn
import Uaii.Loaders.HfHead
import Uaii.Runtime.Staging

namespace Uaii.Loaders

open Uaii.Ir Uaii.Kernels
open Uaii.Runtime (toI32)

variable {R K : Type}

/-! ## Attributes -/

/-- `attr_int`. -/
def attrInt (attributes : List (Attribute R)) (key : String) (default : Int) : Int :=
  (attributes.findSome? fun a => if a.key = key then match a.value with | .int i => some i | _ => none else none).getD default

/-- `attr_cstr`. -/
def attrCstr (attributes : List (Attribute R)) (key : String) : String :=
  (attributes.findSome? fun a => if a.key = key then match a.value with | .string s => some s | _ => none else none).getD ""

/-- `attr_float_array`. -/
def attrFloatArray (attributes : List (Attribute R)) (key : String) : List R :=
  (attributes.findSome? fun a => if a.key = key then match a.value with | .floatArray xs => some xs | _ => none else none).getD []

/-- `data()`, or null for no factors. -/
def factorsOf (num : R → K) (xs : List R) : Option (List K) := if xs = [] then none else some (xs.map num)

def ropeParams [Field K] (num : R → K) (attributes : List (Attribute R)) : RopeParams K where
  theta := attrFloat num attributes "theta" ((10000 : Nat) : K)
  headDim := attrInt attributes "head_dim" 0
  mode := toI32 (attrInt attributes "mode" 0)
  rotaryDim := attrInt attributes "rotary_dim" 0
  scaleType := some (attrCstr attributes "scale_type")
  scaleFactor := attrFloat num attributes "scale_factor" 1
  lowFreqFactor := attrFloat num attributes "low_freq_factor" 1
  highFreqFactor := attrFloat num attributes "high_freq_factor" ((4 : Nat) : K)
  oldContextLen := attrFloat num attributes "old_context_len" ((8192 : Nat) : K)
  attnFactor := attrFloat num attributes "attn_factor" 1
  shortFactor := factorsOf num (attrFloatArray attributes "short_factor")
  longFactor := factorsOf num (attrFloatArray attributes "long_factor")
  nFactors := toI32 (max (attrFloatArray attributes "short_factor").length (attrFloatArray attributes "long_factor").length)
  rotaryAlign := toI32 (attrInt attributes "rotary_align" 1)

/-! ## Turned tensors -/

/-- The heads of a tensor are turned from channel `first` on, by a RoPE node with these attributes. -/
inductive Turned (g : Graph R) : TensorId → Int → List (Attribute R) → Prop
  | rope {n : Node R} {x y : TensorId} : n ∈ g.nodes → n.opName = "RoPE" → n.inputs = [x] → n.outputs = [y] → Turned g y 0 n.attributes
  | copied {n : Node R} {x y : TensorId} {first : Int} {attributes : List (Attribute R)} : n ∈ g.nodes → n.opName = "Identity" →
      n.inputs = [x] → n.outputs = [y] → Turned g x first attributes → Turned g y first attributes
  | expanded {n : Node R} {k x y : TensorId} {attributes : List (Attribute R)} : n ∈ g.nodes → n.opName = "MLAExpandK" →
      n.inputs = [k, x] → n.outputs = [y] → Turned g x 0 attributes → Turned g y (attrInt n.attributes "nope_dim" 0) attributes

namespace Turned

variable {g g' : Graph R} {x : TensorId} {first first' : Int} {attributes attributes' : List (Attribute R)}

theorem mono (h : Turned g x first attributes) (hsub : g.nodes <+: g'.nodes) : Turned g' x first attributes := by
  induction h with
  | rope hn hop hin hout => exact .rope (hsub.subset hn) hop hin hout
  | copied hn hop hin hout _ ih => exact .copied (hsub.subset hn) hop hin hout ih
  | expanded hn hop hin hout _ ih => exact .expanded (hsub.subset hn) hop hin hout ih

/-- A node that writes a tensor is the only one. -/
theorem producer_unique (hnd : (g.nodes.flatMap (·.outputs)).Nodup) {n n' : Node R} (hn : n ∈ g.nodes) (hn' : n' ∈ g.nodes)
    (hout : n.outputs = [x]) (hout' : n'.outputs = [x]) : n = n' :=
  Lists.eq_of_mem_flatMap hnd hn hn' (x := x) (by simp [hout]) (by simp [hout'])

/-- There is one way to say how a tensor is turned. -/
theorem unique (hnd : (g.nodes.flatMap (·.outputs)).Nodup) (h : Turned g x first attributes) :
    ∀ {first' attributes'}, Turned g x first' attributes' → first = first' ∧ attributes = attributes' := by
  induction h with
  | rope hn hop hin hout =>
    intro first' attributes' h'
    cases h' with
    | rope hn' hop' hin' hout' =>
      obtain rfl := producer_unique hnd hn hn' hout hout'
      exact ⟨rfl, rfl⟩
    | copied hn' hop' hin' hout' _ =>
      obtain rfl := producer_unique hnd hn hn' hout hout'
      exact absurd (hop.symm.trans hop') (by decide)
    | expanded hn' hop' hin' hout' _ =>
      obtain rfl := producer_unique hnd hn hn' hout hout'
      exact absurd (hop.symm.trans hop') (by decide)
  | copied hn hop hin hout _ ih =>
    intro first' attributes' h'
    cases h' with
    | rope hn' hop' hin' hout' =>
      obtain rfl := producer_unique hnd hn hn' hout hout'
      exact absurd (hop.symm.trans hop') (by decide)
    | copied hn' hop' hin' hout' hx =>
      obtain rfl := producer_unique hnd hn hn' hout hout'
      obtain ⟨rfl, -⟩ := List.cons.inj (hin.symm.trans hin')
      exact ih hx
    | expanded hn' hop' hin' hout' _ =>
      obtain rfl := producer_unique hnd hn hn' hout hout'
      exact absurd (hop.symm.trans hop') (by decide)
  | expanded hn hop hin hout _ ih =>
    intro first' attributes' h'
    cases h' with
    | rope hn' hop' hin' hout' =>
      obtain rfl := producer_unique hnd hn hn' hout hout'
      exact absurd (hop.symm.trans hop') (by decide)
    | copied hn' hop' hin' hout' _ =>
      obtain rfl := producer_unique hnd hn hn' hout hout'
      exact absurd (hop.symm.trans hop') (by decide)
    | expanded hn' hop' hin' hout' hx =>
      obtain rfl := producer_unique hnd hn hn' hout hout'
      obtain ⟨-, htail⟩ := List.cons.inj (hin.symm.trans hin')
      obtain ⟨rfl, -⟩ := List.cons.inj htail
      exact ⟨rfl, (ih hx).2⟩

end Turned

end Uaii.Loaders
