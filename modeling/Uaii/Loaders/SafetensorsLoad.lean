/-
  Uaii.Loaders.SafetensorsLoad — `SafetensorsLoader::load`
  (`libs/uaii-loaders/src/safetensors.cpp`): a graph from the tensors of one file.

  Every layer that has a query projection is counted; the loop over the layers stops at
  the first that lacks another tensor of its attention. Dimensions are exact.
-/

import Uaii.Ir.Building
import Uaii.Loaders.Safetensors
import Uaii.Runtime.Generate

namespace Uaii.Loaders

open Uaii.Ir Uaii.Ir.Build
open Uaii.Runtime (stoll)
open TextStream (integer)

variable {R : Type}

/-! ## What the loaders share -/

/-- `std::to_string`. -/
def toText (i : Int) : String := String.ofList (integer i)

/-- `{make_bool_attr("transpose_b", true)}`. -/
def transposeB : List (Attribute R) := [⟨"transpose_b", .bool true⟩]

/-- `Identity` from `x` to `y`, the graph of a file of weights. -/
def identityGraph (weights : Build R Unit) : Build R Unit := do
  let x ← tensor "x" [1, 1]
  let y ← tensor "y" [1, 1]
  weights
  node "id" "Identity" [x] [y] []
  io [x] [y]

/-! ## One layer -/

namespace SafetensorsFile

variable (file : SafetensorsFile)

/-- `find_st`. -/
def findSt (name : String) : Option SafetensorsTensorInfo := file.tensors.find? (·.name == name)

/-- The last tensor of one of the names. -/
def lastNamed (names : List String) : Option SafetensorsTensorInfo := file.tensors.reverse.find? (·.name ∈ names)

/-- `add_w`: 0 when the file has no such tensor. -/
def addW (name : String) : Build R TensorId :=
  match file.findSt name with
  | none => pure 0
  | some ti => weight name .f32 ti.shape (file.path ++ "#" ++ name) .f32

/-- `add_w` of the one name or else of the other. -/
def addEither (blk hf : String) : Build R TensorId := do
  let t ← file.addW blk
  if t = 0 then file.addW hf else pure t

variable [Field R] (dim nHeads : Int) (li : Nat)

def rmsEps : List (Attribute R) := [⟨"eps", .float (1 / (100000 : Nat))⟩]

/-- `inter`. -/
def interDim (blk hf : String) : Int :=
  match ((file.findSt (blk ++ "ffn_up.weight")).or (file.findSt (hf ++ "mlp.up_proj.weight"))).map (·.shape) with
  | some [rows, cols] => if rows = dim then cols else rows
  | _ => dim * 4

/-- The feed-forward block. -/
def mlp (blk hf pfx : String) (resid1 ffnNorm wGate wUp wDown : TensorId) : Build R TensorId := do
  let mlpIn ← (if ffnNorm ≠ 0 then emit (pfx ++ "n2") [1, dim] (pfx ++ "rms2") "RMSNorm" [resid1, ffnNorm] rmsEps
    else pure resid1)
  let inter := file.interDim dim blk hf
  let gate ← tensor (pfx ++ "gate") [1, inter]
  let up ← tensor (pfx ++ "up") [1, inter]
  node (pfx ++ "ffn_gate") "MatMul" [mlpIn, wGate] [gate] transposeB
  node (pfx ++ "ffn_up") "MatMul" [mlpIn, wUp] [up] transposeB
  let gateAct ← emit (pfx ++ "gate_act") [1, inter] (pfx ++ "silu") "Silu" [gate] []
  let ffHid ← emit (pfx ++ "ff_hid") [1, inter] (pfx ++ "ff_mul") "Mul" [gateAct, up] []
  let ffOut ← emit (pfx ++ "ff_out") [1, dim] (pfx ++ "ffn_down") "MatMul" [ffHid, wDown] transposeB
  emit (pfx ++ "resid2") [1, dim] (pfx ++ "add2") "Add" [resid1, ffOut] []

/-- The attention block, up to its residual. -/
def attention (pfx : String) (features attnNorm wq wk wv wo : TensorId) : Build R TensorId := do
  let n1 ← emit (pfx ++ "n1") [1, dim] (pfx ++ "rms1") "RMSNorm" [features, attnNorm] rmsEps
  let q ← tensor (pfx ++ "q") [1, dim]
  let k ← tensor (pfx ++ "k") [1, dim]
  let v ← tensor (pfx ++ "v") [1, dim]
  node (pfx ++ "q_proj") "MatMul" [n1, wq] [q] transposeB
  node (pfx ++ "k_proj") "MatMul" [n1, wk] [k] transposeB
  node (pfx ++ "v_proj") "MatMul" [n1, wv] [v] transposeB
  let attn ← emit (pfx ++ "attn") [1, dim] (pfx ++ "attn") "Attention" [q, k, v]
    [⟨"num_heads", .int nHeads⟩, ⟨"causal", .bool true⟩, ⟨"use_kv_cache", .bool true⟩, ⟨"layer_id", .int li⟩]
  let attnO ← emit (pfx ++ "attn_o") [1, dim] (pfx ++ "o_proj") "MatMul" [attn, wo] transposeB
  emit (pfx ++ "resid1") [1, dim] (pfx ++ "add1") "Add" [features, attnO] []

/-- One pass of the loop over the layers, none when it breaks off. -/
def layer (features : TensorId) : Build R (Option TensorId) := do
  let blk := "blk." ++ toText li ++ "."
  let hf := "model.layers." ++ toText li ++ "."
  let attnNorm ← file.addEither (blk ++ "attn_norm.weight") (hf ++ "input_layernorm.weight")
  let wq ← file.addEither (blk ++ "attn_q.weight") (hf ++ "self_attn.q_proj.weight")
  let wk ← file.addEither (blk ++ "attn_k.weight") (hf ++ "self_attn.k_proj.weight")
  let wv ← file.addEither (blk ++ "attn_v.weight") (hf ++ "self_attn.v_proj.weight")
  let wo ← file.addEither (blk ++ "attn_output.weight") (hf ++ "self_attn.o_proj.weight")
  let ffnNorm ← file.addEither (blk ++ "ffn_norm.weight") (hf ++ "post_attention_layernorm.weight")
  let wGate ← file.addEither (blk ++ "ffn_gate.weight") (hf ++ "mlp.gate_proj.weight")
  let wUp ← file.addEither (blk ++ "ffn_up.weight") (hf ++ "mlp.up_proj.weight")
  let wDown ← file.addEither (blk ++ "ffn_down.weight") (hf ++ "mlp.down_proj.weight")
  if attnNorm = 0 ∨ wq = 0 ∨ wk = 0 ∨ wv = 0 ∨ wo = 0 then pure none
  else do
    let pfx := "l" ++ toText li ++ "."
    let resid1 ← attention dim nHeads li pfx features attnNorm wq wk wv wo
    if wGate ≠ 0 ∧ wUp ≠ 0 ∧ wDown ≠ 0 then do
      let resid2 ← file.mlp dim blk hf pfx resid1 ffnNorm wGate wUp wDown
      pure (some resid2)
    else pure (some resid1)

/-- The passes that are left, from layer `li`. -/
def layers : Nat → Nat → TensorId → Build R TensorId
  | 0, _, features => pure features
  | remaining + 1, li, features => do
    match ← file.layer dim nHeads li features with
    | none => pure features
    | some features => layers remaining (li + 1) features

/-! ## The graph -/

/-- `n_layers`: the layers from the first on that have a query projection. -/
def nLayers : Nat := ((List.range 64).takeWhile fun i : Nat =>
  (file.findSt ("blk." ++ toText i ++ ".attn_q.weight")).isSome ||
    (file.findSt ("model.layers." ++ toText i ++ ".self_attn.q_proj.weight")).isSome).length

def emb : Option SafetensorsTensorInfo := file.lastNamed ["embed.weight", "token_embd.weight", "model.embed_tokens.weight"]

def lm : Option SafetensorsTensorInfo := file.lastNamed ["lm_head.weight", "output.weight"]

def norm : Option SafetensorsTensorInfo := file.lastNamed ["norm.weight", "output_norm.weight"]

def metadataAt (key : String) : Option String := (file.metadata.find? (·.1 == key)).map (·.2)

/-- A language model. -/
def model (emb lm : SafetensorsTensorInfo) : Build R Unit := do
  let dim := emb.shape.getD 1 1
  let vocab ← (match lm.shape, emb.shape with
    | v :: _, _ => pure v
    | [], v :: _ => pure v
    | [], [] => throw (.undefined "dims[0] of no dimensions"))
  let nHeads := ((file.metadataAt "num_attention_heads").bind stoll).getD 1
  let tokens ← tensor "tokens" [1, 1]
  let embW ← weight emb.name .f32 emb.shape (file.path ++ "#" ++ emb.name) .f32
  let hidden ← emit "hidden" [1, dim] "embed" "Embedding" [tokens, embW] []
  let features ← file.layers dim nHeads file.nLayers 0 hidden
  let features ← (match file.norm with
    | none => pure features
    | some norm => do
      let nw ← weight norm.name .f32 norm.shape (file.path ++ "#" ++ norm.name) .f32
      emit "normed" [1, dim] "rms_out" "RMSNorm" [features, nw] rmsEps)
  let lmW ← weight lm.name .f32 lm.shape (file.path ++ "#" ++ lm.name) .f32
  let logits ← emit "logits" [1, vocab] "lm_head" "MatMul" [features, lmW] transposeB
  let probs ← emit "probs" [1, vocab] "softmax" "Softmax" [logits] [⟨"axis", .int (-1)⟩]
  io [tokens] [probs]
  addMetadata ([("architecture", if 0 < file.nLayers then "transformer" else "tiny_lm"), ("n_layers", toText file.nLayers),
    ("n_heads", toText nHeads), ("embedding_length", toText dim)] ++
    match file.metadataAt "max_position_embeddings" with
    | none => []
    | some context => [("max_context", context), ("context_length", context)])

def toDtype (dtype : String) : DType :=
  if dtype = "F32" ∨ dtype = "f32" then .f32
  else if dtype = "F16" ∨ dtype = "f16" then .f16
  else if dtype = "BF16" ∨ dtype = "bf16" then .bf16
  else if dtype = "I8" ∨ dtype = "i8" then .i8
  else if dtype = "I32" ∨ dtype = "i32" then .i32
  else if dtype = "I64" ∨ dtype = "i64" then .i64
  else if dtype = "U8" ∨ dtype = "u8" then .u8
  else if dtype = "BOOL" ∨ dtype = "bool" then .bool
  else .unknown

def allWeights (path : String) : List SafetensorsTensorInfo → Build R Unit
  | [] => pure ()
  | t :: ts => do
    let dt := toDtype t.dtype
    let _ ← weight t.name (if dt = .f16 ∨ dt = .unknown then .f32 else dt) t.shape (path ++ "#" ++ t.name) .f32
    allWeights path ts

def hasBlk0 : Bool :=
  (file.findSt "blk.0.attn_q.weight").isSome || (file.findSt "model.layers.0.self_attn.q_proj.weight").isSome

def build (order : MapOrder) : Build R Unit := do
  addMetadata ([("source_format", "safetensors"), ("source_path", file.path)] ++ order.walk file.metadata)
  match file.emb, file.lm with
  | some emb, some lm => file.model emb lm
  | _, _ => identityGraph (allWeights file.path file.tensors)

def graphName : String :=
  if file.emb.isSome ∧ file.lm.isSome then if file.hasBlk0 then "safetensors_transformer" else "safetensors_tiny_lm"
  else "safetensors_weights"

end SafetensorsFile

/-- `SafetensorsLoader::load`. -/
def safetensorsLoad [Field R] (order : MapOrder) (fs : FileSystem) (path : String) : Result (Graph R) := do
  let file ← safetensorsReadHeader order fs path
  let (_, b) ← (file.build order).run ((GraphBuilder.init file.graphName).setProducer "uaii-safetensors-loader")
  .ok b.build

end Uaii.Loaders
