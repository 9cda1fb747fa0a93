/-
  Uaii.Loaders.HfLoad — `HfLoader::load` (`libs/uaii-loaders/src/hf.cpp`): the graph of a
  Hugging Face directory, after the layout is picked.

  A weight that is not there has id 0. What a layer needs is checked before it is used,
  but for the two matrices of the feed-forward block without a gate. Dimensions are exact;
  `floatText` is `std::to_string` of a float.
-/

import Uaii.Loaders.HfLayout

namespace Uaii.Loaders

open Uaii.Ir Uaii.Ir.Build

variable {R : Type} [Field R] [LinearOrder R]

def HfConfig.rmsAttrs (cfg : HfConfig R) : List (Attribute R) :=
  [⟨"eps", .float cfg.rmsNormEps⟩] ++ if cfg.rmsOffset ≠ 0 then [⟨"offset", .float cfg.rmsOffset⟩] else []

def HfConfig.ropeAttrs (cfg : HfConfig R) : List (Attribute R) :=
  let oldCtx := if 0 < cfg.ropeOriginalMaxPos then cfg.ropeOriginalMaxPos else (cfg.maxPositionEmbeddings : R)
  [⟨"theta", .float cfg.ropeTheta⟩, ⟨"head_dim", .int cfg.headDim⟩, ⟨"mode", .int cfg.ropeMode⟩] ++
    (if cfg.ropeScalingType ≠ "" then [⟨"scale_type", .string cfg.ropeScalingType⟩] else []) ++
    [⟨"scale_factor", .float cfg.ropeScaleFactor⟩, ⟨"low_freq_factor", .float cfg.ropeLowFreqFactor⟩,
      ⟨"high_freq_factor", .float cfg.ropeHighFreqFactor⟩, ⟨"old_context_len", .float (if 0 < oldCtx then oldCtx else 8192)⟩,
      ⟨"attn_factor", .float cfg.ropeAttnFactor⟩] ++
    (if 0 < cfg.rotaryDim then
      [⟨"rotary_dim", .int cfg.rotaryDim⟩] ++ if cfg.rotaryDim < cfg.headDim then [⟨"rotary_align", .int 0⟩] else []
    else []) ++
    (if cfg.ropeShortFactor ≠ [] then [⟨"short_factor", .floatArray cfg.ropeShortFactor⟩] else []) ++
    (if cfg.ropeLongFactor ≠ [] then [⟨"long_factor", .floatArray cfg.ropeLongFactor⟩] else [])

/-- `layer_window`. -/
def HfConfig.layerWindow (cfg : HfConfig R) (li : Nat) : Int := (cfg.layerSlidingWindow[li]?).getD cfg.slidingWindow

namespace HfDirectory

variable (dir : HfDirectory R) (L : DecodedLayout)

/-! ## The lambdas of `load` -/

def addWeightRef (name : String) (force : List Int) : Build R TensorId :=
  if name = "" ∨ ¬ dir.hasTensor name then pure 0
  else do
    let shape ← attempt (dir.tensorShape name)
    weight name .f32 (if force = [] then shape else force) (dir.resolveShard name ++ "#" ++ name) .f32

/-- `add_weight_ref(N(rest), ...)` of a tensor that the layout has. -/
def addNamed (li : Nat) (rest : String) (force : List Int) : Build R TensorId :=
  if rest = "" then pure 0 else dir.addWeightRef (layerName L li rest) force

/-- `mm`'s attributes. -/
def mmAttrs (transB : Bool) : List (Attribute R) := if transB then transposeB else []

def mm (name : String) (x w y : TensorId) (transB : Bool) : Build R Unit := node name "MatMul" [x, w] [y] (mmAttrs transB)

def maybeBias (name : String) (x bias : TensorId) (outDim : Int) : Build R TensorId :=
  if bias = 0 then pure x else emit (name ++ "_b") [1, outDim] (name ++ "_addb") "Add" [x, bias] []

def addNorm (name : String) (x w bias y : TensorId) : Build R Unit :=
  if L.layernorm ∧ bias ≠ 0 then node name "LayerNorm" [x, w, bias] [y] [⟨"eps", .float dir.config.rmsNormEps⟩]
  else node name "RMSNorm" [x, w] [y] dir.config.rmsAttrs

/-- A norm of its own, if the layout and the layer have it. -/
def postNorm (li : Nat) (pfx name rms rest : String) (x : TensorId) : Build R TensorId :=
  if rest = "" then pure x
  else do
    let w ← dir.addWeightRef (layerName L li rest) []
    if w = 0 then pure x
    else do
      let y ← tensor (pfx ++ name) [1, dir.config.hiddenSize]
      dir.addNorm L (pfx ++ rms) x w 0 y
      pure y

/-! ## The dimensions -/

def qDim : Int := dir.config.numAttentionHeads * dir.config.headDim

def kvDim : Int := dir.config.numKeyValueHeads * dir.config.headDim

/-! ## One layer -/

section Layer

variable (li : Nat) (pfx : String)

/-- `attn == Split`. -/
def splitQkv (n1 wo : TensorId) : Build R (TensorId × TensorId × TensorId) := do
  let wq ← dir.addWeightRef (layerName L li L.q) []
  let wk ← dir.addWeightRef (layerName L li L.k) []
  let wv ← dir.addWeightRef (layerName L li L.v) []
  let bq ← dir.addNamed L li L.qb [1, dir.qDim]
  let bk ← dir.addNamed L li L.kb [1, dir.kvDim]
  let bv ← dir.addNamed L li L.vb [1, dir.kvDim]
  refuseIf (wq = 0 ∨ wk = 0 ∨ wv = 0 ∨ wo = 0) .invalidArgument ("incomplete split-QKV weights for layer " ++ toText li)
  let q0 ← tensor (pfx ++ "q0") [1, dir.qDim]
  let k0 ← tensor (pfx ++ "k0") [1, dir.kvDim]
  let v0 ← tensor (pfx ++ "v0") [1, dir.kvDim]
  mm (pfx ++ "q_mm") n1 wq q0 (!L.conv1d)
  mm (pfx ++ "k_mm") n1 wk k0 (!L.conv1d)
  mm (pfx ++ "v_mm") n1 wv v0 (!L.conv1d)
  let q ← maybeBias (pfx ++ "q") q0 bq dir.qDim
  let k ← maybeBias (pfx ++ "k") k0 bk dir.kvDim
  let v ← maybeBias (pfx ++ "v") v0 bv dir.kvDim
  pure (q, k, v)

/-- `attn == Fused`. -/
def fusedQkv (n1 q k v wo : TensorId) : Build R Unit := do
  let packed := dir.qDim + dir.kvDim + dir.kvDim
  let wqkv ← dir.addWeightRef (layerName L li L.qkv) []
  let bqkv ← dir.addNamed L li L.qkvb [1, packed]
  refuseIf (wqkv = 0 ∨ wo = 0) .invalidArgument ("incomplete fused-QKV weights for layer " ++ toText li)
  let qkv ← tensor (pfx ++ "qkv") [1, packed]
  mm (pfx ++ "qkv_mm") n1 wqkv qkv (!L.conv1d)
  let qkvB ← maybeBias (pfx ++ "qkv") qkv bqkv packed
  node (pfx ++ "q_slice") "Slice" [qkvB] [q] [⟨"start", .int 0⟩, ⟨"end", .int dir.qDim⟩]
  node (pfx ++ "k_slice") "Slice" [qkvB] [k] [⟨"start", .int dir.qDim⟩, ⟨"end", .int (dir.qDim + dir.kvDim)⟩]
  node (pfx ++ "v_slice") "Slice" [qkvB] [v] [⟨"start", .int (dir.qDim + dir.kvDim)⟩, ⟨"end", .int packed⟩]

def qkNorm (q k : TensorId) : Build R (TensorId × TensorId) :=
  if L.qNorm = "" then pure (q, k)
  else do
    let wQn ← dir.addWeightRef (layerName L li L.qNorm) []
    let wKn ← dir.addWeightRef (layerName L li L.kNorm) []
    let qIn ← (if wQn ≠ 0 then emit (pfx ++ "q_n") [1, dir.qDim] (pfx ++ "q_norm") "RMSNorm" [q, wQn] dir.config.rmsAttrs
      else pure q)
    let kIn ← (if wKn ≠ 0 then emit (pfx ++ "k_n") [1, dir.kvDim] (pfx ++ "k_norm") "RMSNorm" [k, wKn] dir.config.rmsAttrs
      else pure k)
    pure (qIn, kIn)

def rope (q k : TensorId) : Build R (TensorId × TensorId) :=
  if L.rope ∧ 0 ≤ dir.ropeMode L then do
    let qRope ← tensor (pfx ++ "q_rope") [1, dir.qDim]
    let kRope ← tensor (pfx ++ "k_rope") [1, dir.kvDim]
    node (pfx ++ "q_rope") "RoPE" [q] [qRope] dir.config.ropeAttrs
    node (pfx ++ "k_rope") "RoPE" [k] [kRope] dir.config.ropeAttrs
    pure (qRope, kRope)
  else pure (q, k)

def attnAttrs : List (Attribute R) :=
  [⟨"num_heads", .int dir.config.numAttentionHeads⟩, ⟨"kv_heads", .int dir.config.numKeyValueHeads⟩, ⟨"causal", .bool true⟩,
    ⟨"use_kv_cache", .bool true⟩, ⟨"layer_id", .int li⟩] ++
    (if 0 < dir.config.attnLogitSoftcapping then [⟨"logit_softcap", .float dir.config.attnLogitSoftcapping⟩] else []) ++
    (if 0 < dir.config.layerWindow li then [⟨"sliding_window", .int (dir.config.layerWindow li)⟩] else [])

/-- From the features to the output of the attention, `attn_o`. -/
def attention (features attnNorm attnNormB wo bo : TensorId) : Build R TensorId := do
  let n1 ← tensor (pfx ++ "n1") [1, dir.config.hiddenSize]
  refuseIf (attnNorm = 0) .invalidArgument ("missing attention norm for layer " ++ toText li)
  dir.addNorm L (pfx ++ "rms1") features attnNorm attnNormB n1
  let q ← tensor (pfx ++ "q") [1, dir.qDim]
  let k ← tensor (pfx ++ "k") [1, dir.kvDim]
  let v ← tensor (pfx ++ "v") [1, dir.kvDim]
  let (q, k, v) ← (if L.fused then (do
      dir.fusedQkv L li pfx n1 q k v wo
      pure (q, k, v))
    else dir.splitQkv L li pfx n1 wo)
  let (qIn, kIn) ← dir.qkNorm L li pfx q k
  let (qIn, kIn) ← dir.rope L pfx qIn kIn
  let attn ← emit (pfx ++ "attn") [1, dir.qDim] (pfx ++ "attn") "Attention" [qIn, kIn, v] (dir.attnAttrs li)
  let attnO0 ← emit (pfx ++ "attn_o0") [1, dir.config.hiddenSize] (pfx ++ "o_proj") "MatMul" [attn, wo] (mmAttrs (!L.conv1d))
  let attnO ← maybeBias (pfx ++ "o") attnO0 bo dir.config.hiddenSize
  dir.postNorm L li pfx "post_attn" "post_attn_rms" L.postAttn attnO

/-- The weights of the experts from `e` on. -/
def experts : Nat → Nat → Build R (List TensorId)
  | 0, _ => pure []
  | remaining + 1, e => do
    let ep := L.expertPrefix ++ toText e ++ "."
    let ge ← dir.addWeightRef (layerName L li (ep ++ if L.expertWStyle = 0 then "w1.weight" else "gate_proj.weight")) []
    let ue ← dir.addWeightRef (layerName L li (ep ++ if L.expertWStyle = 0 then "w3.weight" else "up_proj.weight")) []
    let de ← dir.addWeightRef (layerName L li (ep ++ if L.expertWStyle = 0 then "w2.weight" else "down_proj.weight")) []
    refuseIf (ge = 0 ∨ ue = 0 ∨ de = 0) .invalidArgument ("incomplete Mixtral expert " ++ toText e ++ " layer " ++ toText li)
    let moeIns ← experts remaining (e + 1)
    pure (ge :: ue :: de :: moeIns)

def moe (mlpIn : TensorId) : Build R TensorId := do
  let attrs : List (Attribute R) := [⟨"num_experts", .int (dir.nExperts L)⟩, ⟨"top_k", .int dir.topK⟩]
  let gateW ← dir.addWeightRef (layerName L li L.moeGate) []
  refuseIf (gateW = 0) .invalidArgument ("MoE gate missing at layer " ++ toText li)
  let routerProbs ← tensor (pfx ++ "moe_probs") [1, dir.nExperts L]
  let routerTop ← tensor (pfx ++ "moe_top") [1, 1]
  node (pfx ++ "moe_router") "MoERouter" [mlpIn, gateW] [routerProbs, routerTop] attrs
  let moeIns ← dir.experts L li (dir.nExperts L).toNat 0
  emit (pfx ++ "ff_out") [1, dir.config.hiddenSize] (pfx ++ "moe_exps") "MoEExpertsSwiGLU" (mlpIn :: routerProbs :: moeIns) attrs

def swiGlu (mlpIn : TensorId) : Build R TensorId := do
  let wGate ← dir.addWeightRef (layerName L li L.gate) []
  let wUp ← dir.addWeightRef (layerName L li L.up) []
  let wDown ← dir.addWeightRef (layerName L li L.down) []
  refuseIf (wGate = 0 ∨ wUp = 0 ∨ wDown = 0) .invalidArgument ("incomplete SwiGLU MLP for layer " ++ toText li)
  let gate ← tensor (pfx ++ "gate") [1, dir.config.intermediateSize]
  let up ← tensor (pfx ++ "up") [1, dir.config.intermediateSize]
  mm (pfx ++ "ffn_gate") mlpIn wGate gate (!L.conv1d)
  mm (pfx ++ "ffn_up") mlpIn wUp up (!L.conv1d)
  let gateAct ← emit (pfx ++ "gate_act") [1, dir.config.intermediateSize] (pfx ++ "gate_act") dir.config.hiddenActOp.op [gate] []
  let ffHid ← emit (pfx ++ "ff_hid") [1, dir.config.intermediateSize] (pfx ++ "ff_mul") "Mul" [gateAct, up] []
  emit (pfx ++ "ff_out") [1, dir.config.hiddenSize] (pfx ++ "ffn_down") "MatMul" [ffHid, wDown] (mmAttrs (!L.conv1d))

/-- Here the weights are not checked. -/
def dense (mlpIn : TensorId) : Build R TensorId := do
  let wFc ← dir.addWeightRef (layerName L li L.fc) []
  let wProj ← dir.addWeightRef (layerName L li L.proj) []
  let up ← emit (pfx ++ "up") [1, dir.config.intermediateSize] (pfx ++ "ffn_up") "MatMul" [mlpIn, wFc] (mmAttrs (!L.conv1d))
  let upAct ← emit (pfx ++ "up_act") [1, dir.config.intermediateSize] (pfx ++ "ff_act")
    (if L.gelu then "Gelu" else dir.config.hiddenActOp.op) [up] []
  emit (pfx ++ "ff_out") [1, dir.config.hiddenSize] (pfx ++ "ffn_down") "MatMul" [upAct, wProj] (mmAttrs (!L.conv1d))

/-- `ff_out`, 0 for a layout without a feed-forward block. -/
def mlp (mlpIn : TensorId) : Build R TensorId :=
  if L.mixtral ∧ 0 < dir.nExperts L then dir.moe L li pfx mlpIn
  else if L.gate ≠ "" then dir.swiGlu L li pfx mlpIn
  else if L.fc ≠ "" then dir.dense L li pfx mlpIn
  else pure 0

def shexpInter : Int :=
  match dir.tensorShape (layerName L li L.sharedGate) with
  | .ok (d :: _ :: _) => if 0 < d then d else dir.config.intermediateSize
  | _ => dir.config.intermediateSize

def sharedExpert (mlpIn ffOut : TensorId) : Build R TensorId := do
  let sg ← dir.addWeightRef (layerName L li L.sharedGate) []
  let su ← dir.addWeightRef (layerName L li L.sharedUp) []
  let sd ← dir.addWeightRef (layerName L li L.sharedDown) []
  if sg = 0 ∨ su = 0 ∨ sd = 0 then pure ffOut
  else do
    let inter := dir.shexpInter L li
    let shG ← tensor (pfx ++ "shexp_gate") [1, inter]
    let shU ← tensor (pfx ++ "shexp_up") [1, inter]
    mm (pfx ++ "shexp_gate_mm") mlpIn sg shG (!L.conv1d)
    mm (pfx ++ "shexp_up_mm") mlpIn su shU (!L.conv1d)
    let shGa ← emit (pfx ++ "shexp_gate_act") [1, inter] (pfx ++ "shexp_act") dir.config.hiddenActOp.op [shG] []
    let shHid ← emit (pfx ++ "shexp_hid") [1, inter] (pfx ++ "shexp_mul") "Mul" [shGa, shU] []
    let shOut ← emit (pfx ++ "shexp_out") [1, dir.config.hiddenSize] (pfx ++ "shexp_down") "MatMul" [shHid, sd] (mmAttrs (!L.conv1d))
    emit (pfx ++ "ff_merged") [1, dir.config.hiddenSize] (pfx ++ "ff_add_shexp") "Add" [ffOut, shOut] []

/-- The features that the next layer takes. -/
def residual (features attnO resid1 ffOut : TensorId) : Build R TensorId :=
  if ffOut ≠ 0 then do
    let resid2 ← tensor (pfx ++ "resid2") [1, dir.config.hiddenSize]
    if dir.config.useParallelResidual then do
      let mid ← emit (pfx ++ "par_mid") [1, dir.config.hiddenSize] (pfx ++ "add_par_attn") "Add" [features, attnO] []
      node (pfx ++ "add2") "Add" [mid, ffOut] [resid2] []
      pure resid2
    else do
      node (pfx ++ "add2") "Add" [resid1, ffOut] [resid2] []
      pure resid2
  else if dir.config.useParallelResidual then
    emit (pfx ++ "resid1") [1, dir.config.hiddenSize] (pfx ++ "add1") "Add" [features, attnO] []
  else pure resid1

end Layer

def layer (li : Nat) (features : TensorId) : Build R TensorId := do
  let pfx := "l" ++ toText li ++ "."
  let attnNorm ← dir.addWeightRef (layerName L li L.n1) []
  let attnNormB ← dir.addNamed L li L.n1b []
  let ffnNorm ← dir.addWeightRef (layerName L li L.n2) []
  let ffnNormB ← dir.addNamed L li L.n2b []
  let wo ← dir.addWeightRef (layerName L li L.o) []
  let bo ← dir.addNamed L li L.ob [1, dir.config.hiddenSize]
  let attnO ← dir.attention L li pfx features attnNorm attnNormB wo bo
  let resid1 ← (if dir.config.useParallelResidual then pure 0
    else emit (pfx ++ "resid1") [1, dir.config.hiddenSize] (pfx ++ "add1") "Add" [features, attnO] [])
  let mlpIn := if dir.config.useParallelResidual then features else resid1
  let mlpIn ← (if ffnNorm = 0 then pure mlpIn
    else do
      let n2 ← tensor (pfx ++ "n2") [1, dir.config.hiddenSize]
      dir.addNorm L (pfx ++ "rms2") mlpIn ffnNorm ffnNormB n2
      pure n2)
  let ffOut ← dir.mlp L li pfx mlpIn
  let ffOut ← (if ffOut = 0 then pure ffOut else dir.postNorm L li pfx "post_mlp" "post_mlp_rms" L.postMlp ffOut)
  let ffOut ← (if ffOut = 0 ∨ L.sharedGate = "" then pure ffOut else dir.sharedExpert L li pfx mlpIn ffOut)
  dir.residual pfx features attnO resid1 ffOut

def layers : Nat → Nat → TensorId → Build R TensorId
  | 0, _, features => pure features
  | remaining + 1, li, features => do
    let features ← dir.layer L li features
    layers remaining (li + 1) features

/-! ## The graph -/

/-- The embedding, and the positions' where the layout has one. -/
def embedding (tokens embW : TensorId) : Build R TensorId := do
  let hidden ← tensor "hidden" [1, dir.config.hiddenSize]
  if L.wpe = "" then do
    node "embed" "Embedding" [tokens, embW] [hidden] []
    pure hidden
  else do
    let tokEmb ← emit "tok_emb" [1, dir.config.hiddenSize] "embed" "Embedding" [tokens, embW] []
    let wpeShape ← attempt (dir.tensorShape L.wpe)
    let wpeW ← weight L.wpe .f32 wpeShape (dir.resolveShard L.wpe ++ "#" ++ L.wpe) .f32
    let pos ← emit "positions" [1, 1] "positions" "Positions" [tokens] []
    let posEmb ← emit "pos_emb" [1, dir.config.hiddenSize] "wpe" "Embedding" [pos, wpeW] []
    node "embed_add" "Add" [tokEmb, posEmb] [hidden] []
    pure hidden

def outNorm (features : TensorId) : Build R TensorId :=
  if L.outNorm = "" then pure features
  else do
    let nshape ← attempt (dir.tensorShape L.outNorm)
    let nw ← weight L.outNorm .f32 nshape (dir.resolveShard L.outNorm ++ "#" ++ L.outNorm) .f32
    let nb ← (if L.outNormBias ≠ "" ∧ dir.hasTensor L.outNormBias then
        weight L.outNormBias .f32 [1, dir.config.hiddenSize] (dir.resolveShard L.outNormBias ++ "#" ++ L.outNormBias) .f32
      else pure 0)
    let nout ← tensor "normed" [1, dir.config.hiddenSize]
    (if L.layernorm ∧ nb ≠ 0 then node "ln_out" "LayerNorm" [features, nw, nb] [nout] [⟨"eps", .float dir.config.rmsNormEps⟩]
      else node "rms_out" "RMSNorm" [features, nw] [nout] dir.config.rmsAttrs)
    pure nout

/-- From the scores on: the soft cap, the probabilities, and the graph's input and output. -/
def head (features lmW tokens : TensorId) : Build R Unit := do
  let logits ← emit "logits" [1, dir.config.vocabSize] "lm_head" "MatMul" [features, lmW] transposeB
  let logitsIn ← (if 0 < dir.config.finalLogitSoftcapping then
      emit "logits_cap" [1, dir.config.vocabSize] "logit_softcap" "Softcap" [logits] [⟨"cap", .float dir.config.finalLogitSoftcapping⟩]
    else pure logits)
  let probs ← emit "probs" [1, dir.config.vocabSize] "softmax" "Softmax" [logitsIn] [⟨"axis", .int (-1)⟩]
  io [tokens] [probs]

def startMetadata : List (String × String) :=
  [("source_format", "huggingface"), ("source_path", dir.path), ("architecture", dir.config.architecture),
    ("hf_layout", L.layerPrefix)] ++
    (if dir.config.modelType ≠ "" then [("model_type", dir.config.modelType)] else []) ++
    (if dir.tied L then [("tied_embeddings", "1")] else []) ++ (if L.mixtral then [("moe", "1")] else [])

def endMetadata (floatText : R → String) (nLayers : Int) : List (String × String) :=
  [("n_layers", toText nLayers), ("n_heads", toText dir.config.numAttentionHeads),
    ("kv_heads", toText dir.config.numKeyValueHeads), ("head_dim", toText dir.config.headDim), ("q_dim", toText dir.qDim),
    ("kv_dim", toText dir.kvDim), ("rope_theta", floatText dir.config.ropeTheta), ("rope_mode", toText (dir.ropeMode L))] ++
    (if dir.config.ropeScalingType ≠ "" then [("rope_scaling", dir.config.ropeScalingType)] else []) ++
    [("family", hfFamilyName dir.config.architecture dir.config.modelType),
      ("chat_template", detectChatTemplateFamily dir.config.chatTemplate dir.config.architecture)] ++
    (if dir.config.chatTemplate ≠ "" then [("chat_template_kind", "family_equivalent")] else []) ++
    [("embedding_length", toText dir.config.hiddenSize), ("rms_eps", floatText dir.config.rmsNormEps),
      ("max_context", toText dir.config.maxPositionEmbeddings), ("context_length", toText dir.config.maxPositionEmbeddings)]

def build (floatText : R → String) (nLayers : Int) (embShape lmShape : List Int) : Build R Unit := do
  addMetadata (dir.startMetadata L)
  let tokens ← tensor "tokens" [1, 1]
  let embW ← weight L.embed .f32 embShape (dir.resolveShard L.embed ++ "#" ++ L.embed) .f32
  let hidden ← dir.embedding L tokens embW
  let features ← dir.layers L nLayers.toNat 0 hidden
  let features ← dir.outNorm L features
  let lmW ← (if dir.tied L then pure embW
    else weight L.lmHead .f32 lmShape (dir.resolveShard L.lmHead ++ "#" ++ L.lmHead) .f32)
  dir.head features lmW tokens
  addMetadata (dir.endMetadata L floatText nLayers)

/-- `HfLoader::load`. -/
def load (floatText : R → String) (cap : Int) : Result (Graph R) := do
  let L ← dir.checkedLayout
  let embShape ← dir.tensorShape L.embed
  let lmShape ← dir.tensorShape (if dir.tied L then L.embed else L.lmHead)
  let (_, b) ← (dir.build L floatText (applyLayerCap cap dir.config.numHiddenLayers) embShape lmShape).run
    ((GraphBuilder.init "hf_transformer").setProducer "uaii-hf-loader")
  .ok b.build

end HfDirectory

end Uaii.Loaders
