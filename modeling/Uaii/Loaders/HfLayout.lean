/-
  Uaii.Loaders.HfLayout — what `HfLoader::load` makes of a Hugging Face directory before it
  builds the graph (`libs/uaii-loaders/src/hf.cpp`).

  The names of the first layer's tensors decide the layout of all layers. What
  `hf_load_config_file` and `hf_load_weight_index` read is taken as it is; the shapes come
  from the headers of the shards.
-/

import Uaii.Loaders.SafetensorsLoad
import Uaii.Loaders.WeightRef
import Uaii.Planner.StoragePlan

namespace Uaii.Loaders

open Uaii.Ir
open Uaii.Planner (contains)

/-! ## The configuration -/

/-- What `map_hidden_act` maps to. -/
inductive HiddenAct where
  | silu
  | gelu
  | relu
  | relu2
  deriving DecidableEq, Repr

def HiddenAct.op : HiddenAct → String
  | .silu => "Silu"
  | .gelu => "Gelu"
  | .relu => "Relu"
  | .relu2 => "Relu2"

structure HfConfig (R : Type) where
  architecture : String
  modelType : String
  hiddenSize : Int
  numHiddenLayers : Int
  numAttentionHeads : Int
  numKeyValueHeads : Int
  intermediateSize : Int
  vocabSize : Int
  maxPositionEmbeddings : Int
  headDim : Int
  rmsNormEps : R
  ropeTheta : R
  ropeMode : Int
  tieWordEmbeddings : Bool
  numExperts : Int
  numExpertsPerTok : Int
  hiddenActOp : HiddenAct
  chatTemplate : String
  ropeScalingType : String
  ropeScaleFactor : R
  ropeLowFreqFactor : R
  ropeHighFreqFactor : R
  ropeOriginalMaxPos : R
  ropeAttnFactor : R
  ropeShortFactor : List R
  ropeLongFactor : List R
  quantMethod : String
  mxfp4 : Bool
  rmsOffset : R
  slidingWindow : Int
  layerSlidingWindow : List Int
  attnLogitSoftcapping : R
  finalLogitSoftcapping : R
  rotaryDim : Int
  useParallelResidual : Bool
  deriving DecidableEq, Repr

def isGptOssName (architecture modelType : String) : Bool :=
  let a := lower (architecture ++ " " ++ modelType)
  contains a "gpt_oss" || contains a "gpt-oss" || contains a "gptoss"

def quantMethodBlocked (method : String) : Bool :=
  let m := lower method
  ["gptq", "awq", "bitsandbytes", "bnb", "hqq", "compressed", "fp8", "f8", "eetq", "aqlm"].any (contains m)

def hfFamilyName (architecture modelType : String) : String :=
  let a := lower (architecture ++ " " ++ modelType)
  if contains a "gpt_oss" || contains a "gpt-oss" || contains a "gptoss" then "gpt_oss"
  else if contains a "gpt2" || contains a "gpt-2" then "gpt2"
  else if contains a "qwen3" then "qwen3"
  else if contains a "qwen2_moe" || contains a "qwen2moe" then "qwen2_moe"
  else if contains a "qwen" then "qwen2"
  else if contains a "mixtral" then "mixtral"
  else if contains a "mistral" then "mistral"
  else if contains a "gemma3" then "gemma3"
  else if contains a "gemma2" then "gemma2"
  else if contains a "gemma" then "gemma"
  else if contains a "phi" then "phi"
  else if contains a "olmo" then "olmo"
  else if contains a "kimi" || contains a "deepseek" then "kimi_mla"
  else if contains a "llama" || contains a "smollm" || contains a "granite" then "llama"
  else if modelType ≠ "" then lower modelType
  else if architecture ≠ "" then lower architecture
  else "unknown"

def detectChatTemplateFamily (chatTemplate arch : String) : String :=
  let a := lower arch
  if contains chatTemplate "<|start_header_id|>" then "llama3"
  else if contains chatTemplate "<start_of_turn>" then "gemma"
  else if contains chatTemplate "[INST]" then "mistral"
  else if contains chatTemplate "<|im_start|>" then "chatml"
  else if contains a "gemma" then "gemma"
  else if contains a "mistral" || contains a "mixtral" then "mistral"
  else if contains a "llama" then "llama3"
  else "chatml"

/-- `cap` is `UAII_MAX_LAYERS`, 0 when it is not set. -/
def applyLayerCap (cap modelLayers : Int) : Int :=
  let n := min modelLayers 512
  if 0 < cap ∧ cap < n then cap else n

/-! ## The layout -/

def kLayerPrefixes : List String :=
  ["model.layers.", "model.decoder.layers.", "model.model.layers.", "transformer.h.", "transformer.layers.",
    "gpt_neox.layers.", "transformer.blocks.", "h."]

structure DecodedLayout where
  /-- `prefix`. -/
  layerPrefix : String := ""
  embed : String := ""
  lmHead : String := ""
  outNorm : String := ""
  outNormBias : String := ""
  /-- `attn == Fused`. -/
  fused : Bool := false
  conv1d : Bool := false
  layernorm : Bool := false
  rope : Bool := true
  gelu : Bool := false
  mixtral : Bool := false
  n1 : String := ""
  n1b : String := ""
  n2 : String := ""
  n2b : String := ""
  q : String := ""
  k : String := ""
  v : String := ""
  o : String := ""
  qkv : String := ""
  qb : String := ""
  kb : String := ""
  vb : String := ""
  ob : String := ""
  qkvb : String := ""
  gate : String := ""
  up : String := ""
  down : String := ""
  fc : String := ""
  proj : String := ""
  moeGate : String := ""
  expertPrefix : String := ""
  expertWStyle : Nat := 0
  qNorm : String := ""
  kNorm : String := ""
  postAttn : String := ""
  postMlp : String := ""
  wpe : String := ""
  sharedGate : String := ""
  sharedUp : String := ""
  sharedDown : String := ""
  sharedExpertGate : String := ""
  deriving DecidableEq, Repr

def layerName (L : DecodedLayout) (li : Nat) (rest : String) : String := L.layerPrefix ++ toText li ++ "." ++ rest

section PickLayout

variable (has : String → Bool)

/-- `first_s`. -/
def firstS (names : List String) : String := (names.find? has).getD ""

/-- The name, if there is such a tensor. -/
def ifHas (name : String) : String := if has name then name else ""

/-- The tensors outside the layers. -/
def outerLayout : DecodedLayout where
  embed := firstS has ["model.embed_tokens.weight", "embed_tokens.weight", "transformer.wte.weight", "gpt_neox.embed_in.weight",
    "model.tok_embeddings.weight", "wte.weight", "model.wte.weight", "transformer.word_embeddings.weight"]
  wpe := firstS has ["transformer.wpe.weight", "wpe.weight", "model.wpe.weight", "gpt_neox.embed_positions.weight",
    "model.embed_positions.weight"]
  lmHead := firstS has ["lm_head.weight", "embed_out.weight", "output.weight"]
  outNorm := firstS has ["model.norm.weight", "norm.weight", "transformer.ln_f.weight", "gpt_neox.final_layer_norm.weight",
    "model.final_layernorm.weight", "transformer.final_layernorm.weight", "ln_f.weight"]
  outNormBias := firstS has ["model.norm.bias", "transformer.ln_f.bias", "gpt_neox.final_layer_norm.bias", "ln_f.bias"]

def attnLayout (L : DecodedLayout) : DecodedLayout :=
  if has "self_attn.q_proj.weight" then
    { L with
      q := "self_attn.q_proj.weight"
      k := "self_attn.k_proj.weight"
      v := "self_attn.v_proj.weight"
      o := if has "self_attn.o_proj.weight" then "self_attn.o_proj.weight" else "self_attn.dense.weight"
      qb := ifHas has "self_attn.q_proj.bias"
      kb := ifHas has "self_attn.k_proj.bias"
      vb := ifHas has "self_attn.v_proj.bias"
      ob := ifHas has "self_attn.o_proj.bias"
      qNorm := ifHas has "self_attn.q_norm.weight"
      kNorm := ifHas has "self_attn.k_norm.weight" }
  else if has "attn.q_proj.weight" then
    { L with
      q := "attn.q_proj.weight"
      k := "attn.k_proj.weight"
      v := "attn.v_proj.weight"
      o := if has "attn.o_proj.weight" then "attn.o_proj.weight" else "attn.dense.weight" }
  else if has "attn.c_attn.weight" then
    { L with
      fused := true
      conv1d := true
      qkv := "attn.c_attn.weight"
      qkvb := ifHas has "attn.c_attn.bias"
      o := "attn.c_proj.weight"
      ob := ifHas has "attn.c_proj.bias"
      rope := false
      layernorm := true
      gelu := true }
  else if has "self_attn.qkv_proj.weight" then
    { L with
      fused := true
      qkv := "self_attn.qkv_proj.weight"
      qkvb := ifHas has "self_attn.qkv_proj.bias"
      o := if has "self_attn.o_proj.weight" then "self_attn.o_proj.weight" else "self_attn.dense.weight" }
  else if has "self_attn.W_pack.weight" then
    { L with fused := true, qkv := "self_attn.W_pack.weight", o := "self_attn.o_proj.weight" }
  else if has "attention.query_key_value.weight" then
    { L with
      fused := true
      qkv := "attention.query_key_value.weight"
      qkvb := ifHas has "attention.query_key_value.bias"
      o := "attention.dense.weight"
      ob := ifHas has "attention.dense.bias"
      layernorm := true }
  else
    { L with
      fused := true
      qkv := "self_attn.query_key_value.weight"
      o := if has "self_attn.dense.weight" then "self_attn.dense.weight" else "self_attn.o_proj.weight" }

def attnNormLayout (L : DecodedLayout) : DecodedLayout :=
  if has "input_layernorm.weight" then { L with n1 := "input_layernorm.weight", n1b := ifHas has "input_layernorm.bias" }
  else if has "ln_1.weight" then { L with n1 := "ln_1.weight", n1b := ifHas has "ln_1.bias", layernorm := true }
  else if has "attention_norm.weight" then { L with n1 := "attention_norm.weight" }
  else L

def ffnNormLayout (L : DecodedLayout) : DecodedLayout :=
  if has "pre_feedforward_layernorm.weight" then
    { L with
      n2 := "pre_feedforward_layernorm.weight"
      n2b := ifHas has "pre_feedforward_layernorm.bias"
      postAttn := ifHas has "post_attention_layernorm.weight"
      postMlp := ifHas has "post_feedforward_layernorm.weight" }
  else if has "post_attention_layernorm.weight" then
    { L with n2 := "post_attention_layernorm.weight", n2b := ifHas has "post_attention_layernorm.bias" }
  else if has "ln_2.weight" then { L with n2 := "ln_2.weight", n2b := ifHas has "ln_2.bias", layernorm := true }
  else if has "ffn_norm.weight" then { L with n2 := "ffn_norm.weight" }
  else L

def sharedLayout (L : DecodedLayout) : DecodedLayout :=
  let L := { L with sharedExpertGate := ifHas has "mlp.shared_expert_gate.weight" }
  if has "mlp.shared_expert.gate_proj.weight" then
    { L with
      sharedGate := "mlp.shared_expert.gate_proj.weight"
      sharedUp := "mlp.shared_expert.up_proj.weight"
      sharedDown := "mlp.shared_expert.down_proj.weight" }
  else if has "mlp.shared_experts.gate_proj.weight" then
    { L with
      sharedGate := "mlp.shared_experts.gate_proj.weight"
      sharedUp := "mlp.shared_experts.up_proj.weight"
      sharedDown := "mlp.shared_experts.down_proj.weight" }
  else L

def mlpLayout (L : DecodedLayout) : DecodedLayout :=
  if has "block_sparse_moe.gate.weight" || has "mlp.gate.weight" then
    let L := { L with
      mixtral := true
      moeGate := if has "block_sparse_moe.gate.weight" then "block_sparse_moe.gate.weight" else "mlp.gate.weight" }
    if has "block_sparse_moe.experts.0.w1.weight" then { L with expertPrefix := "block_sparse_moe.experts.", expertWStyle := 0 }
    else if has "mlp.experts.0.gate_proj.weight" then { L with expertPrefix := "mlp.experts.", expertWStyle := 1 }
    else { L with expertPrefix := "block_sparse_moe.experts.", expertWStyle := 1 }
  else if has "mlp.gate_proj.weight" then
    { L with gate := "mlp.gate_proj.weight", up := "mlp.up_proj.weight", down := "mlp.down_proj.weight" }
  else if has "mlp.c_fc.weight" then
    { L with fc := "mlp.c_fc.weight", proj := "mlp.c_proj.weight", gelu := true, conv1d := true }
  else if has "mlp.dense_h_to_4h.weight" then
    { L with fc := "mlp.dense_h_to_4h.weight", proj := "mlp.dense_4h_to_h.weight", gelu := true }
  else if has "mlp.fc1.weight" then { L with fc := "mlp.fc1.weight", proj := "mlp.fc2.weight", gelu := true }
  else L

/-- A layer has an attention that is known. -/
def hasAttention : Bool :=
  ["self_attn.q_proj.weight", "self_attn.qkv_proj.weight", "self_attn.W_pack.weight", "attn.c_attn.weight",
    "attention.query_key_value.weight", "self_attn.query_key_value.weight", "attn.q_proj.weight"].any has

/-- The layout of the first prefix whose first layer has an attention. -/
def pickLayout : Option DecodedLayout :=
  (kLayerPrefixes.find? fun pfx => hasAttention fun rest => has (pfx ++ "0." ++ rest)).bind fun pfx =>
    let has0 (rest : String) : Bool := has (pfx ++ "0." ++ rest)
    let L := { outerLayout has with layerPrefix := pfx }
    let L := mlpLayout has0 (sharedLayout has0 (ffnNormLayout has0 (attnNormLayout has0 (attnLayout has0 L))))
    let L := if L.n1b ≠ "" ∨ L.n2b ≠ "" then { L with layernorm := true } else L
    if L.embed ≠ "" ∧ L.layerPrefix ≠ "" then some L else none

end PickLayout

/-! ## The directory -/

structure HfDirectory (R : Type) where
  path : String
  config : HfConfig R
  /-- The shard of every tensor. -/
  weightMap : List (String × String)
  fs : FileSystem
  order : MapOrder

namespace HfDirectory

variable {R : Type} (dir : HfDirectory R)

def hasTensor (name : String) : Bool := (dir.weightMap.find? (·.1 == name)).isSome

/-- `join_path`. -/
def joined (file : String) : String :=
  if dir.path = "" then file
  else if file = "" then dir.path
  else if file.toList.head? = some '/' then file
  else joinPath dir.path file

def resolveShard (tensor : String) : String := ((dir.weightMap.find? (·.1 == tensor)).map fun e => dir.joined e.2).getD ""

def tensorShape (name : String) : Result (List Int) := do
  let shard := dir.resolveShard name
  if shard = "" then fail .notFound ("tensor not in weight map: " ++ name)
  else
    let file ← safetensorsReadHeader dir.order dir.fs shard
    match file.findSt name with
    | none => fail .notFound ("tensor not in shard header: " ++ name)
    | some ti => .ok ti.shape

def quantizedName (name : String) : Bool :=
  let n := lower name
  contains n "qweight" || contains n "qzeros" || contains n ".g_idx"

/-- `load` until the layout is picked. -/
def checkedLayout : Result DecodedLayout :=
  if dir.hasTensor "model.layers.0.self_attn.q_a_proj.weight" ∨ dir.hasTensor "model.layers.0.self_attn.kv_a_proj_with_mqa.weight" then
    fail .notImplemented "HF MLA; use GGUF"
  else if isGptOssName dir.config.architecture dir.config.modelType then
    fail .notImplemented (if dir.config.mxfp4 then "mxfp4 convert to BF16/GGUF" else "gpt-oss family handler")
  else if dir.weightMap.any (quantizedName ·.1) then fail .notImplemented "quantized safetensors"
  else if dir.config.quantMethod ≠ "" ∧ quantMethodBlocked dir.config.quantMethod then fail .notImplemented "quantized safetensors"
  else if dir.config.mxfp4 then fail .notImplemented "mxfp4 convert to BF16/GGUF"
  else
    match pickLayout dir.hasTensor with
    | none => fail .invalidArgument ("HF decoder layout not recognized (need CausalLM tensors such as " ++
        "model.layers.*.self_attn.q_proj or transformer.h.*.attn.c_attn) under: " ++ dir.path)
    | some L =>
      let fam := hfFamilyName dir.config.architecture dir.config.modelType
      if fam = "qwen3" ∧ L.qNorm = "" then
        fail .notImplemented "QK-norm weights missing (need self_attn.q_norm / k_norm)"
      else if (fam = "gemma2" ∨ fam = "gemma3") ∧ L.postAttn = "" then
        fail .notImplemented "Gemma2 extra residual norms missing (pre_feedforward_layernorm)"
      else if fam = "gpt2" ∧ L.wpe = "" then fail .notImplemented "GPT-2 wpe positional embedding missing"
      else .ok L

/-- `tied_embeddings`. -/
def tied (L : DecodedLayout) : Bool := L.lmHead == "" || dir.config.tieWordEmbeddings

/-- `cfg.rope_mode`, which a layout without rotation overrides. -/
def ropeMode (L : DecodedLayout) : Int := if L.rope then dir.config.ropeMode else -1

/-- `n_experts`, counted when the configuration does not say. -/
def nExperts (L : DecodedLayout) : Int :=
  if L.mixtral ∧ dir.config.numExperts ≤ 0 then
    let w := if L.expertWStyle = 0 then "w1.weight" else "gate_proj.weight"
    let missing := (List.range 256).find? fun e : Nat => !dir.hasTensor (layerName L 0 (L.expertPrefix ++ toText e ++ "." ++ w))
    (missing.map fun e : Nat => (e : Int)).getD dir.config.numExperts
  else dir.config.numExperts

def topK : Int := if 0 < dir.config.numExpertsPerTok then dir.config.numExpertsPerTok else 2

end HfDirectory

end Uaii.Loaders
