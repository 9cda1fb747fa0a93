/-
  Uaii.Loaders.GgufConfig — what `GgufLoader::load` reads off a parsed header before it
  builds the graph (`libs/uaii-loaders/src/gguf.cpp`).

  A setting is looked for under the architecture's name, then under `llama`, then under
  `general`. The floats of the metadata are numbers of `R`; dimensions are exact.
-/

import Uaii.Loaders.GgufHeader
import Uaii.Loaders.HfLayout

namespace Uaii.Loaders

open Uaii.Ir
open Uaii.Planner (contains)

/-- What a float of the metadata is, and a double cast to one. -/
structure KvFloats (R : Type) where
  float : BitVec 32 → R
  double : BitVec 64 → R

namespace GgufHeader

variable (file : GgufHeader)

/-! ## Tensors and values by name -/

def findTensor (name : String) : Option GgufTensorInfo := file.tensors.find? (·.name == name)

def has (name : String) : Bool := (file.findTensor name).isSome

def findTensorAny (names : List String) : Option GgufTensorInfo := names.findSome? file.findTensor

/-- `file.kv.find(key)`. -/
def kvAt (key : String) : Option GgufValue := (file.kv.find? (·.1 == key)).map (·.2)

def kvI64 (key : String) (default : Int) : Int :=
  match file.kvAt key with
  | some (.int64 x) => x.toInt
  | some (.uint64 x) => x.toInt
  | some (.int32 x) => x.toInt
  | some (.uint32 x) => x.toNat
  | _ => default

def kvString (key : String) : String :=
  match file.kvAt key with
  | some (.string s) => s
  | _ => ""

/-- `arch`. -/
def arch : String := lower (file.kvString "general.architecture")

def kvI64Arch (suffix : String) (default : Int) : Int :=
  let own := if file.arch = "" then -1 else file.kvI64 (file.arch ++ "." ++ suffix) (-1)
  let llama := file.kvI64 ("llama." ++ suffix) (-1)
  let general := file.kvI64 ("general." ++ suffix) (-1)
  if 0 ≤ own then own else if 0 ≤ llama then llama else if 0 ≤ general then general else default

def kvStringArch (suffix : String) : String :=
  if file.arch ≠ "" ∧ (file.kvAt (file.arch ++ "." ++ suffix)).isSome then file.kvString (file.arch ++ "." ++ suffix)
  else file.kvString ("llama." ++ suffix)

section Floats

variable {R : Type} [Field R] (F : KvFloats R)

def kvFloat (key : String) (default : R) : R :=
  match file.kvAt key with
  | some (.float x) => F.float x
  | some (.double x) => F.double x
  | some (.int32 x) => (x.toInt : R)
  | some (.int64 x) => (x.toInt : R)
  | some (.uint32 x) => (x.toNat : R)
  | some (.uint64 x) => (x.toNat : R)
  | _ => default

def kvFloatArch (suffix : String) (default : R) : R :=
  if file.arch ≠ "" ∧ (file.kvAt (file.arch ++ "." ++ suffix)).isSome then file.kvFloat F (file.arch ++ "." ++ suffix) default
  else if (file.kvAt ("llama." ++ suffix)).isSome then file.kvFloat F ("llama." ++ suffix) default
  else file.kvFloat F ("general." ++ suffix) default

end Floats

/-! ## What the file is -/

def emb : Option GgufTensorInfo :=
  file.findTensorAny ["token_embd.weight", "embed.weight", "model.embed_tokens.weight", "token_embd"]

/-- `lm`, before the embedding takes its place. -/
def ownLm : Option GgufTensorInfo := file.findTensorAny ["output.weight", "lm_head.weight", "output"]

/-- `tied_embeddings`. -/
def tied : Bool := file.ownLm.isNone && file.emb.isSome

def lm : Option GgufTensorInfo := if file.tied then file.emb else file.ownLm

def norm : Option GgufTensorInfo := file.findTensorAny ["output_norm.weight", "norm.weight", "output_norm"]

def hasBlk0 : Bool :=
  file.has "blk.0.attn_q.weight" || file.has "blk.0.attn_qkv.weight" || file.has "blk.0.attn_norm.weight" ||
    file.has "blk.0.attn_kv_a_mqa.weight" || file.has "blk.0.attn_kv_a.weight" || file.has "blk.0.attn_q_a.weight"

def looksLikeMoe : Bool :=
  0 < file.kvI64Arch "expert_count" 0 ||
    ["blk.0.ffn_gate_inp.weight", "blk.0.ffn_gate_exps.weight", "blk.0.ffn_up_exps.weight", "blk.0.ffn_down_exps.weight"].any file.has

/-- `detect_chat_template_meta`. -/
def chatTemplate : String :=
  let j := file.kvString "tokenizer.chat_template"
  if contains j "<|start_header_id|>" then "llama3"
  else if contains j "<start_of_turn>" then "gemma"
  else if contains j "[INST]" then "mistral"
  else if contains j "<|im_start|>" then "chatml"
  else if file.arch ∈ ["llama", "llama3", "llama4"] then "llama3"
  else if file.arch ∈ ["gemma", "gemma2", "gemma3"] then "gemma"
  else if file.arch ∈ ["mistral", "mixtral", "llama2"] then "mistral"
  else "chatml"

def kUnsupported : List String :=
  ["mamba", "mamba2", "rwkv", "rwkv6", "rwkv7", "plamo2", "jamba", "falcon-h1", "bert", "nomic-bert", "t5", "t5encoder", "umt5",
    "mt5", "flan-t5", "clip", "wav2vec2", "whisper"]

/-- `hint` of an architecture that is not supported. -/
def archHint (arch : String) : String :=
  if arch ∈ ["mamba", "mamba2", "jamba", "falcon-h1", "plamo2"] then "plugin ops SSMConv1d / SSMState (research_ops scaffold)"
  else if arch ∈ ["rwkv", "rwkv6", "rwkv7"] then "plugin op RWKVTimeMix (research_ops scaffold)"
  else if arch ∈ ["bert", "nomic-bert", "t5", "t5encoder", "umt5", "mt5", "flan-t5"] then
    "plugin op EncoderCrossAttn (research_ops scaffold)"
  else if arch = "clip" then "plugin op VisionPatchEmbed (research_ops scaffold)"
  else "SSM/encoder-decoder/vision kernels"

/-- `validate_gguf_model`. -/
def validate : Result Unit :=
  if file.arch ∈ kUnsupported then
    fail .notImplemented ("architecture '" ++ file.arch ++ "' is not supported yet (needs " ++ archHint file.arch ++
      "). Use a decoder-only Llama/Qwen/Gemma GGUF, or set UAII_MAX_LAYERS for partial tests.")
  else if file.has "blk.0.ssm_conv1d.weight" ∨ file.has "ssm_conv1d.weight" then
    fail .notImplemented "Mamba/SSM models are not supported yet (needs plugin ops SSMConv1d / SSMState)"
  else if file.has "encoder.embd.weight" ∨ file.has "enc.embd.weight" then
    fail .notImplemented "encoder-decoder models are not supported yet (needs plugin op EncoderCrossAttn)"
  else .ok ()

/-! ## The settings -/

def nHeads : Int :=
  let n := file.kvI64Arch "attention.head_count" 0
  if n ≤ 0 then 1 else n

def nKvHeads : Int :=
  let n := file.kvI64Arch "attention.head_count_kv" file.nHeads
  if n ≤ 0 then file.nHeads else n

/-- `head_dim` of a model whose embedding is `dim` wide. -/
def headDim (dim : Int) : Int :=
  let embLen := file.kvI64Arch "embedding_length" dim
  let h := file.kvI64Arch "attention.key_length" 0
  if h ≤ 0 then if 0 < file.nHeads then (if 0 < embLen then embLen else dim).tdiv file.nHeads else dim else h

def qDim (dim : Int) : Int := file.nHeads * file.headDim dim

def kvDim (dim : Int) : Int := file.nKvHeads * file.headDim dim

def qkNopeHeadDim : Int := file.kvI64Arch "attention.qk_nope_head_dim" (file.kvI64Arch "qk_nope_head_dim" 0)

def qkRopeHeadDim : Int := file.kvI64Arch "attention.qk_rope_head_dim" (file.kvI64Arch "qk_rope_head_dim" 0)

def qLoraRank : Int := file.kvI64Arch "attention.q_lora_rank" (file.kvI64Arch "q_lora_rank" 0)

def kvLoraRank : Int := file.kvI64Arch "attention.kv_lora_rank" (file.kvI64Arch "kv_lora_rank" 0)

def valueLength : Int := file.kvI64Arch "attention.value_length" 0

def mlaRopeHeadDim (dim : Int) : Int :=
  let rope := file.qkRopeHeadDim
  let key := if rope ≤ 0 then file.kvI64Arch "attention.key_length" 0 else rope
  if key ≤ 0 then file.headDim dim else key

def ropeMode : Int :=
  if file.arch ∈ ["qwen2", "qwen2moe", "qwen3", "qwen", "phi2", "falcon", "stablelm", "starcoder2", "olmo2", "gemma", "gemma2",
    "gemma3", "deepseek2", "deepseekv2", "deepseekv3", "deepseek"] then 2 else 0

/-- `gguf_sliding`. -/
def sliding : Int := file.kvI64Arch "attention.sliding_window" (file.kvI64Arch "sliding_window" 0)

def useLayernorm : Bool := file.has "blk.0.attn_norm.bias" || file.arch == "gpt2" || file.arch == "phi2"

def ropeScaleType : String :=
  let type := lower (file.kvStringArch "rope.scaling.type")
  if type = "" then lower (file.kvStringArch "rope.scaling.rope_type") else type

/-- A tensor that shows that there is a layer. -/
def showsLayer (i : Nat) : Bool :=
  ["attn_norm.weight", "attn_q.weight", "attn_qkv.weight", "attn_kv_a_mqa.weight", "attn_kv_a.weight", "attn_q_a.weight"].any
    fun rest => file.has ("blk." ++ toText i ++ "." ++ rest)

/-- `n_layers`: the metadata's, or else counted from the names; `cap` is `UAII_MAX_LAYERS`. -/
def nLayers (cap : Int) : Int :=
  let n := file.kvI64Arch "block_count" 0
  applyLayerCap cap (if n ≤ 0 ∧ file.hasBlk0 then (((List.range 512).find? fun i => !file.showsLayer i).map fun i : Nat => (i : Int)).getD n
    else n)

def nExpertsMeta : Int := file.kvI64Arch "expert_count" 0

def nExpertUsedMeta : Int := file.kvI64Arch "expert_used_count" 0

section Floats

variable {R : Type} [Field R] (F : KvFloats R)

def ropeTheta : R := file.kvFloatArch F "rope.freq_base" 10000

def rmsEps : R := file.kvFloatArch F "attention.layer_norm_rms_epsilon" (1 / (100000 : Nat))

def layerEps : R := file.kvFloatArch F "attention.layer_norm_epsilon" (file.rmsEps F)

def attnSoftcap : R := file.kvFloatArch F "attn_logit_softcapping" 0

/-- `rope_old_ctx`. -/
def ropeOldCtx : R := file.kvFloatArch F "rope.scaling.original_context_length" (file.kvFloatArch F "context_length" (8192 : Nat))

/-- `add_gguf_rope_scale`. -/
def ropeScaleAttrs [LinearOrder R] : List (Attribute R) :=
  if file.ropeScaleType ∈ ["", "none", "default"] then []
  else
    [⟨"scale_type", .string file.ropeScaleType⟩, ⟨"scale_factor", .float (file.kvFloatArch F "rope.scaling.factor" 1)⟩,
      ⟨"low_freq_factor", .float (file.kvFloatArch F "rope.scaling.low_freq_factor" 1)⟩,
      ⟨"high_freq_factor", .float (file.kvFloatArch F "rope.scaling.high_freq_factor" 4)⟩,
      ⟨"old_context_len", .float (if 0 < file.ropeOldCtx F then file.ropeOldCtx F else (8192 : Nat))⟩,
      ⟨"attn_factor", .float (file.kvFloatArch F "rope.scaling.attn_factor" 1)⟩]

end Floats

end GgufHeader

/-! ## Shapes -/

/-- `weight_out_dim`. -/
def weightOutDim (ti : Option GgufTensorInfo) : Int := (ti.map fun t => (dimsToShape t.dims).getD 0 0).getD 0

/-- `weight_in_dim`. -/
def weightInDim (ti : Option GgufTensorInfo) : Int := (ti.map fun t => (dimsToShape t.dims).getD 1 0).getD 0

/-- `gguf_to_dtype`. -/
def ggufToDtype : GgufType → DType
  | .f32 => .f32
  | .f16 => .f16
  | .bf16 => .bf16
  | .i8 => .i8
  | .i32 => .i32
  | .i64 => .i64
  | _ => .unknown

/-- What `add_weight_ref` says of the type of a weight. -/
def unsupportedHint (type : GgufType) : String :=
  " Supported quants: f16,f32,q4_0,q4_1,q5_0,q5_1,q8_0,q2_k..q6_k,iq4_nl." ++
    if type ∈ [.iq2_xxs, .iq2_xs, .iq3_xxs, .iq1_s, .iq3_s, .iq2_s, .iq4_xs, .iq1_m, .q8_k] then
      " IQ* / Q8_K types are not implemented — convert to Q4_K_M (or F16) with llama-quantize."
    else ""

end Uaii.Loaders
