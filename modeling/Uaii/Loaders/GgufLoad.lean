/-
  Uaii.Loaders.GgufLoad — `GgufLoader::load` (`libs/uaii-loaders/src/gguf.cpp`): the graph of
  a GGUF file.

  A weight that is not there has id 0. The loop over the layers stops at the first that
  lacks its norm, its output projection or its query, key and value; only a layer with some
  of the tensors of latent attention is refused when it has not all. `floatText` is
  `std::to_string` of a float.
-/

import Uaii.Loaders.GgufConfig

namespace Uaii.Loaders

open Uaii.Ir Uaii.Ir.Build

variable {R : Type}

/-- The ids that `add_weight_ref` gave to the tensors of a layer, by the names after the prefix. -/
abbrev LayerWeights := List (String × TensorId)

/-- 0 for a tensor that was not asked for. -/
def LayerWeights.id (w : LayerWeights) (rest : String) : TensorId := ((w.find? (·.1 == rest)).map (·.2)).getD 0

/-- The query, the keys and the values of a layer. -/
structure LayerQkv where
  q : TensorId
  k : TensorId
  v : TensorId
  qDim : Int
  kvDim : Int
  heads : Int
  kvHeads : Int
  ropeHd : Int
  attnOut : Int
  /-- `mla_k_assembled`. -/
  kAssembled : Bool
  deriving Repr

/-- What `load` imports: the file and the width of its embedding. -/
structure GgufImport (R : Type) where
  file : GgufHeader
  floats : KvFloats R
  dim : Int

namespace GgufImport

variable (m : GgufImport R)

/-- `path + "#" + name`. -/
def ref (name : String) : String := m.file.path ++ "#" ++ name

/-- A tensor of the file as a weight, with the type that it is stored in. -/
def fileWeight (ti : GgufTensorInfo) : Build R TensorId :=
  weight ti.name .f32 (dimsToShape ti.dims) (m.ref ti.name) (ggufTypeToQuant ti.type)

def unsupported (ti : GgufTensorInfo) : String := "unsupported GGUF quant type for weight " ++ ti.name ++ ": " ++ ti.type.toString

def addWeightRef (name : String) : Build R TensorId :=
  match m.file.findTensor name with
  | none => pure 0
  | some ti => do
    refuseIf (!ggufTypeSupported ti.type) .notImplemented
      ("unsupported GGUF quant type for weight " ++ name ++ ": " ++ ti.type.toString ++ "." ++ unsupportedHint ti.type)
    weight name .f32 (dimsToShape ti.dims) (m.ref name) (ggufTypeToQuant ti.type)

def addWeightRefs (pfx : String) : List String → Build R LayerWeights
  | [] => pure []
  | rest :: rests => do
    let t ← m.addWeightRef (pfx ++ rest)
    let w ← addWeightRefs pfx rests
    pure ((rest, t) :: w)

/-! ## The weights of a layer -/

/-- Up to `attn_kv_a_mqa`. -/
def firstNames : List String :=
  ["attn_norm.weight", "attn_norm.bias", "attn_qkv.weight", "attn_q.weight", "attn_k.weight", "attn_v.weight", "attn_q_norm.weight",
    "attn_k_norm.weight", "attn_q_a.weight", "attn_q_a_norm.weight", "attn_q_b.weight", "attn_kv_a_mqa.weight"]

def lastNames : List String :=
  ["attn_kv_a_norm.weight", "attn_k_b.weight", "attn_v_b.weight", "attn_q.bias", "attn_k.bias", "attn_v.bias", "attn_qkv.bias",
    "attn_output.weight", "ffn_norm.weight", "ffn_norm.bias", "ffn_gate.weight", "ffn_up.weight", "ffn_down.weight",
    "ffn_gate_inp.weight", "ffn_gate_shexp.weight", "ffn_up_shexp.weight", "ffn_down_shexp.weight"]

/-- `attn_kv_a` is asked for when there is no `attn_kv_a_mqa`. -/
def layerWeights (pfx : String) : Build R LayerWeights := do
  let first ← m.addWeightRefs pfx firstNames
  let kvA ← (if first.id "attn_kv_a_mqa.weight" = 0 then m.addWeightRefs pfx ["attn_kv_a.weight"] else pure [])
  let last ← m.addWeightRefs pfx lastNames
  pure (first ++ kvA ++ last)

end GgufImport

namespace LayerWeights

variable (w : LayerWeights)

/-- `w_kv_a`. -/
def kvA : TensorId := if w.id "attn_kv_a_mqa.weight" = 0 then w.id "attn_kv_a.weight" else w.id "attn_kv_a_mqa.weight"

def splitQkv : Prop := w.id "attn_q.weight" ≠ 0 ∧ w.id "attn_k.weight" ≠ 0 ∧ w.id "attn_v.weight" ≠ 0

/-- `w_q_a && w_q_b`. -/
def qLora : Prop := w.id "attn_q_a.weight" ≠ 0 ∧ w.id "attn_q_b.weight" ≠ 0

instance : Decidable w.splitQkv := inferInstanceAs (Decidable (_ ∧ _ ∧ _))

instance : Decidable w.qLora := inferInstanceAs (Decidable (_ ∧ _))

end LayerWeights

namespace GgufImport

variable [Field R] [LinearOrder R] (m : GgufImport R)

def rmsAttrs : List (Attribute R) := [⟨"eps", .float (m.file.rmsEps m.floats)⟩]

/-- A norm, with a bias if the model has such norms and the layer has one. -/
def addNorm (ln rms : String) (x w bias y : TensorId) : Build R Unit :=
  if m.file.useLayernorm ∧ bias ≠ 0 then node ln "LayerNorm" [x, w, bias] [y] [⟨"eps", .float (m.file.layerEps m.floats)⟩]
  else node rms "RMSNorm" [x, w] [y] m.rmsAttrs

def slice (a b : Int) : List (Attribute R) := [⟨"start", .int a⟩, ⟨"end", .int b⟩]

section Layer

variable (li : Nat) (pfx : String) (w : LayerWeights)

def info (rest : String) : Option GgufTensorInfo := m.file.findTensor (pfx ++ rest)

def hasKvA : Bool := m.file.has (pfx ++ "attn_kv_a_mqa.weight") || m.file.has (pfx ++ "attn_kv_a.weight")

def isMla : Prop := m.hasKvA pfx ∧ w.id "attn_k_b.weight" ≠ 0 ∧ w.id "attn_v_b.weight" ≠ 0

instance : Decidable (m.isMla pfx w) := inferInstanceAs (Decidable (_ ∧ _ ∧ _))

/-! ## Latent attention -/

/-- `layer_q_dim`. -/
def mlaQDim : Int := weightOutDim (m.info pfx (if w.qLora then "attn_q_b.weight" else "attn_q.weight"))

def mlaQ (n1 : TensorId) : Build R TensorId :=
  if w.qLora then do
    let qADim := weightOutDim (m.info pfx "attn_q_a.weight")
    refuseIf (qADim ≤ 0) .invalidArgument (pfx ++ " attn_q_a shape invalid")
    let qa ← emit (pfx ++ "q_a") [1, qADim] (pfx ++ "q_a_mm") "MatMul" [n1, w.id "attn_q_a.weight"] transposeB
    let qa ← (if w.id "attn_q_a_norm.weight" ≠ 0 then
        emit (pfx ++ "q_a_n") [1, qADim] (pfx ++ "q_a_rms") "RMSNorm" [qa, w.id "attn_q_a_norm.weight"] m.rmsAttrs
      else pure qa)
    emit (pfx ++ "q") [1, m.mlaQDim pfx w] (pfx ++ "q_b_mm") "MatMul" [qa, w.id "attn_q_b.weight"] transposeB
  else if w.id "attn_q.weight" ≠ 0 then
    emit (pfx ++ "q") [1, m.mlaQDim pfx w] (pfx ++ "q_mm") "MatMul" [n1, w.id "attn_q.weight"] transposeB
  else error .invalidArgument (pfx ++ " MLA missing Q projection")

/-- `kvc_full_dim`. -/
def kvcFullDim : Int :=
  weightOutDim ((m.info pfx "attn_kv_a_mqa.weight").or (m.info pfx "attn_kv_a.weight"))

/-- `latent_dim`: the width that `attn_k_b` takes. -/
def latentDim : Int := weightInDim (m.info pfx "attn_k_b.weight")

/-- `kvc` and `latent`. -/
def mlaLatent (n1 : TensorId) : Build R (TensorId × TensorId) := do
  let full := m.kvcFullDim pfx
  let kBIn := m.latentDim pfx
  let vBIn := weightInDim (m.info pfx "attn_v_b.weight")
  refuseIf (full ≤ 0 ∨ kBIn ≤ 0 ∨ vBIn ≤ 0 ∨ kBIn ≠ vBIn) .invalidArgument (pfx ++ " MLA kv_a/k_b/v_b in/out dims inconsistent")
  let kvc ← emit (pfx ++ "kvc") [1, full] (pfx ++ "kv_a_mm") "MatMul" [n1, w.kvA] transposeB
  let latent ← (if full ≠ kBIn then do
      refuseIf (full < kBIn) .invalidArgument (pfx ++ " MLA kv_a out < k_b in (incomplete MLA tensors)")
      emit (pfx ++ "kv_latent") [1, kBIn] (pfx ++ "kv_latent_slice") "Slice" [kvc] (slice 0 kBIn)
    else pure kvc)
  if w.id "attn_kv_a_norm.weight" ≠ 0 then do
    let normDim := weightOutDim (m.info pfx "attn_kv_a_norm.weight")
    refuseIf (0 < normDim ∧ normDim ≠ kBIn) .invalidArgument (pfx ++ " MLA attn_kv_a_norm size mismatch vs latent")
    let latN ← emit (pfx ++ "kv_latent_n") [1, kBIn] (pfx ++ "kv_a_rms") "RMSNorm" [latent, w.id "attn_kv_a_norm.weight"] m.rmsAttrs
    pure (kvc, latN)
  else pure (kvc, latent)

/-- `nope` and `rope`, what a head has of each. -/
def nopeRope (qDim kvDim ropeExtra : Int) : Int × Int :=
  let heads := m.file.nHeads
  let nope := m.file.qkNopeHeadDim
  let rope := if 0 < m.file.qkRopeHeadDim then m.file.qkRopeHeadDim else ropeExtra
  let nope := if nope ≤ 0 ∧ 0 < heads ∧ kvDim.tmod heads = 0 then kvDim.tdiv heads else nope
  let rope := if rope ≤ 0 ∧ 0 < heads ∧ qDim.tmod heads = 0 ∧ 0 < nope then qDim.tdiv heads - nope else rope
  (nope, rope)

/-- The keys of a layer whose query is wider: each head's own part and the one rotated for all. -/
def mlaAssemble (kvc : TensorId) (qkv : LayerQkv) : Build R LayerQkv := do
  let ropeExtra := m.kvcFullDim pfx - m.latentDim pfx
  let (nope, rope) := m.nopeRope qkv.qDim qkv.kvDim ropeExtra
  refuseIf (nope ≤ 0 ∨ rope ≤ 0 ∨ ropeExtra < rope ∨ qkv.kvDim ≠ qkv.heads * nope ∨ qkv.qDim ≠ qkv.heads * (nope + rope))
    .invalidArgument (pfx ++ " MLA expand produced q_dim=" ++ toText qkv.qDim ++ " k_dim=" ++ toText qkv.kvDim ++
      "; cannot assemble nope+rope K (check qk_nope/qk_rope metadata)")
  let kPe ← emit (pfx ++ "k_pe") [1, rope] (pfx ++ "k_pe_slice") "Slice" [kvc] (slice (m.latentDim pfx) (m.latentDim pfx + rope))
  let kPeR ← emit (pfx ++ "k_pe_rope") [1, rope] (pfx ++ "k_pe_rope") "RoPE" [kPe]
    [⟨"theta", .float (m.file.ropeTheta m.floats)⟩, ⟨"head_dim", .int rope⟩, ⟨"mode", .int m.file.ropeMode⟩]
  let kFull ← emit (pfx ++ "k_full") [1, qkv.qDim] (pfx ++ "mla_expand_k") "MLAExpandK" [qkv.k, kPeR]
    [⟨"num_heads", .int qkv.heads⟩, ⟨"nope_dim", .int nope⟩, ⟨"rope_dim", .int rope⟩]
  pure { qkv with k := kFull, kvDim := qkv.qDim, ropeHd := nope + rope, kAssembled := true }

/-- `layer_rope_hd` of latent attention. -/
def mlaRopeHd (qDim : Int) : Int :=
  if 0 < m.file.qkNopeHeadDim ∧ 0 < m.file.qkRopeHeadDim then m.file.qkNopeHeadDim + m.file.qkRopeHeadDim
  else if 0 < m.file.nHeads ∧ qDim.tmod m.file.nHeads = 0 then qDim.tdiv m.file.nHeads
  else if 0 < m.file.mlaRopeHeadDim m.dim then m.file.mlaRopeHeadDim m.dim
  else m.file.headDim m.dim

def mlaQkv (n1 : TensorId) : Build R LayerQkv := do
  let qDim := m.mlaQDim pfx w
  let kvDim := weightOutDim (m.info pfx "attn_k_b.weight")
  let vDim := weightOutDim (m.info pfx "attn_v_b.weight")
  refuseIf (qDim ≤ 0 ∨ kvDim ≤ 0 ∨ vDim ≤ 0) .invalidArgument (pfx ++ " MLA weight shapes invalid (q/k_b/v_b out dims)")
  let q ← m.mlaQ pfx w n1
  let (kvc, latent) ← m.mlaLatent pfx w n1
  let k ← tensor (pfx ++ "k") [1, kvDim]
  let v ← tensor (pfx ++ "v") [1, vDim]
  node (pfx ++ "k_b_mm") "MatMul" [latent, w.id "attn_k_b.weight"] [k] transposeB
  node (pfx ++ "v_b_mm") "MatMul" [latent, w.id "attn_v_b.weight"] [v] transposeB
  let qkv : LayerQkv := ⟨q, k, v, qDim, kvDim, m.file.nHeads, m.file.nHeads, m.mlaRopeHd qDim, vDim, false⟩
  if qDim ≠ kvDim then m.mlaAssemble pfx kvc qkv else pure qkv

/-! ## Dense attention -/

def denseQkv (q k v : TensorId) : LayerQkv :=
  ⟨q, k, v, m.file.qDim m.dim, m.file.kvDim m.dim, m.file.nHeads, m.file.nKvHeads, m.file.headDim m.dim, m.file.qDim m.dim, false⟩

def maybeAdd (name : String) (dim : Int) (x bias : TensorId) : Build R TensorId :=
  if bias = 0 then pure x else emit (pfx ++ name) [1, dim] (pfx ++ name ++ "_bias") "Add" [x, bias] []

def fusedQkv (n1 : TensorId) : Build R LayerQkv := do
  let qDim := m.file.qDim m.dim
  let kvDim := m.file.kvDim m.dim
  let total := qDim + kvDim + kvDim
  let proj ← emit (pfx ++ "qkv_proj") [1, total] (pfx ++ "qkv_mm") "MatMul" [n1, w.id "attn_qkv.weight"] transposeB
  let qkv ← maybeAdd pfx "qkv" total proj (w.id "attn_qkv.bias")
  let q ← tensor (pfx ++ "q") [1, qDim]
  let k ← tensor (pfx ++ "k") [1, kvDim]
  let v ← tensor (pfx ++ "v") [1, kvDim]
  node (pfx ++ "q_slice") "Slice" [qkv] [q] (slice 0 qDim)
  node (pfx ++ "k_slice") "Slice" [qkv] [k] (slice qDim (qDim + kvDim))
  node (pfx ++ "v_slice") "Slice" [qkv] [v] (slice (qDim + kvDim) total)
  pure (m.denseQkv q k v)

def splitQkv (n1 : TensorId) : Build R LayerQkv := do
  let qDim := m.file.qDim m.dim
  let kvDim := m.file.kvDim m.dim
  let qProj ← tensor (pfx ++ "q_proj") [1, qDim]
  let kProj ← tensor (pfx ++ "k_proj") [1, kvDim]
  let vProj ← tensor (pfx ++ "v_proj") [1, kvDim]
  node (pfx ++ "q_mm") "MatMul" [n1, w.id "attn_q.weight"] [qProj] transposeB
  node (pfx ++ "k_mm") "MatMul" [n1, w.id "attn_k.weight"] [kProj] transposeB
  node (pfx ++ "v_mm") "MatMul" [n1, w.id "attn_v.weight"] [vProj] transposeB
  let q ← maybeAdd pfx "q" qDim qProj (w.id "attn_q.bias")
  let k ← maybeAdd pfx "k" kvDim kProj (w.id "attn_k.bias")
  let v ← maybeAdd pfx "v" kvDim vProj (w.id "attn_v.bias")
  pure (m.denseQkv q k v)

/-! ## From the projections to the residual -/

def headNorm (name rest : String) (dim : Int) (x : TensorId) : Build R TensorId :=
  if w.id rest = 0 then pure x
  else emit (pfx ++ name ++ "_n") [1, dim] (pfx ++ name ++ "_norm") "RMSNorm" [x, w.id rest] m.rmsAttrs

def ropeAttrs (ropeHd : Int) : List (Attribute R) :=
  [⟨"theta", .float (m.file.ropeTheta m.floats)⟩, ⟨"head_dim", .int ropeHd⟩, ⟨"mode", .int m.file.ropeMode⟩] ++
    (if m.isMla pfx w ∧ 0 < m.file.qkRopeHeadDim ∧ m.file.qkRopeHeadDim < ropeHd then [⟨"rotary_dim", .int m.file.qkRopeHeadDim⟩]
      else []) ++ m.file.ropeScaleAttrs m.floats

def attnAttrs (heads kvHeads : Int) : List (Attribute R) :=
  [⟨"num_heads", .int heads⟩, ⟨"kv_heads", .int kvHeads⟩, ⟨"causal", .bool true⟩, ⟨"use_kv_cache", .bool true⟩,
    ⟨"layer_id", .int li⟩] ++
    (if 0 < m.file.attnSoftcap m.floats then [⟨"logit_softcap", .float (m.file.attnSoftcap m.floats)⟩] else []) ++
    (if 0 < m.file.sliding then [⟨"sliding_window", .int m.file.sliding⟩] else [])

/-- From the features to `resid1`. -/
def attention (features : TensorId) : Build R TensorId := do
  let n1 ← tensor (pfx ++ "n1") [1, m.dim]
  m.addNorm (pfx ++ "ln1") (pfx ++ "rms1") features (w.id "attn_norm.weight") (w.id "attn_norm.bias") n1
  let qkv ← (if m.isMla pfx w then m.mlaQkv pfx w n1
    else if w.id "attn_qkv.weight" ≠ 0 then m.fusedQkv pfx w n1
    else m.splitQkv pfx w n1)
  let q ← m.headNorm pfx w "q" "attn_q_norm.weight" qkv.qDim qkv.q
  let k ← m.headNorm pfx w "k" "attn_k_norm.weight" qkv.kvDim qkv.k
  let qRope ← tensor (pfx ++ "q_rope") [1, qkv.qDim]
  let kRope ← tensor (pfx ++ "k_rope") [1, qkv.kvDim]
  node (pfx ++ "q_rope") "RoPE" [q] [qRope] (m.ropeAttrs pfx w qkv.ropeHd)
  node (pfx ++ "k_rope") (if qkv.kAssembled then "Identity" else "RoPE") [k] [kRope]
    (if qkv.kAssembled then [] else m.ropeAttrs pfx w qkv.ropeHd)
  let attn ← emit (pfx ++ "attn") [1, qkv.attnOut] (pfx ++ "attn") "Attention" [qRope, kRope, qkv.v] (m.attnAttrs li qkv.heads qkv.kvHeads)
  let attnO ← emit (pfx ++ "attn_o") [1, m.dim] (pfx ++ "o_proj") "MatMul" [attn, w.id "attn_output.weight"] transposeB
  emit (pfx ++ "resid1") [1, m.dim] (pfx ++ "add1") "Add" [features, attnO] []

/-! ## The feed-forward block -/

/-- `inter_dim_from_up`. -/
def interDimFromUp (upInfo : Option GgufTensorInfo) : Int :=
  match upInfo.map fun t => dimsToShape t.dims with
  | some [rows, cols] => if rows = m.dim then cols else rows
  | some [_, inter, _] => inter
  | _ => m.dim * 4

/-- A slice of a bank. -/
def expertWeight (e : Nat) (name : String) (bank : GgufTensorInfo) : Build R TensorId :=
  weight (pfx ++ "exp." ++ toText e ++ "." ++ name) .f32 ((dimsToShape bank.dims).drop 1) (m.ref bank.name ++ "#e=" ++ toText e)
    (ggufTypeToQuant bank.type)

/-- The weights of the experts from `e` on. -/
def experts (gate up down : GgufTensorInfo) : Nat → Nat → Build R (List TensorId)
  | 0, _ => pure []
  | remaining + 1, e => do
    let ge ← m.expertWeight pfx e "ffn_gate.weight" gate
    let ue ← m.expertWeight pfx e "ffn_up.weight" up
    let de ← m.expertWeight pfx e "ffn_down.weight" down
    let moeIns ← experts gate up down remaining (e + 1)
    pure (ge :: ue :: de :: moeIns)

/-- `n_experts` and `top_k`. -/
def expertCounts (gateShape : List Int) : Int × Int :=
  let nExperts := if m.file.nExpertsMeta ≤ 0 ∧ gateShape ≠ [] then gateShape.getD 0 0 else m.file.nExpertsMeta
  let topK := m.file.kvI64Arch "expert_used_count" 2
  (nExperts, min (if topK ≤ 0 then 2 else topK) nExperts)

def sharedExpert (mlpIn ffOut : TensorId) : Build R TensorId :=
  if w.id "ffn_gate_shexp.weight" = 0 ∨ w.id "ffn_up_shexp.weight" = 0 ∨ w.id "ffn_down_shexp.weight" = 0 then pure ffOut
  else do
    let inter := m.interDimFromUp (m.info pfx "ffn_up_shexp.weight")
    let sg ← tensor (pfx ++ "shexp_gate") [1, inter]
    let su ← tensor (pfx ++ "shexp_up") [1, inter]
    node (pfx ++ "shexp_gate_mm") "MatMul" [mlpIn, w.id "ffn_gate_shexp.weight"] [sg] transposeB
    node (pfx ++ "shexp_up_mm") "MatMul" [mlpIn, w.id "ffn_up_shexp.weight"] [su] transposeB
    let sga ← emit (pfx ++ "shexp_gate_act") [1, inter] (pfx ++ "shexp_silu") "Silu" [sg] []
    let shid ← emit (pfx ++ "shexp_hid") [1, inter] (pfx ++ "shexp_mul") "Mul" [sga, su] []
    let sout ← emit (pfx ++ "shexp_out") [1, m.dim] (pfx ++ "shexp_down") "MatMul" [shid, w.id "ffn_down_shexp.weight"] transposeB
    emit (pfx ++ "ff_merged") [1, m.dim] (pfx ++ "ff_add_shexp") "Add" [ffOut, sout] []

def moe (mlpIn resid1 : TensorId) (gate up down : GgufTensorInfo) : Build R TensorId := do
  let (nExperts, topK) := m.expertCounts (dimsToShape gate.dims)
  let attrs : List (Attribute R) := [⟨"num_experts", .int nExperts⟩, ⟨"top_k", .int topK⟩]
  refuseIf (nExperts ≤ 0) .invalidArgument ("MoE layer " ++ pfx ++ " missing expert_count / expert dims")
  refuseIf (∃ t ∈ [gate, up, down], t.dims.length ≠ 3 ∨ (dimsToShape t.dims).getD 0 0 ≠ nExperts) .invalidArgument
    (pfx ++ " packed expert banks must be rank-3 [E,...]")
  let probs ← tensor (pfx ++ "moe_probs") [1, nExperts]
  let top ← tensor (pfx ++ "moe_top") [1, 1]
  node (pfx ++ "moe_router") "MoERouter" [mlpIn, w.id "ffn_gate_inp.weight"] [probs, top] attrs
  let ids ← m.experts pfx gate up down nExperts.toNat 0
  let ffOut ← emit (pfx ++ "ff_out") [1, m.dim] (pfx ++ "moe_exps") "MoEExpertsSwiGLU" (mlpIn :: probs :: ids) attrs
  let ffOut ← m.sharedExpert pfx w mlpIn ffOut
  emit (pfx ++ "resid2") [1, m.dim] (pfx ++ "add2") "Add" [resid1, ffOut] []

def swiGlu (mlpIn resid1 : TensorId) : Build R TensorId := do
  let inter := m.interDimFromUp (m.info pfx "ffn_up.weight")
  let gate ← tensor (pfx ++ "gate") [1, inter]
  let up ← tensor (pfx ++ "up") [1, inter]
  node (pfx ++ "ffn_gate") "MatMul" [mlpIn, w.id "ffn_gate.weight"] [gate] transposeB
  node (pfx ++ "ffn_up") "MatMul" [mlpIn, w.id "ffn_up.weight"] [up] transposeB
  let gateAct ← emit (pfx ++ "gate_act") [1, inter] (pfx ++ "silu") (if m.file.arch ∈ ["gemma", "gemma2", "gemma3"] then "Gelu" else "Silu")
    [gate] []
  let ffHid ← emit (pfx ++ "ff_hid") [1, inter] (pfx ++ "ff_mul") "Mul" [gateAct, up] []
  let ffOut ← emit (pfx ++ "ff_out") [1, m.dim] (pfx ++ "ffn_down") "MatMul" [ffHid, w.id "ffn_down.weight"] transposeB
  emit (pfx ++ "resid2") [1, m.dim] (pfx ++ "add2") "Add" [resid1, ffOut] []

/-- A block without a gate. -/
def dense (mlpIn resid1 : TensorId) : Build R TensorId := do
  let inter := m.interDimFromUp (m.info pfx "ffn_up.weight")
  let up ← emit (pfx ++ "up") [1, inter] (pfx ++ "ffn_up") "MatMul" [mlpIn, w.id "ffn_up.weight"] transposeB
  let upAct ← emit (pfx ++ "up_act") [1, inter] (pfx ++ "gelu") "Gelu" [up] []
  let ffOut ← emit (pfx ++ "ff_out") [1, m.dim] (pfx ++ "ffn_down") "MatMul" [upAct, w.id "ffn_down.weight"] transposeB
  emit (pfx ++ "resid2") [1, m.dim] (pfx ++ "add2") "Add" [resid1, ffOut] []

/-- From `resid1` to the features of the next layer. -/
def mlp (resid1 : TensorId) : Build R TensorId := do
  let mlpIn ← (if w.id "ffn_norm.weight" = 0 then pure resid1
    else do
      let n2 ← tensor (pfx ++ "n2") [1, m.dim]
      m.addNorm (pfx ++ "ln2") (pfx ++ "rms2") resid1 (w.id "ffn_norm.weight") (w.id "ffn_norm.bias") n2
      pure n2)
  match (if w.id "ffn_gate_inp.weight" = 0 then none else m.info pfx "ffn_gate_exps.weight"), m.info pfx "ffn_up_exps.weight",
    m.info pfx "ffn_down_exps.weight" with
  | some gate, some up, some down => m.moe pfx w mlpIn resid1 gate up down
  | _, _, _ =>
    if w.id "ffn_up.weight" = 0 ∨ w.id "ffn_down.weight" = 0 then pure resid1
    else if w.id "ffn_gate.weight" ≠ 0 then m.swiGlu pfx w mlpIn resid1
    else m.dense pfx w mlpIn resid1

/-! ## The layers -/

/-- Some tensor of latent attention. -/
def mlaTensors : Prop :=
  m.hasKvA pfx ∨ ∃ rest ∈ ["attn_k_b.weight", "attn_v_b.weight", "attn_q_a.weight", "attn_q_b.weight"], w.id rest ≠ 0

instance : Decidable (m.mlaTensors pfx w) := inferInstanceAs (Decidable (_ ∨ _))

end Layer

/-- One pass of the loop: the features and `is_mla`, none when it breaks off. -/
def layer (li : Nat) (features : TensorId) : Build R (Option (TensorId × Bool)) := do
  let pfx := "blk." ++ toText li ++ "."
  let w ← m.layerWeights pfx
  if w.id "attn_norm.weight" = 0 ∨ w.id "attn_output.weight" = 0 then pure none
  else if m.mlaTensors pfx w then do
    refuseIf (¬ m.isMla pfx w ∨ w.kvA = 0) .invalidArgument
      (pfx ++ " incomplete MLA tensors (need attn_kv_a(_mqa)+attn_k_b+attn_v_b, and attn_q_a+attn_q_b or attn_q)")
    refuseIf (¬ (w.qLora ∨ w.id "attn_q.weight" ≠ 0)) .invalidArgument (pfx ++ " MLA incomplete: need attn_q_a+attn_q_b or attn_q")
    let resid1 ← m.attention li pfx w features
    let features ← m.mlp pfx w resid1
    pure (some (features, true))
  else if ¬ w.splitQkv ∧ w.id "attn_qkv.weight" = 0 then pure none
  else do
    let resid1 ← m.attention li pfx w features
    let features ← m.mlp pfx w resid1
    pure (some (features, false))

/-- The passes that are left, with `any_mla`. -/
def layers : Nat → Nat → TensorId → Bool → Build R (TensorId × Bool)
  | 0, _, features, anyMla => pure (features, anyMla)
  | remaining + 1, li, features, anyMla => do
    match ← m.layer li features with
    | none => pure (features, anyMla)
    | some (features, mla) => layers remaining (li + 1) features (anyMla || mla)

/-! ## The graph -/

def outNorm (features : TensorId) : Build R TensorId :=
  match m.file.norm with
  | none => pure features
  | some norm => do
    refuseIf (!ggufTypeSupported norm.type) .notImplemented (unsupported norm)
    let nw ← m.fileWeight norm
    let nb ← (match m.file.findTensor "output_norm.bias" with
      | some bias => if ggufTypeSupported bias.type then m.fileWeight bias else pure 0
      | none => pure 0)
    let nout ← tensor "normed" [1, m.dim]
    m.addNorm "ln_out" "rms_out" features nw nb nout
    pure nout

def ranksMetadata : List (String × String) :=
  [("expert_count", m.file.nExpertsMeta), ("expert_used_count", m.file.nExpertUsedMeta), ("q_lora_rank", m.file.qLoraRank),
    ("kv_lora_rank", m.file.kvLoraRank), ("qk_nope_head_dim", m.file.qkNopeHeadDim), ("qk_rope_head_dim", m.file.qkRopeHeadDim),
    ("value_length", m.file.valueLength)].filterMap fun e => if 0 < e.2 then some (e.1, toText e.2) else none

/-- `kv_dim` and `v_dim`. -/
def kvMetadata (anyMla : Bool) : List (String × String) :=
  if anyMla then
    let kDim := weightOutDim ((m.file.findTensor "blk.0.attn_q_b.weight").or (m.file.findTensor "blk.0.attn_q.weight"))
    let vDim := weightOutDim (m.file.findTensor "blk.0.attn_v_b.weight")
    [("kv_dim", toText (if 0 < kDim then kDim else m.file.kvDim m.dim))] ++ if 0 < vDim then [("v_dim", toText vDim)] else []
  else [("kv_dim", toText (m.file.kvDim m.dim))]

def endMetadata (floatText : R → String) (nLayers : Int) (anyMla : Bool) : List (String × String) :=
  (if m.file.arch = "" then [("architecture", if m.file.hasBlk0 then "transformer" else "tiny_lm")] else []) ++
    [("n_layers", toText nLayers), ("n_heads", toText m.file.nHeads),
      ("n_kv_heads", toText (if anyMla then m.file.nHeads else m.file.nKvHeads)), ("head_dim", toText (m.file.headDim m.dim)),
      ("q_dim", toText (m.file.qDim m.dim))] ++ m.kvMetadata anyMla ++
    [("rope_theta", floatText (m.file.ropeTheta m.floats)), ("rope_mode", toText m.file.ropeMode),
      ("chat_template", m.file.chatTemplate), ("norm_type", if m.file.useLayernorm then "layer" else "rms")] ++
    (if 0 < m.file.attnSoftcap m.floats then [("attn_logit_softcap", floatText (m.file.attnSoftcap m.floats))] else []) ++
    [("embedding_length", toText m.dim), ("rms_eps", floatText (m.file.rmsEps m.floats))] ++
    if 0 < m.file.kvI64Arch "context_length" 0 then
      [("max_context", toText (m.file.kvI64Arch "context_length" 0)), ("context_length", toText (m.file.kvI64Arch "context_length" 0))]
    else []

/-- A language model. -/
def model (floatText : R → String) (nLayers vocab : Int) (emb lm : GgufTensorInfo) : Build R Unit := do
  addMetadata m.ranksMetadata
  let tokens ← tensor "tokens" [1, 1]
  refuseIf (!ggufTypeSupported emb.type) .notImplemented (unsupported emb)
  let embW ← m.fileWeight emb
  let hidden ← emit "hidden" [1, m.dim] "embed" "Embedding" [tokens, embW] []
  let (features, anyMla) ← m.layers nLayers.toNat 0 hidden false
  addMetadata (if anyMla then [("mla", "1")] else [])
  let features ← m.outNorm features
  refuseIf (!ggufTypeSupported lm.type) .notImplemented (unsupported lm)
  let lmW ← (if m.file.tied then pure embW else m.fileWeight lm)
  let logits ← emit "logits" [1, vocab] "lm_head" "MatMul" [features, lmW] transposeB
  let probs ← emit "probs" [1, vocab] "softmax" "Softmax" [logits] [⟨"axis", .int (-1)⟩]
  io [tokens] [probs]
  addMetadata (m.endMetadata floatText nLayers anyMla)

end GgufImport

namespace GgufHeader

variable (file : GgufHeader)

/-- All tensors as weights, of a file that is no language model. -/
def allWeights (path : String) : List GgufTensorInfo → Build R Unit
  | [] => pure ()
  | t :: ts => do
    let dt := ggufToDtype t.type
    let _ ← weight t.name (if dt = .f16 ∨ dt = .unknown then .f32 else dt) (dimsToShape t.dims) (path ++ "#" ++ t.name) .f32
    allWeights path ts

def startMetadata : List (String × String) :=
  [("source_format", "gguf"), ("source_path", file.path)] ++ (if file.arch = "" then [] else [("architecture", file.arch)]) ++
    (if file.tied then [("tied_embeddings", "1")] else []) ++ (if file.looksLikeMoe then [("moe", "1")] else []) ++
    match file.kvAt "general.name" with
    | some (.string name) => [("model_name", name)]
    | _ => []

def build [Field R] [LinearOrder R] (floats : KvFloats R) (floatText : R → String) (cap : Int) : Build R Unit := do
  addMetadata file.startMetadata
  match file.emb, file.lm with
  | some emb, some lm => do
    let dim := (dimsToShape emb.dims).getD 1 1
    let vocab ← (match dimsToShape lm.dims, dimsToShape emb.dims with
      | v :: _, _ => pure v
      | [], v :: _ => pure v
      | [], [] => throw (.undefined "dims[0] of no dimensions"))
    (GgufImport.mk file floats dim).model floatText (file.nLayers cap) vocab emb lm
  | _, _ => identityGraph (allWeights file.path file.tensors)

def graphName : String :=
  if file.emb.isSome ∧ file.lm.isSome then if file.hasBlk0 then "gguf_transformer" else "gguf_tiny_lm" else "gguf_weights"

end GgufHeader

/-- `GgufLoader::load`. -/
def ggufLoad [Field R] [LinearOrder R] (floats : KvFloats R) (floatText : R → String) (cap : Int) (fs : FileSystem) (path : String) :
    Result (Graph R) := do
  let file ← ggufReadHeader fs path
  file.validate
  let (_, b) ← (file.build floats floatText cap).run ((GraphBuilder.init file.graphName).setProducer "uaii-gguf-loader")
  .ok b.build

end Uaii.Loaders
