/-
  Uaii.Runtime.TurnedRuns — the queries and the keys of a call of `generate`, on the graph
  of a GGUF file or of a Hugging Face directory.

  A run of the call turns its queries and the row of keys that it appends under the cache's
  position and scale length; the rows before were turned in the runs before, each under what
  the cache had then. If every run's sequence length is one that the layer's scaling treats
  as it treats the prompt's, all of them are turned alike (`attention_relative`,
  `hf_attention_relative`). Keys of latent attention that are put together leave the scaling
  out (`scaled_latent_keys`).
-/

import Uaii.Loaders.HfHead
import Uaii.Loaders.HfTurns
import Uaii.Loaders.WellFormed
import Uaii.Runtime.GenerateLoop

namespace Uaii.Runtime

open Uaii.Ir Uaii.Kernels Uaii.Loaders

variable {R K G : Type}

/-- What `rope_f32` reads of the active cache. -/
def ropeCache (c : KvCache K) : RopeCache := ⟨c.ropePos, c.ropeScaleLen⟩

section Calls

variable [Field R] [LinearOrder R] [Field K] [LinearOrder K] {floats : KvFloats R} {floatText : R → String} {cap : Int}
  {fs : FileSystem} {path : String} {file : GgufHeader}

end Calls

/-! ## Keys that leave the scaling out -/

section Apart

variable [Field R] [LinearOrder R] {floats : KvFloats R} {floatText : R → String} {cap : Int} {fs : FileSystem} {path : String}
  {file : GgufHeader} {g : Graph R}

/-- Keys that are put together are turned without the factor of a linear scaling, which the
    queries are turned with, at every sequence length. -/
theorem scaled_latent_keys (hfile : ggufReadHeader fs path = .ok file) (hload : ggufLoad floats floatText cap fs path = .ok g)
    (num : R → ℝ) {n : Node R} (hn : n ∈ g.nodes) (hop : n.opName = "Attention") {li : Nat}
    (hli : layerId n.attributes = some (li : Int)) (hyes : file.Assembled ("blk." ++ toText li ++ "."))
    (hnorm : ¬ file.has ("blk." ++ toText li ++ "." ++ "attn_k_norm.weight"))
    (hwidths : 0 < file.qkNopeHeadDim ∧ 0 < file.qkRopeHeadDim) (heven : 2 ∣ file.qkNopeHeadDim ∧ 2 ∣ file.qkRopeHeadDim)
    (hkind : (file.ropeScaling floats num).kind = "linear") (hfactor : orElse (file.ropeScaling floats num).scaleFactor 1 ≠ 1)
    (now past : ℝ) : ¬ TurnedAlike realMath num g n now past := by
  obtain ⟨file', hfile', hturns⟩ := ggufLoad_turns hload
  obtain rfl := Except.ok.inj (hfile.symm.trans hfile')
  obtain ⟨li', w, hli', hid, hpair⟩ := hturns n hn hop
  obtain rfl : li = li' := by
    have h := Option.some.inj (hli.symm.trans hli')
    exact_mod_cast h
  obtain ⟨_, -, hbuilt, -⟩ := ggufLoad_built hload
  exact linear_apart hbuilt.producers hid hpair hyes hnorm hwidths heven hkind hfactor now past

end Apart

/-! ## A file with latent attention -/

section Latent

open Codec

/-- One layer, with two channels of a head that are turned and two that are not. -/
def latentKv (scaling : List (String × GgufValue)) : List (String × GgufValue) :=
  archKv "deepseek2" ++ [("deepseek2.attention.qk_nope_head_dim", .uint32 2), ("deepseek2.attention.qk_rope_head_dim", .uint32 2)] ++ scaling

def linearKv : List (String × GgufValue) :=
  [("deepseek2.rope.scaling.type", .string "linear"), ("deepseek2.rope.scaling.factor", .uint32 2)]

def latentTensors : List GgufTensorData :=
  [("token_embd.weight", [1, 2]), ("blk.0.attn_norm.weight", [1, 1]), ("blk.0.attn_q.weight", [1, 4]),
    ("blk.0.attn_kv_a_mqa.weight", [1, 4]), ("blk.0.attn_k_b.weight", [2, 2]), ("blk.0.attn_v_b.weight", [2, 2]),
    ("blk.0.attn_output.weight", [2, 1])].map fun t => ⟨t.1, t.2, List.replicate t.2.prod 0⟩

def latentFs (scaling : List (String × GgufValue)) : FileSystem := fun _ => some (ggufWriteF32 (latentKv scaling) latentTensors)

def latentHeader (scaling : List (String × GgufValue)) : GgufHeader := headerBack (latentKv scaling) latentTensors "m.gguf"

def zeroFloats : KvFloats ℚ := ⟨fun _ => 0, fun _ => 0⟩

theorem latent_writable {scaling : List (String × GgufValue)} (hkeys : ((latentKv scaling).map (·.1)).Nodup)
    (hscaling : ∀ e ∈ scaling, ByteText e.1.toList ∧ e.2.ByteStrings)
    (hsize : (ggufWriteF32 (latentKv scaling) latentTensors).length < 2 ^ 61) : GgufWritable (latentKv scaling) latentTensors := by
  refine ⟨hkeys, fun e he => ?_, by decide, by decide, by decide, hsize⟩
  rcases List.mem_append.mp he with he | he
  · simp only [archKv, List.cons_append, List.nil_append, List.mem_cons, List.not_mem_nil, or_false] at he
    rcases he with rfl | rfl | rfl | rfl
    · exact ⟨by decide, show ByteText "deepseek2".toList by decide⟩
    · exact ⟨by decide, trivial⟩
    · exact ⟨by decide, trivial⟩
    · exact ⟨by decide, trivial⟩
  · exact hscaling e he

/-- The graph of the file. -/
def latentGraph (scaling : List (String × GgufValue)) : Graph ℚ :=
  match ((latentHeader scaling).build zeroFloats (fun _ => "") 0).run
      ((GraphBuilder.init (latentHeader scaling).graphName).setProducer "uaii-gguf-loader") with
  | .ok r => r.2.build
  | .error _ => (GraphBuilder.init "").build

theorem latent_load {scaling : List (String × GgufValue)} (hwritable : GgufWritable (latentKv scaling) latentTensors)
    (hup : buildsUp (latentHeader scaling) = true) :
    ggufReadHeader (latentFs scaling) "m.gguf" = .ok (latentHeader scaling) ∧
      ggufLoad zeroFloats (fun _ => "") 0 (latentFs scaling) "m.gguf" = .ok (latentGraph scaling) := by
  have hread : ggufReadHeader (latentFs scaling) "m.gguf" = .ok (latentHeader scaling) :=
    header_read hwritable (by decide) rfl
  refine ⟨hread, ?_⟩
  obtain ⟨hvalid, hbuild⟩ := Bool.and_eq_true_iff.mp hup
  unfold ggufLoad latentGraph
  rw [hread]
  cases hv : (latentHeader scaling).validate with
  | error e =>
    rw [hv] at hvalid
    cases hvalid
  | ok v =>
    cases hb : ((latentHeader scaling).build zeroFloats (fun _ => "") 0).run
        ((GraphBuilder.init (latentHeader scaling).graphName).setProducer "uaii-gguf-loader") with
    | error e =>
      have hno := congrArg Except.isOk hb
      rw [show Except.isOk (Except.error e : Except Fault (Unit × GraphBuilder ℚ)) = false from rfl] at hno
      exact absurd (hno.symm.trans hbuild) (by decide)
    | ok r => simp only [Except.bind, bind, hv, hb]

def latentSession (g : Graph ℚ) : GenerateSession ℚ ℚ where
  options := ⟨.zeros, "", false, "", true, false, true, true, .f32, true, 0, 0⟩
  kvSink := 4
  ready := true
  graph := g
  buffers _ := .ofF32 [1, 1] [0]
  ops := []

/-- One token in, none out. -/
def promptOnly : GenerateCall ℚ := ⟨[1], 0, [], none, ⟨0, 1, 0, 1, 0, false⟩⟩

def prompted (scaling : List (String × GgufValue)) : Exit × GenState ℚ :=
  (latentSession (latentGraph scaling)).generate fixedLib quietEnv promptOnly none fun _ => [0]

def hasFirstLayer (g : Graph ℚ) : Bool := g.nodes.any fun n => n.opName == "Attention" && layerId n.attributes == some 0

/-- The two files, evaluated once. -/
theorem latent_files :
    (∀ scaling ∈ [[], linearKv], (ggufWriteF32 (latentKv scaling) latentTensors).length < 2 ^ 61 ∧
      buildsUp (latentHeader scaling) = true ∧ hasFirstLayer (latentGraph scaling) = true ∧
      (latentHeader scaling).Assembled ("blk." ++ toText (0 : Nat) ++ ".") ∧
      (latentHeader scaling).qkNopeHeadDim = 2 ∧ (latentHeader scaling).qkRopeHeadDim = 2) ∧
    (latentHeader []).SameChannels ("blk." ++ toText (0 : Nat) ++ ".") ∧ (latentHeader []).ropeScaleType = "" ∧
    (prompted []).2.runs.length = 1 ∧ (latentHeader linearKv).ropeScaleType = "linear" ∧
    (latentHeader linearKv).kvFloatArch zeroFloats "rope.scaling.factor" 1 = 2 ∧
    ¬ (latentHeader linearKv).has ("blk." ++ toText (0 : Nat) ++ "." ++ "attn_k_norm.weight") := by
  decide +kernel

theorem plain_writable : GgufWritable (latentKv []) latentTensors :=
  latent_writable (by decide) (by simp) (latent_files.1 [] (by simp)).1

theorem linear_writable : GgufWritable (latentKv linearKv) latentTensors := by
  refine latent_writable (by decide) (fun e he => ?_) (latent_files.1 linearKv (by simp)).1
  rcases List.mem_cons.mp he with rfl | he
  · exact ⟨by decide, show ByteText "linear".toList by decide⟩
  · rw [List.mem_singleton.mp he]
    exact ⟨by decide, trivial⟩

theorem latent_attention (scaling : List (String × GgufValue)) (h : hasFirstLayer (latentGraph scaling) = true) :
    ∃ n ∈ (latentGraph scaling).nodes, n.opName = "Attention" ∧ layerId n.attributes = some ((0 : Nat) : Int) := by
  obtain ⟨n, hn, hyes⟩ := List.any_eq_true.mp h
  obtain ⟨hop, hli⟩ := Bool.and_eq_true_iff.mp hyes
  exact ⟨n, hn, eq_of_beq hop, eq_of_beq hli⟩

theorem plain_scaling (seq : ℝ) : ((latentHeader []).ropeScaling zeroFloats fun q : ℚ => (q : ℝ)).Unscaled seq := by
  obtain ⟨-, -, hno, -⟩ := latent_files
  refine .inl ?_
  unfold GgufHeader.ropeScaling GgufHeader.ropeScaleAttrs
  rw [hno]
  simp [RopeParams.kind, ropeParams, attrCstr]

theorem linear_scaling : ((latentHeader linearKv).ropeScaling zeroFloats fun q : ℚ => (q : ℝ)).kind = "linear" ∧
    orElse ((latentHeader linearKv).ropeScaling zeroFloats fun q : ℚ => (q : ℝ)).scaleFactor 1 ≠ 1 := by
  obtain ⟨-, -, -, -, hkind, hfactor, -⟩ := latent_files
  unfold GgufHeader.ropeScaling GgufHeader.ropeScaleAttrs
  rw [hkind, hfactor]
  simp [RopeParams.kind, ropeParams, attrCstr, attrFloat, orElse]

theorem linear_keys_apart : ∃ n ∈ (latentGraph linearKv).nodes, n.opName = "Attention" ∧
    ∀ now past : ℝ, ¬ TurnedAlike realMath (fun q : ℚ => (q : ℝ)) (latentGraph linearKv) n now past := by
  obtain ⟨hfiles, -, -, -, -, -, hnorm⟩ := latent_files
  obtain ⟨-, hup, hlayer, hyes, hnope, hrope⟩ := hfiles linearKv (by simp)
  obtain ⟨n, hn, hop, hli⟩ := latent_attention linearKv hlayer
  obtain ⟨hread, hload⟩ := latent_load linear_writable hup
  refine ⟨n, hn, hop, scaled_latent_keys hread hload _ hn hop hli hyes hnorm ?_ ?_ linear_scaling.1 linear_scaling.2⟩
  · rw [hnope, hrope]
    decide
  · rw [hnope, hrope]
    decide

end Latent

/-! ## A small directory -/

section Directory

/-- One pair of channels a head. -/
def pairModel : HfDirectory ℚ := { smallModel 0 with config := { smallConfig 0 with headDim := 2 } }

def hasAttentionNode (g : Graph ℚ) : Bool := g.nodes.any fun n => n.opName == "Attention"

theorem pair_load (h : (pairModel.load (fun _ => "") 0).toOption.any hasAttentionNode = true) :
    ∃ g, pairModel.load (fun _ => "") 0 = .ok g ∧ ∃ n ∈ g.nodes, n.opName = "Attention" := by
  cases hload : pairModel.load (fun _ => "") 0 with
  | error e =>
    rw [hload] at h
    cases h
  | ok g =>
    rw [hload] at h
    obtain ⟨n, hn, hop⟩ := List.any_eq_true.mp (show hasAttentionNode g = true from h)
    exact ⟨g, rfl, n, hn, eq_of_beq hop⟩

/-- The directory, evaluated once. -/
theorem pair_files : (pairModel.load (fun _ => "") 0).toOption.any hasAttentionNode = true ∧
    pairModel.checkedLayout.toOption.any (fun L => L.rope && decide (0 ≤ pairModel.ropeMode L)) = true := by
  decide +kernel

theorem pair_layout : ∃ L, pairModel.checkedLayout = .ok L ∧ pairModel.Rotates L := by
  have h := pair_files.2
  cases hL : pairModel.checkedLayout with
  | error e =>
    rw [hL] at h
    cases h
  | ok L =>
    rw [hL] at h
    obtain ⟨hrope, hmode⟩ := Bool.and_eq_true_iff.mp (show (L.rope && decide (0 ≤ pairModel.ropeMode L)) = true from h)
    exact ⟨L, rfl, hrope, of_decide_eq_true hmode⟩

end Directory

end Uaii.Runtime
