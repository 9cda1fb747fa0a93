/-
  Uaii.Loaders.WellFormed — when the graph that a loader returns is well formed.

  Proved, for every file and every directory that is loaded: the ids, the producers and
  the order are right and the Attention nodes are the layers counted, exactly when every
  layer has the tensors that its part of the graph needs (`loaded_well_formed`).

  As built, the GGUF and the safetensors loader leave the loop at a layer without a norm or
  a projection and count it all the same; only the Hugging Face loader refuses such a
  layer. Its block without a gate is the one part of it that reads what is not there.
-/

import Uaii.Loaders.GgufGraphs
import Uaii.Loaders.GgufRoundTrip
import Uaii.Loaders.HfGraphs

namespace Uaii.Loaders

open Uaii.Ir
open Codec (ByteText)
open Uaii.Runtime (metaI64)

/-- A loader and what it is given. -/
inductive ModelSource (R : Type) where
  | gguf (floats : KvFloats R) (floatText : R → String) (cap : Int) (fs : FileSystem) (path : String)
  | safetensors (order : MapOrder) (fs : FileSystem) (path : String)
  | directory (dir : HfDirectory R) (floatText : R → String) (cap : Int)

structure WellFormed {R : Type} (g : Graph R) : Prop where
  built : WellBuilt g
  layers : LayersMatch g

namespace ModelSource

variable {R : Type} [Field R] [LinearOrder R]

def load : ModelSource R → Result (Graph R)
  | gguf floats floatText cap fs path => ggufLoad floats floatText cap fs path
  | safetensors order fs path => safetensorsLoad order fs path
  | directory dir floatText cap => dir.load floatText cap

/-- The layers that are counted have the tensors that their nodes read. -/
def Complete : ModelSource R → Prop
  | gguf _ _ cap fs path => ∀ file, ggufReadHeader fs path = .ok file → file.Layered cap
  | safetensors order fs path => ∀ file, safetensorsReadHeader order fs path = .ok file → file.Layered order
  | directory dir _ cap => ∀ L, dir.checkedLayout = .ok L →
      ∀ li : Nat, (li : Int) < applyLayerCap cap dir.config.numHiddenLayers → dir.MlpComplete L li

/-- What is loaded is well formed exactly when no layer lacks a tensor. -/
theorem loaded_well_formed {s : ModelSource R} {g : Graph R} (h : s.load = .ok g) : WellFormed g ↔ s.Complete := by
  cases s with
  | gguf floats floatText cap fs path =>
    obtain ⟨file, hfile, hbuilt, hlayers⟩ := ggufLoad_built h
    constructor
    · intro hg file' hfile'
      obtain rfl := Except.ok.inj (hfile.symm.trans hfile')
      exact hlayers.mp hg.layers
    · intro hall
      exact ⟨hbuilt, hlayers.mpr (hall file hfile)⟩
  | safetensors order fs path =>
    obtain ⟨file, hfile, hbuilt, hlayers⟩ := safetensorsLoad_built h
    constructor
    · intro hg file' hfile'
      obtain rfl := Except.ok.inj (hfile.symm.trans hfile')
      exact hlayers.mp hg.layers
    · intro hall
      exact ⟨hbuilt, hlayers.mpr (hall file hfile)⟩
  | directory dir floatText cap =>
    obtain ⟨L, hL, hlayers, hbuilt⟩ := HfDirectory.load_built h
    constructor
    · intro hg L' hL'
      obtain rfl := Except.ok.inj (hL.symm.trans hL')
      exact hbuilt.mp hg.built
    · intro hall
      exact ⟨hbuilt.mpr (hall L hL), hlayers⟩

end ModelSource

/-! ## A file of one layer -/

section OneLayer

def archKv (arch : String) : List (String × GgufValue) :=
  [("general.architecture", .string arch), (arch ++ ".block_count", .uint32 1)]

/-- An embedding, and the tensors of the layer. -/
def layerTensors (rests : List String) : List GgufTensorData :=
  ⟨"token_embd.weight", [1, 2], [0, 0]⟩ :: rests.map fun rest => ⟨"blk.0." ++ rest, [1, 1], [0]⟩

def layerFile (arch : String) (rests : List String) : ModelSource ℚ :=
  .gguf ⟨fun _ => 0, fun _ => 0⟩ (fun _ => "") 0 (fun _ => some (ggufWriteF32 (archKv arch) (layerTensors rests))) "m.gguf"

def layerHeader (arch : String) (rests : List String) : GgufHeader := headerBack (archKv arch) (layerTensors rests) "m.gguf"

def buildsUp (file : GgufHeader) : Bool :=
  (file.validate.isOk && ((file.build (R := ℚ) ⟨fun _ => 0, fun _ => 0⟩ (fun _ => "") 0).run
    ((GraphBuilder.init file.graphName).setProducer "uaii-gguf-loader")).isOk)

def llamaNames : List String :=
  ["attn_norm.weight", "attn_q.weight", "attn_k.weight", "attn_v.weight", "attn_output.weight", "ffn_norm.weight", "ffn_gate.weight",
    "ffn_up.weight", "ffn_down.weight"]

/-- Norms come after the attention and the feed-forward block. -/
def olmo2Names : List String :=
  ["attn_q.weight", "attn_k.weight", "attn_v.weight", "attn_q_norm.weight", "attn_k_norm.weight", "attn_output.weight",
    "post_attention_norm.weight", "ffn_gate.weight", "ffn_up.weight", "ffn_down.weight", "post_ffw_norm.weight"]

theorem layerFile_read {arch : String} {rests : List String} (h : GgufWritable (archKv arch) (layerTensors rests)) :
    ggufReadHeader (fun _ => some (ggufWriteF32 (archKv arch) (layerTensors rests))) "m.gguf" = .ok (layerHeader arch rests) := by
  refine header_read h (fun t ht => ?_) rfl
  rcases List.mem_cons.mp ht with rfl | ht
  · decide
  · obtain ⟨rest, -, rfl⟩ := List.mem_map.mp ht
    show 2 < 2 ^ 32
    decide

theorem layerFile_load {arch : String} {rests : List String} (h : GgufWritable (archKv arch) (layerTensors rests))
    (hup : buildsUp (layerHeader arch rests) = true) : ∃ g, (layerFile arch rests).load = .ok g := by
  obtain ⟨hvalid, hbuild⟩ := Bool.and_eq_true_iff.mp hup
  show ∃ g, ggufLoad _ _ _ _ _ = .ok g
  unfold ggufLoad
  rw [layerFile_read h]
  cases hv : (layerHeader arch rests).validate with
  | error e =>
    rw [hv] at hvalid
    cases hvalid
  | ok v =>
    cases hb : ((layerHeader arch rests).build (R := ℚ) ⟨fun _ => 0, fun _ => 0⟩ (fun _ => "") 0).run
        ((GraphBuilder.init (layerHeader arch rests).graphName).setProducer "uaii-gguf-loader") with
    | error e =>
      rw [hb] at hbuild
      cases hbuild
    | ok r =>
      refine ⟨r.2.build, ?_⟩
      show (Except.bind (Except.ok (layerHeader arch rests)) _) = _
      simp only [Except.bind, bind, hv, hb]

theorem layerFile_writable {arch : String} {rests : List String} (hkeys : ((archKv arch).map (·.1)).Nodup)
    (harch : ByteText arch.toList ∧ ByteText (arch ++ ".block_count").toList)
    (hrests : ∀ rest ∈ rests, ByteText ("blk.0." ++ rest).toList)
    (hsize : (ggufWriteF32 (archKv arch) (layerTensors rests)).length < 2 ^ 61) :
    GgufWritable (archKv arch) (layerTensors rests) := by
  refine ⟨hkeys, ?_, ?_, ?_, ?_, hsize⟩
  · exact List.forall_mem_cons.mpr ⟨⟨show ByteText "general.architecture".toList by decide, harch.1⟩, List.forall_mem_cons.mpr ⟨⟨harch.2, trivial⟩, by simp⟩⟩
  · intro t ht
    rcases List.mem_cons.mp ht with rfl | ht
    · exact show ByteText "token_embd.weight".toList by decide
    · obtain ⟨rest, hrest, rfl⟩ := List.mem_map.mp ht
      exact hrests rest hrest
  · intro t ht
    rcases List.mem_cons.mp ht with rfl | ht
    · decide
    · obtain ⟨rest, -, rfl⟩ := List.mem_map.mp ht
      show ∀ d ∈ [1, 1], d < 2 ^ 64
      decide
  · intro t ht
    rcases List.mem_cons.mp ht with rfl | ht
    · decide
    · obtain ⟨rest, -, rfl⟩ := List.mem_map.mp ht
      rfl

theorem llama_writable : GgufWritable (archKv "llama") (layerTensors llamaNames) :=
  layerFile_writable (by decide) (by decide) (by decide) (by decide +kernel)

theorem olmo2_writable : GgufWritable (archKv "olmo2") (layerTensors olmo2Names) :=
  layerFile_writable (by decide) (by decide) (by decide) (by decide +kernel)

theorem llama_well_formed : ∃ g, (layerFile "llama" llamaNames).load = .ok g ∧ WellFormed g := by
  obtain ⟨g, hload⟩ := layerFile_load llama_writable (by decide +kernel)
  refine ⟨g, hload, (ModelSource.loaded_well_formed hload).mpr ?_⟩
  intro file hfile
  obtain rfl := Except.ok.inj ((layerFile_read llama_writable).symm.trans hfile)
  intro _ _ li hli
  have hcount : (layerHeader "llama" llamaNames).nLayers 0 = 1 := by decide +kernel
  obtain rfl : li = 0 := by omega
  decide +kernel

/-- A layer without a norm before its attention is counted and left out. -/
theorem olmo2_layer_dropped : ∃ g, (layerFile "olmo2" olmo2Names).load = .ok g ∧ ¬ WellFormed g := by
  obtain ⟨g, hload⟩ := layerFile_load olmo2_writable (by decide +kernel)
  obtain ⟨file, hfile, -, hlayers⟩ := ggufLoad_built hload
  obtain rfl := Except.ok.inj ((layerFile_read olmo2_writable).symm.trans hfile)
  refine ⟨g, hload, fun hg => ?_⟩
  have hcomplete := hlayers.mp hg.layers (by decide +kernel) (by decide +kernel) 0 (by decide +kernel)
  revert hcomplete
  decide +kernel

end OneLayer

end Uaii.Loaders
