/-
  Uaii.Loaders.UsedWeights — when a loader uses every parameter of the blocks that it counts.

  Proved, for every GGUF file and every Hugging Face directory that is loaded and whatever
  tensors are the parameters: a parameter is an input of some node exactly when the loop
  comes to its block and the branches taken there look for its name (`parameters_used`).

  As built, nobody looks for the bias of an output projection in a GGUF file
  (`output_bias_dropped`), for the biases of the feed-forward block in either format, or for
  a gate without its three banks; the blocks after the one that the loop leaves are dropped
  whole.
-/

import Uaii.Loaders.BlockNames
import Uaii.Loaders.GgufUses
import Uaii.Loaders.HfUses
import Uaii.Loaders.WellFormed

namespace Uaii.Loaders

open Uaii.Ir Uaii.Ir.Build
open Uaii.Runtime (metaI64)

/-- A tensor, or every slice of it, is an input of some node. -/
def Uses {R : Type} (g : Graph R) (name ref : String) (slices : Int) : Prop :=
  (name, ref) ∈ g.weightsRead ∨
    0 < slices ∧ ∀ e : Nat, (e : Int) < slices → ∃ l ∈ g.weightsRead, l.2 = ref ++ "#e=" ++ toText e

/-! ## A GGUF file -/

namespace GgufHeader

variable {file : GgufHeader} {pfx rest : String}

/-- The names whose tensors are read as they are. -/
def plainNames (file : GgufHeader) (pfx : String) : List String :=
  file.attentionNames pfx ++ file.ffnNormNames pfx ++
    if (file.banks pfx).isSome then "ffn_gate_inp.weight" :: file.sharedNames pfx else file.denseNames pfx

theorem mem_layerNames : rest ∈ file.layerNames pfx ↔ rest ∈ file.plainNames pfx ∨ (file.banks pfx).isSome ∧ rest ∈ bankNames := by
  unfold layerNames plainNames
  split
  · simp only [List.cons_append, List.mem_append, List.mem_cons, true_and, *]
    tauto
  · simp_all

def knownNames : List String :=
  ["attn_norm.weight", "attn_norm.bias", "attn_q_a.weight", "attn_q_a_norm.weight", "attn_q_b.weight", "attn_q.weight",
    "attn_kv_a_mqa.weight", "attn_kv_a.weight", "attn_kv_a_norm.weight", "attn_k_b.weight", "attn_v_b.weight", "attn_qkv.weight",
    "attn_qkv.bias", "attn_k.weight", "attn_v.weight", "attn_q.bias", "attn_k.bias", "attn_v.bias", "attn_q_norm.weight",
    "attn_k_norm.weight", "attn_output.weight", "ffn_norm.weight", "ffn_norm.bias", "ffn_gate_inp.weight", "ffn_gate_exps.weight",
    "ffn_up_exps.weight", "ffn_down_exps.weight", "ffn_gate_shexp.weight", "ffn_up_shexp.weight", "ffn_down_shexp.weight",
    "ffn_gate.weight", "ffn_up.weight", "ffn_down.weight"]

theorem layerNames_known : ∀ r ∈ file.layerNames pfx, r ∈ knownNames := by
  have hnorm : ∀ weight bias, (∀ r ∈ [weight, bias], r ∈ knownNames) → ∀ r ∈ file.normNames weight bias, r ∈ knownNames := by
    intro weight bias h r hr
    unfold normNames at hr
    split at hr <;> exact h r (by simpa using (by simp at hr; tauto))
  have hqkv : ∀ r ∈ file.qkvNames pfx, r ∈ knownNames := by
    unfold qkvNames mlaQNames kvAName
    split_ifs <;> decide
  intro r hr
  simp only [layerNames, attentionNames, ffnNormNames, List.mem_append] at hr
  rcases hr with (((hr | hr) | hr) | hr) | hr
  · exact hnorm _ _ (by decide) r hr
  · exact hqkv r hr
  · revert r
    decide
  · split at hr
    · exact hnorm _ _ (by decide) r hr
    · cases hr
  · revert r
    unfold sharedNames denseNames
    split_ifs <;> decide

theorem layerNames_letter (h : rest ∈ file.layerNames pfx) : EndsInLetter rest := by
  have hall : ∀ r ∈ knownNames, (r.toList.getLast?.map Char.isDigit) = some false := by decide
  obtain ⟨c, hlast, hc⟩ := Option.map_eq_some_iff.mp (hall rest (layerNames_known rest h))
  exact ⟨c, hlast, hc⟩

end GgufHeader

namespace GgufImport

variable {R : Type} {m : GgufImport R} {pfx rest name : String} {l : Label} {li : Nat}

theorem mem_opts {names : List String} : l ∈ names.flatMap (m.opt pfx) ↔
    ∃ rest ∈ names, m.file.there pfx rest ∧ l = (pfx ++ rest, m.ref (pfx ++ rest)) := by
  simp only [List.mem_flatMap, opt]
  refine exists_congr fun rest => and_congr_right fun _ => ?_
  split <;> simp [*]

theorem mem_layerLabels : l ∈ m.layerLabels li ↔
    (∃ rest ∈ m.file.plainNames ("blk." ++ toText li ++ "."), m.file.there ("blk." ++ toText li ++ ".") rest ∧
      l = ("blk." ++ toText li ++ "." ++ rest, m.ref ("blk." ++ toText li ++ "." ++ rest))) ∨
    ∃ gate up down, m.file.banks ("blk." ++ toText li ++ ".") = some (gate, up, down) ∧
      ∃ e : Nat, (e : Int) < (m.expertCounts (dimsToShape gate.dims)).1 ∧
        l ∈ m.sliceLabels ("blk." ++ toText li ++ ".") gate up down e := by
  rw [← mem_opts]
  unfold layerLabels mlpLabels GgufHeader.plainNames
  cases hbanks : m.file.banks ("blk." ++ toText li ++ ".") with
  | none => simp
  | some r =>
    obtain ⟨gate, up, down⟩ := r
    simp only [List.flatMap_append, List.flatMap_cons, List.mem_append, List.mem_flatMap, List.mem_range, Option.isSome_some, if_true,
      Option.some.injEq, Prod.mk.injEq, Int.lt_toNat]
    grind

/-- The bank that holds the slices of an expert. -/
theorem mem_sliceLabels {gate up down : GgufTensorInfo} {e : Nat} (hbanks : m.file.banks pfx = some (gate, up, down)) :
    (∀ l ∈ m.sliceLabels pfx gate up down e, ∃ rest ∈ GgufHeader.bankNames, l.2 = m.ref (pfx ++ rest) ++ "#e=" ++ toText e) ∧
      ∀ rest ∈ GgufHeader.bankNames, ∃ t ∈ [gate, up, down], m.file.findTensor (pfx ++ rest) = some t ∧
        ∃ l ∈ m.sliceLabels pfx gate up down e, l.2 = m.ref (pfx ++ rest) ++ "#e=" ++ toText e := by
  have hname : ∀ {name : String} {t : GgufTensorInfo}, m.file.findTensor name = some t → t.name = name :=
    fun h => by simpa using List.find?_some h
  unfold GgufHeader.banks at hbanks
  split at hbanks
  · next gate' up' down' hg hup hdown =>
    cases hbanks
    have hg' : m.file.findTensor (pfx ++ "ffn_gate_exps.weight") = some gate := by
      split at hg
      · exact hg
      · cases hg
    simp only [sliceLabels, sliceLabel, GgufHeader.bankNames, List.mem_cons, List.not_mem_nil, or_false, exists_eq_or_imp,
      exists_eq_left, hname hg', hname hup, hname hdown]
    simp [hg', hup, hdown]
  · cases hbanks

theorem ref_inj {r s : String} (h : m.ref r = m.ref s) : r = s := by
  have hlist : (m.file.path ++ "#").toList ++ r.toList = (m.file.path ++ "#").toList ++ s.toList := by
    simpa [ref] using congrArg String.toList h
  exact String.toList_injective (List.append_cancel_left hlist)

/-- A slice is no tensor. -/
theorem slice_ref_ne {r s : String} {e : Nat} (hs : EndsInLetter s) : m.ref r ++ "#e=" ++ toText e ≠ m.ref s := by
  intro h
  have hsame : m.ref (r ++ "#e=" ++ toText e) = m.ref s := by
    rw [← h]
    simp [ref, String.append_assoc]
  exact not_ends_digit hs (ref_inj hsame)

theorem outer_not_block (h : name ∈ outerNames) : name ≠ "blk." ++ toText (li : Int) ++ "." ++ rest := by
  rintro rfl
  have hall : ∀ s ∈ outerNames, s.toList.take 4 ≠ "blk.".toList := by decide
  refine hall _ h ?_
  simp

theorem outer_letter (h : name ∈ outerNames) : EndsInLetter name := by
  have hall : ∀ s ∈ outerNames, (s.toList.getLast?.map Char.isDigit) = some false := by decide
  obtain ⟨c, hlast, hc⟩ := Option.map_eq_some_iff.mp (hall name h)
  exact ⟨c, hlast, hc⟩

/-- The weights that are read are those of the layers before the `n`th and some from outside. -/
structure ReadsLayers (m : GgufImport R) (n : Nat) (read : List Label) : Prop where
  layers : ∀ j < n, ∀ l ∈ m.layerLabels j, l ∈ read
  only : ∀ l ∈ read, Outer m l ∨ ∃ j < n, l ∈ m.layerLabels j
  banked : ∀ j < n, m.Banked ("blk." ++ toText j ++ ".")

theorem ReadsLayers.of {read before after : List Label} {n : Nat} (hread : read = before ++ (List.range n).flatMap m.layerLabels ++ after)
    (houter : ∀ l ∈ before ++ after, Outer m l) (hbanked : ∀ j < n, m.Banked ("blk." ++ toText j ++ ".")) : ReadsLayers m n read := by
  subst hread
  refine ⟨fun j hj l hl => ?_, fun l hl => ?_, hbanked⟩
  · exact List.mem_append_left _ (List.mem_append_right _ (List.mem_flatMap.mpr ⟨j, List.mem_range.mpr hj, hl⟩))
  · rcases List.mem_append.mp hl with hl | hl
    · rcases List.mem_append.mp hl with hl | hl
      · exact .inl (houter l (List.mem_append_left _ hl))
      · obtain ⟨j, hj, hl⟩ := List.mem_flatMap.mp hl
        exact .inr ⟨j, List.mem_range.mp hj, hl⟩
    · exact .inl (houter l (List.mem_append_right _ hl))

/-- The names that a label of a layer tells. -/
theorem layerLabel_ref {j : Nat} (h : l ∈ m.layerLabels j) :
    (∃ r ∈ m.file.layerNames ("blk." ++ toText j ++ "."), l.2 = m.ref ("blk." ++ toText j ++ "." ++ r)) ∨
      ∃ r ∈ m.file.layerNames ("blk." ++ toText j ++ "."), ∃ e : Nat, l.2 = m.ref ("blk." ++ toText j ++ "." ++ r) ++ "#e=" ++ toText e := by
  rcases mem_layerLabels.mp h with ⟨r, hr, -, rfl⟩ | ⟨gate, up, down, hbanks, e, -, hl⟩
  · exact .inl ⟨r, GgufHeader.mem_layerNames.mpr (.inl hr), rfl⟩
  · obtain ⟨r, hr, href⟩ := (mem_sliceLabels hbanks).1 l hl
    exact .inr ⟨r, GgufHeader.mem_layerNames.mpr (.inr ⟨by simp [hbanks], hr⟩), e, href⟩

/-- A tensor of a block is used if the block is read and the tensor is one that a block reads. -/
theorem uses_iff {g : Graph R} {n : Nat} (hread : ReadsLayers m n g.weightsRead) (hrest : EndsInLetter rest) {t : GgufTensorInfo}
    (ht : m.file.findTensor ("blk." ++ toText li ++ "." ++ rest) = some t) :
    Uses g t.name (m.ref t.name) ((dimsToShape t.dims).getD 0 0) ↔ li < n ∧ rest ∈ m.file.layerNames ("blk." ++ toText li ++ ".") := by
  have hname : t.name = "blk." ++ toText li ++ "." ++ rest := by simpa using List.find?_some ht
  have hthere : m.file.there ("blk." ++ toText li ++ ".") rest := by simp [GgufHeader.there, GgufHeader.has, ht]
  have hletter : EndsInLetter t.name := hname ▸ hrest.append _
  rw [hname] at hletter ⊢
  constructor
  · rintro (hmem | ⟨hpos, hslices⟩)
    · rcases hread.only _ hmem with ⟨hout, -⟩ | ⟨j, hj, hl⟩
      · exact absurd rfl (outer_not_block hout)
      · rcases layerLabel_ref hl with ⟨r, hr, href⟩ | ⟨r, hr, e, href⟩
        · obtain ⟨rfl, rfl⟩ := block_name_inj (ref_inj href)
          exact ⟨hj, hr⟩
        · exact absurd href.symm (slice_ref_ne hletter)
    · obtain ⟨l, hl, href⟩ := hslices 0 hpos
      rcases hread.only l hl with ⟨hout, hplace⟩ | ⟨j, hj, hl⟩
      · exact absurd (href.symm.trans hplace) (slice_ref_ne (outer_letter hout))
      · rcases layerLabel_ref hl with ⟨r, hr, href'⟩ | ⟨r, hr, e, href'⟩
        · exact absurd (href.symm.trans href') (slice_ref_ne ((GgufHeader.layerNames_letter hr).append _))
        · obtain ⟨rfl, rfl⟩ := block_name_inj (ref_inj (slice_ref_inj (href.symm.trans href')))
          exact ⟨hj, hr⟩
  · rintro ⟨hli, hr⟩
    rcases GgufHeader.mem_layerNames.mp hr with hplain | ⟨hsome, hbank⟩
    · exact .inl (hread.layers li hli _ (mem_layerLabels.mpr (.inl ⟨rest, hplain, hthere, rfl⟩)))
    · obtain ⟨⟨gate, up, down⟩, hbanks⟩ := Option.isSome_iff_exists.mp hsome
      obtain ⟨hpos, hdims⟩ := hread.banked li hli gate up down hbanks
      obtain ⟨t', ht', hfind, -⟩ := (mem_sliceLabels (e := 0) hbanks).2 rest hbank
      obtain rfl := Option.some.inj (ht.symm.trans hfind)
      rw [hdims t ht']
      refine .inr ⟨hpos, fun e he => ?_⟩
      obtain ⟨-, -, -, l, hl, href⟩ := (mem_sliceLabels (e := e) hbanks).2 rest hbank
      exact ⟨l, hread.layers li hli l (mem_layerLabels.mpr (.inr ⟨gate, up, down, hbanks, e, he, hl⟩)), href⟩

end GgufImport

/-- The names that a block's parameters have. -/
def ParameterName (rest : String) : Prop := ∃ x, rest = x ++ ".weight" ∨ rest = x ++ ".bias"

theorem ParameterName.letter {rest : String} (h : ParameterName rest) : EndsInLetter rest := by
  obtain ⟨x, rfl | rfl⟩ := h
  · exact EndsInLetter.append ⟨'t', by decide, by decide⟩ x
  · exact EndsInLetter.append ⟨'s', by decide, by decide⟩ x

variable {R : Type}

/-- Every parameter of a block that is counted is used. -/
def GgufHeader.UsesBlocks (file : GgufHeader) (learned : Nat → String → Prop) (g : Graph R) : Prop :=
  ∀ li : Nat, (li : Int) < metaI64 g "n_layers" 0 → ∀ rest, ParameterName rest → learned li rest →
    ∀ t, file.findTensor ("blk." ++ toText li ++ "." ++ rest) = some t →
      Uses g t.name (file.path ++ "#" ++ t.name) ((dimsToShape t.dims).getD 0 0)

/-- The loop over the blocks comes to every one with a parameter, and its branches look for the parameter. -/
def GgufHeader.LooksFor (file : GgufHeader) (cap : Int) (learned : Nat → String → Prop) : Prop :=
  file.emb.isSome → file.lm.isSome → ∀ li : Nat, (li : Int) < file.nLayers cap → ∀ rest, ParameterName rest → learned li rest →
    file.has ("blk." ++ toText li ++ "." ++ rest) →
      (∀ i ≤ li, file.Complete i) ∧ rest ∈ file.layerNames ("blk." ++ toText li ++ ".")

/-- Which parameters the graph of a GGUF file uses. -/
theorem ggufLoad_uses [Field R] [LinearOrder R] {floats : KvFloats R} {floatText : R → String} {cap : Int} {fs : FileSystem}
    {path : String} {g : Graph R} (h : ggufLoad floats floatText cap fs path = .ok g) :
    ∃ file, ggufReadHeader fs path = .ok file ∧ ∀ learned, file.UsesBlocks learned g ↔ file.LooksFor cap learned := by
  obtain ⟨file, hfile, h⟩ := bind_ok h
  obtain ⟨_, -, h⟩ := bind_ok h
  obtain ⟨⟨u, b⟩, hb, h⟩ := bind_ok h
  obtain rfl := Except.ok.inj h
  obtain ⟨_, b₁, h₁, hb⟩ := step_ok hb
  obtain ⟨hw, h₀, hentry⟩ := addMetadata_start h₁
  have p₁ := (Traced.start (Declared.init _ _)).metadata h₁
  refine ⟨file, hfile, fun learned => ?_⟩
  unfold GgufHeader.UsesBlocks GgufHeader.LooksFor
  split at hb
  · next emb lm hemb hlm =>
    obtain ⟨vocab, b₂, h₂, hb⟩ := step_ok hb
    have hsame : b₁ = b₂ := by
      split at h₂
      · exact (pure_ok h₂).2
      · exact (pure_ok h₂).2
      · cases h₂
    subst hsame
    have hbounds : 0 ≤ file.nLayers cap ∧ file.nLayers cap ≤ 512 := GgufHeader.nLayers_bounds cap
    obtain ⟨n, hn, before, after, hread, houter, hall, hstop, hlayers⟩ := GgufImport.model_reads hb hw p₁.declared hemb hlm
    have hcount : metaI64 b.build "n_layers" 0 = file.nLayers cap := metaI64_layers hlayers (by omega) (by omega)
    have hnone : b₁.graph.weightsRead = [] := by
      unfold Graph.weightsRead
      rw [h₀, List.flatMap_nil]
    rw [hnone, List.nil_append] at hread
    have hlayered := GgufImport.ReadsLayers.of hread houter fun j hj => (hall j hj).2
    have hreached : ∀ li : Nat, (li : Int) < file.nLayers cap → (li < n ↔ ∀ i ≤ li, file.Complete i) := by
      intro li hli
      constructor
      · intro hlt i hi
        exact (hall i (by omega)).1
      · intro hcomplete
        by_contra hge
        exact hstop (by omega) (hcomplete n (by omega))
    rw [hcount]
    simp only [hemb, hlm, Option.isSome_some, true_implies]
    refine forall_congr' fun li => imp_congr_right fun hli => forall_congr' fun rest => imp_congr_right fun hname =>
      imp_congr_right fun _ => ?_
    constructor
    · intro huse hthere
      obtain ⟨t, ht⟩ := Option.isSome_iff_exists.mp hthere
      rw [← hreached li hli]
      exact (GgufImport.uses_iff hlayered hname.letter ht).mp (huse t ht)
    · intro hlook t ht
      refine (GgufImport.uses_iff hlayered hname.letter ht).mpr ?_
      rw [hreached li hli]
      exact hlook (by simp [GgufHeader.has, ht])
  · next hno =>
    obtain ⟨-, -, hentry'⟩ := identityGraph_built hb GgufHeader.allWeights_grows hw h₀
    have hcount : metaI64 b.build "n_layers" 0 = 0 := by
      rw [metaI64_eq]
      show (b.graph.layersEntry.bind _).getD 0 = _
      rw [hentry', hentry, GgufHeader.startMetadata_entry]
      rfl
    refine iff_of_true (fun li hli => absurd hli (by omega)) fun hemb hlm => ?_
    obtain ⟨emb, hemb⟩ := Option.isSome_iff_exists.mp hemb
    obtain ⟨lm, hlm⟩ := Option.isSome_iff_exists.mp hlm
    exact absurd hlm (hno emb lm hemb)

/-! ## A Hugging Face directory -/

section Layouts

variable {has : String → Bool} {L : DecodedLayout}

/-- The tensors outside the layers that a layout may name. -/
def kOuterNames : List String :=
  ["model.embed_tokens.weight", "embed_tokens.weight", "transformer.wte.weight", "gpt_neox.embed_in.weight",
    "model.tok_embeddings.weight", "wte.weight", "model.wte.weight", "transformer.word_embeddings.weight", "transformer.wpe.weight",
    "wpe.weight", "model.wpe.weight", "gpt_neox.embed_positions.weight", "model.embed_positions.weight", "lm_head.weight",
    "embed_out.weight", "output.weight", "model.norm.weight", "norm.weight", "transformer.ln_f.weight",
    "gpt_neox.final_layer_norm.weight", "model.final_layernorm.weight", "transformer.final_layernorm.weight", "ln_f.weight",
    "model.norm.bias", "transformer.ln_f.bias", "gpt_neox.final_layer_norm.bias", "ln_f.bias"]

theorem firstS_mem (names : List String) : firstS has names = "" ∨ firstS has names ∈ names := by
  unfold firstS
  cases h : names.find? has with
  | none => exact .inl rfl
  | some name => exact .inr (List.mem_of_find?_eq_some h)

/-- The parts of a layout that the first layer does not decide. -/
def outerFields (L : DecodedLayout) : String × List String := (L.layerPrefix, HfDirectory.outerNames L)

theorem outerFields_attn : outerFields (attnLayout has L) = outerFields L := by
  unfold attnLayout
  split_ifs <;> rfl

theorem outerFields_attnNorm : outerFields (attnNormLayout has L) = outerFields L := by
  unfold attnNormLayout
  split_ifs <;> rfl

theorem outerFields_ffnNorm : outerFields (ffnNormLayout has L) = outerFields L := by
  unfold ffnNormLayout
  split_ifs <;> rfl

theorem outerFields_shared : outerFields (sharedLayout has L) = outerFields L := by
  unfold sharedLayout
  split_ifs <;> rfl

theorem outerFields_mlp : outerFields (mlpLayout has L) = outerFields L := by
  unfold mlpLayout
  split_ifs <;> rfl

theorem outerLayout_names (pfx : String) :
    ∀ s ∈ HfDirectory.outerNames { outerLayout has with layerPrefix := pfx }, s = "" ∨ s ∈ kOuterNames := by
  have hfirst : ∀ {names : List String}, (∀ s ∈ names, s ∈ kOuterNames) → firstS has names = "" ∨ firstS has names ∈ kOuterNames :=
    fun hnames => (firstS_mem _).imp id (hnames _)
  intro s hs
  simp only [HfDirectory.outerNames, outerLayout, List.mem_cons, List.not_mem_nil, or_false] at hs
  rcases hs with rfl | rfl | rfl | rfl | rfl <;> exact hfirst (by decide)

theorem pickLayout_outer (h : pickLayout has = some L) :
    L.layerPrefix ∈ kLayerPrefixes ∧ ∀ s ∈ HfDirectory.outerNames L, s = "" ∨ s ∈ kOuterNames := by
  obtain ⟨pfx, hfind, h⟩ := Option.bind_eq_some_iff.mp h
  have hsame : outerFields L = outerFields { outerLayout has with layerPrefix := pfx } := by
    have hmlp : ∀ L', outerFields (if L'.n1b ≠ "" ∨ L'.n2b ≠ "" then { L' with layernorm := true } else L') = outerFields L' := by
      intro L'
      split <;> rfl
    obtain ⟨-, h⟩ := Option.ite_none_right_eq_some.mp h
    obtain rfl := Option.some.inj h
    rw [hmlp, outerFields_mlp, outerFields_shared, outerFields_ffnNorm, outerFields_attnNorm, outerFields_attn]
  obtain ⟨hpfx, hnames⟩ := Prod.mk.inj hsame
  rw [hpfx, hnames]
  exact ⟨List.mem_of_find?_eq_some hfind, outerLayout_names pfx⟩

/-- No tensor from outside the layers is a layer's. -/
theorem layerName_not_outer (h : pickLayout has = some L) (li : Nat) (rest : String) : layerName L li rest ∉ HfDirectory.outerNames L := by
  obtain ⟨hpfx, hnames⟩ := pickLayout_outer h
  intro hmem
  rcases hnames _ hmem with hempty | hmem
  · exact HfDirectory.layerName_ne L li rest hempty
  · have hall : ∀ p ∈ kLayerPrefixes, ∀ s ∈ kOuterNames, p.toList.isPrefixOf s.toList = false := by decide +kernel
    have hno := hall _ hpfx _ hmem
    rw [← Bool.not_eq_true, List.isPrefixOf_iff_prefix, layerName, String.append_assoc, String.append_assoc, String.toList_append] at hno
    exact hno (List.prefix_append _ _)

end Layouts

namespace HfDirectory

variable {R : Type} {dir : HfDirectory R} {L : DecodedLayout}

theorem checkedLayout_picked (h : dir.checkedLayout = .ok L) : pickLayout dir.hasTensor = some L := by
  unfold checkedLayout at h
  iterate 5
    split at h
    · cases h
  split at h
  · cases h
  · next L' hL' =>
    dsimp only at h
    iterate 3
      split at h
      · cases h
    rw [hL', Except.ok.inj h]

/-- A tensor of a layer is read if the branches look for it there. -/
theorem reads_iff {n : Nat} {read before after : List Label} {li : Nat} {rest : String} (hL : pickLayout dir.hasTensor = some L)
    (hread : read = before ++ dir.layersLabels L n ++ after) (houter : ∀ l ∈ before ++ after, l.1 ∈ outerNames L) (hli : li < n)
    (hthere : dir.hasTensor (layerName L li rest)) :
    (layerName L li rest, dir.resolveShard (layerName L li rest) ++ "#" ++ layerName L li rest) ∈ read ↔ rest ∈ dir.layerNames L li := by
  have hopt : ∀ {i : Nat} {r : String} {l : Label}, l ∈ dir.opt L i r → l.1 = layerName L i r := by
    intro i r l hl
    unfold opt label at hl
    split at hl
    · rw [List.mem_singleton.mp hl]
    · cases hl
  subst hread
  constructor
  · intro hmem
    rcases List.mem_append.mp hmem with hmem | hmem
    · rcases List.mem_append.mp hmem with hmem | hmem
      · exact absurd (houter _ (List.mem_append_left _ hmem)) (layerName_not_outer hL li rest)
      · obtain ⟨i, -, hmem⟩ := List.mem_flatMap.mp hmem
        obtain ⟨r, hr, hmem⟩ := List.mem_flatMap.mp hmem
        obtain ⟨rfl, rfl⟩ := block_name_inj (hopt hmem)
        exact hr
    · exact absurd (houter _ (List.mem_append_right _ hmem)) (layerName_not_outer hL li rest)
  · intro hr
    refine List.mem_append_left _ (List.mem_append_right _ (List.mem_flatMap.mpr ⟨li, List.mem_range.mpr hli, ?_⟩))
    refine List.mem_flatMap.mpr ⟨rest, hr, ?_⟩
    unfold opt label
    rw [if_pos ⟨layerName_ne L li rest, hthere⟩]
    exact List.mem_singleton_self _

/-- The layers that the metadata counts. -/
theorem build_count [Field R] [LinearOrder R] {floatText : R → String} {nLayers : Int} {embShape lmShape : List Int} {u : Unit}
    {b : GraphBuilder R} (h : (dir.build L floatText nLayers embShape lmShape).run
      ((GraphBuilder.init "hf_transformer").setProducer "uaii-hf-loader") = .ok (u, b)) (hcount : nLayers ≤ 512) (li : Nat) :
    (li : Int) < metaI64 b.build "n_layers" 0 ↔ (li : Int) < nLayers := by
  obtain ⟨-, -, -, -, -, b₈, -, -, -, -, -, -, h⟩ := build_features h
  have hlast : ((dir.endMetadata L floatText nLayers).reverse.find? (·.1 == "n_layers")) = some ("n_layers", toText nLayers) := by
    unfold endMetadata
    by_cases hscaling : dir.config.ropeScalingType = "" <;> by_cases htpl : dir.config.chatTemplate = "" <;> simp [hscaling, htpl]
  have hentry : b.graph.layersEntry = some ("n_layers", toText nLayers) := by
    rw [(addMetadata_run h).2.2.2, hlast, Option.some_or]
  rw [metaI64_eq]
  show (li : Int) < (b.graph.layersEntry.bind _).getD 0 ↔ _
  rw [hentry, Option.bind_some, stoll_toText]
  split
  · simp
    omega
  · simp

theorem applyLayerCap_le (cap n : Int) : applyLayerCap cap n ≤ 512 := by
  unfold applyLayerCap
  dsimp only
  split <;> omega

/-- Every parameter of a layer that is counted is used. -/
def UsesBlocks (dir : HfDirectory R) (L : DecodedLayout) (learned : Nat → String → Prop) (g : Graph R) : Prop :=
  ∀ li : Nat, (li : Int) < metaI64 g "n_layers" 0 → ∀ rest, learned li rest → dir.hasTensor (layerName L li rest) →
    (layerName L li rest, dir.resolveShard (layerName L li rest) ++ "#" ++ layerName L li rest) ∈ g.weightsRead

/-- The branches look for every parameter. -/
def LooksFor (dir : HfDirectory R) (L : DecodedLayout) (cap : Int) (learned : Nat → String → Prop) : Prop :=
  ∀ li : Nat, (li : Int) < applyLayerCap cap dir.config.numHiddenLayers → ∀ rest, learned li rest →
    dir.hasTensor (layerName L li rest) → rest ∈ dir.layerNames L li

/-- Which parameters the graph of a directory uses. -/
theorem load_uses [Field R] [LinearOrder R] {floatText : R → String} {cap : Int} {g : Graph R} (h : dir.load floatText cap = .ok g) :
    ∃ L, dir.checkedLayout = .ok L ∧ ∀ learned, dir.UsesBlocks L learned g ↔ dir.LooksFor L cap learned := by
  obtain ⟨L, hL, h⟩ := bind_ok h
  obtain ⟨embShape, -, h⟩ := bind_ok h
  obtain ⟨lmShape, -, h⟩ := bind_ok h
  obtain ⟨⟨u, b⟩, hb, h⟩ := bind_ok h
  obtain rfl := Except.ok.inj h
  obtain ⟨before, after, hread, houter⟩ := build_reads hb
  have hcount : ∀ li : Nat, (li : Int) < metaI64 b.build "n_layers" 0 ↔ (li : Int) < applyLayerCap cap dir.config.numHiddenLayers :=
    build_count hb (applyLayerCap_le _ _)
  refine ⟨L, hL, fun learned => ?_⟩
  unfold UsesBlocks LooksFor
  refine forall_congr' fun li => ?_
  rw [hcount li]
  refine imp_congr_right fun hli => forall_congr' fun rest => imp_congr_right fun _ => forall_congr' fun hthere => ?_
  exact reads_iff (checkedLayout_picked hL) hread houter (by omega) hthere

end HfDirectory

/-! ## The two loaders -/

/-- A loader of decoders and what it is given. -/
inductive DecoderSource (R : Type) where
  | gguf (floats : KvFloats R) (floatText : R → String) (cap : Int) (fs : FileSystem) (path : String)
  | directory (dir : HfDirectory R) (floatText : R → String) (cap : Int)

namespace DecoderSource

variable {R : Type} [Field R] [LinearOrder R]

def load : DecoderSource R → Result (Graph R)
  | gguf floats floatText cap fs path => ggufLoad floats floatText cap fs path
  | directory dir floatText cap => dir.load floatText cap

/-- Every tensor of a block that `learned` calls a parameter is an input of some node. -/
def UsesBlocks (s : DecoderSource R) (learned : Nat → String → Prop) (g : Graph R) : Prop :=
  match s with
  | gguf _ _ _ fs path => ∀ file, ggufReadHeader fs path = .ok file → file.UsesBlocks learned g
  | directory dir _ _ => ∀ L, dir.checkedLayout = .ok L → dir.UsesBlocks L learned g

/-- The branches of the loader look for every parameter, in a block that it comes to. -/
def LooksFor (s : DecoderSource R) (learned : Nat → String → Prop) : Prop :=
  match s with
  | gguf _ _ cap fs path => ∀ file, ggufReadHeader fs path = .ok file → file.LooksFor cap learned
  | directory dir _ cap => ∀ L, dir.checkedLayout = .ok L → dir.LooksFor L cap learned

/-- Of what is loaded, the parameters are used that the loader looks for; the others are dropped. -/
theorem parameters_used {s : DecoderSource R} {g : Graph R} (h : s.load = .ok g) (learned : Nat → String → Prop) :
    s.UsesBlocks learned g ↔ s.LooksFor learned := by
  cases s with
  | gguf floats floatText cap fs path =>
    obtain ⟨file, hfile, huses⟩ := ggufLoad_uses h
    constructor
    · intro hall file' hfile'
      obtain rfl := Except.ok.inj (hfile.symm.trans hfile')
      exact (huses learned).mp (hall file hfile)
    · intro hall file' hfile'
      obtain rfl := Except.ok.inj (hfile.symm.trans hfile')
      exact (huses learned).mpr (hall file hfile)
  | directory dir floatText cap =>
    obtain ⟨L, hL, huses⟩ := HfDirectory.load_uses h
    constructor
    · intro hall L' hL'
      obtain rfl := Except.ok.inj (hL.symm.trans hL')
      exact (huses learned).mp (hall L hL)
    · intro hall L' hL'
      obtain rfl := Except.ok.inj (hL.symm.trans hL')
      exact (huses learned).mpr (hall L hL)

end DecoderSource

section OneLayer

def decoderFile (arch : String) (rests : List String) : DecoderSource ℚ :=
  .gguf ⟨fun _ => 0, fun _ => 0⟩ (fun _ => "") 0 (fun _ => some (ggufWriteF32 (archKv arch) (layerTensors rests))) "m.gguf"

theorem decoderFile_load (arch : String) (rests : List String) : (decoderFile arch rests).load = (layerFile arch rests).load := rfl

/-- A layer with a bias of its output projection. -/
def biasedNames : List String := "attn_output.bias" :: llamaNames

theorem biased_writable : GgufWritable (archKv "llama") (layerTensors biasedNames) :=
  layerFile_writable (by decide) (by decide) (by decide) (by decide +kernel)

theorem decoderFile_has {arch : String} {rests : List String} {rest : String}
    (h : (layerHeader arch rests).has ("blk." ++ toText ((0 : Nat) : Int) ++ "." ++ rest)) : rest ∈ rests := by
  have hblock : "blk." ++ toText ((0 : Nat) : Int) ++ "." = "blk.0." := by decide
  rw [hblock] at h
  by_contra hno
  have hfind : (layerTensors rests).find? (·.name == "blk.0." ++ rest) = none := by
    rw [List.find?_eq_none]
    intro t ht hname
    rcases List.mem_cons.mp ht with rfl | ht
    · have hlist := congrArg String.toList (beq_iff_eq.mp hname)
      simp at hlist
    · obtain ⟨r, hr, rfl⟩ := List.mem_map.mp ht
      have hlist := congrArg String.toList (beq_iff_eq.mp hname)
      rw [String.toList_append, String.toList_append] at hlist
      exact hno (String.toList_injective (List.append_cancel_left hlist) ▸ hr)
  have hnone : (layerHeader arch rests).findTensor ("blk.0." ++ rest) = none := infosAt_find_none 0 hfind
  rw [GgufHeader.has, hnone] at h
  cases h

theorem llama_parameters_used : ∃ g, (decoderFile "llama" llamaNames).load = .ok g ∧
    (decoderFile "llama" llamaNames).UsesBlocks (fun _ _ => True) g := by
  obtain ⟨g, hload⟩ := layerFile_load llama_writable (by decide +kernel)
  rw [← decoderFile_load] at hload
  refine ⟨g, hload, (DecoderSource.parameters_used hload _).mpr ?_⟩
  intro file hfile
  obtain rfl := Except.ok.inj ((layerFile_read llama_writable).symm.trans hfile)
  intro _ _ li hli rest _ _ hthere
  have hcount : (layerHeader "llama" llamaNames).nLayers 0 = 1 := by decide +kernel
  obtain rfl : li = 0 := by omega
  have hmem := decoderFile_has hthere
  refine ⟨fun i hi => ?_, ?_⟩
  · obtain rfl : i = 0 := by omega
    decide +kernel
  · have hall : ∀ r ∈ llamaNames, r ∈ (layerHeader "llama" llamaNames).layerNames ("blk." ++ toText ((0 : Nat) : Int) ++ ".") := by
      decide +kernel
    exact hall rest hmem

/-- The bias of an output projection is dropped. -/
theorem output_bias_dropped : ∃ g, (decoderFile "llama" biasedNames).load = .ok g ∧
    ¬ (decoderFile "llama" biasedNames).UsesBlocks (fun _ rest => rest = "attn_output.bias") g := by
  obtain ⟨g, hload⟩ := layerFile_load biased_writable (by decide +kernel)
  obtain ⟨file, hfile, huses⟩ := ggufLoad_uses hload
  obtain rfl := Except.ok.inj ((layerFile_read biased_writable).symm.trans hfile)
  rw [← decoderFile_load] at hload
  refine ⟨g, hload, fun hall => ?_⟩
  have hlooks := (huses _).mp (hall _ (layerFile_read biased_writable)) (by decide +kernel) (by decide +kernel) 0 (by decide +kernel)
    "attn_output.bias" ⟨"attn_output", .inr rfl⟩ rfl (by decide +kernel)
  revert hlooks
  decide +kernel

end OneLayer

end Uaii.Loaders
