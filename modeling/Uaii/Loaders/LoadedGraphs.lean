/-
  Uaii.Loaders.LoadedGraphs — when the graph that the safetensors loader makes is well
  built and its Attention nodes are the layers that its metadata counts.

  The ids, the producers and the order are right of every graph it makes. The count is
  right if no layer lacks a tensor of its attention; the loop stops at the first that
  does, and the metadata counts on.
-/

import Uaii.Loaders.SafetensorsLoad

namespace Uaii.Loaders

open Uaii.Ir Uaii.Ir.Build
open Uaii.Runtime (stoll metaI64 stoll_signed)
open TextStream (integer)

variable {R : Type} {ins : List TensorId} {b b' : GraphBuilder R} {t : TensorId}

/-! ## The layers a graph counts -/

/-- The Attention nodes' layers are the ones that the metadata counts. -/
def LayersMatch (g : Graph R) : Prop :=
  0 < metaI64 g "n_layers" 0 → attentionLayers g = (List.range (metaI64 g "n_layers" 0).toNat).map fun i : Nat => some (i : Int)

theorem layersMatch_iff {g : Graph R} {n : Nat} (h : attentionLayers g = (List.range n).map fun i : Nat => some (i : Int)) :
    LayersMatch g ↔ (0 < metaI64 g "n_layers" 0 → n = (metaI64 g "n_layers" 0).toNat) := by
  refine imp_congr_right fun _ => ?_
  rw [h]
  constructor
  · intro heq
    simpa using congrArg List.length heq
  · intro heq
    rw [heq]

theorem stoll_toText (i : Int) : stoll (toText i) = if i < -2 ^ 63 ∨ 2 ^ 63 ≤ i then none else some i := by
  obtain ⟨d, ds, hn, -⟩ := TextStream.decimal_head i.natAbs
  have hdigits : ∀ c ∈ d :: ds, c.isDigit = true := fun c hc => Decimal.toDigits_isDigit (hn ▸ hc)
  have hvalue : Decimal.digits (d :: ds) = i.natAbs := by
    have hten := Decimal.digits_toDigits i.natAbs
    rwa [show Nat.toDigits 10 i.natAbs = d :: ds from hn] at hten
  have hi : i = if decide (i < 0) = true then -(Decimal.digits (d :: ds) : Int) else Decimal.digits (d :: ds) := by
    rw [hvalue]
    split
    · rename_i hneg
      have hneg' := of_decide_eq_true hneg
      omega
    · rename_i hpos
      have hpos' : ¬ i < 0 := fun h => hpos (decide_eq_true h)
      omega
  have hsigned := stoll_signed (decide (i < 0)) (List.cons_ne_nil d ds) hdigits hi
  rw [← hsigned]
  unfold toText integer
  rw [hn]
  by_cases hneg : i < 0
  · simp [hneg]
  · simp [hneg]

theorem metaI64_eq (g : Graph R) : metaI64 g "n_layers" 0 = (g.layersEntry.bind fun m => stoll m.2).getD 0 := by
  unfold metaI64 Graph.layersEntry
  cases g.metadata.find? (·.1 == "n_layers") <;> rfl

theorem metaI64_layers {g : Graph R} {k : String} {i : Int} (h : g.layersEntry = some (k, toText i)) (hlo : -2 ^ 63 ≤ i)
    (hhi : i < 2 ^ 63) : metaI64 g "n_layers" 0 = i := by
  have hno : ¬ (i < -2 ^ 63 ∨ 2 ^ 63 ≤ i) := by omega
  rw [metaI64_eq, h, Option.bind_some, stoll_toText, if_neg hno]
  rfl

/-- What holds of a layer and of those after it. -/
theorem forall_layers_succ {P : Nat → Prop} {li remaining : Nat} :
    (∀ i, li ≤ i → i < li + (remaining + 1) → P i) ↔ P li ∧ ∀ i, li + 1 ≤ i → i < li + 1 + remaining → P i := by
  constructor
  · intro hall
    exact ⟨hall li (Nat.le_refl _) (by omega), fun i hle hlt => hall i (by omega) (by omega)⟩
  · intro ⟨hli, hall⟩ i hle hlt
    rcases Nat.eq_or_lt_of_le hle with rfl | hlt'
    · exact hli
    · exact hall i hlt' (by omega)

theorem tensor_nodes {name : String} {shape : List Int} (h : (tensor name shape).run b = .ok (t, b')) (h₀ : b.graph.nodes = []) :
    b'.graph.marks = [] := by
  obtain ⟨-, rfl⟩ := Prod.mk.inj (Except.ok.inj h)
  show b.graph.nodes.flatMap _ = []
  rw [h₀, List.flatMap_nil]

/-- A graph of weights has no Attention nodes. -/
theorem identityGraph_built {weights : Build R Unit} {u : Unit} (h : (identityGraph weights).run b = .ok (u, b'))
    (hweights : ∀ {ins u b b'}, weights.run b = .ok (u, b') → Wired ins b → Grows ins b b' [] []) (hw : Wired [] b)
    (h₀ : b.graph.nodes = []) :
    WellBuilt b'.graph ∧ attentionLayers b'.graph = [] ∧ b'.graph.layersEntry = b.graph.layersEntry := by
  obtain ⟨x, b₁, h₁, h⟩ := step_ok h
  obtain ⟨y, b₂, h₂, h⟩ := step_ok h
  obtain ⟨_, b₃, h₃, h⟩ := step_ok h
  obtain ⟨_, b₄, h₄, h⟩ := step_ok h
  have p₁ := Progress.begin hw h₁
  have p₂ := p₁.tensor h₂
  have p₃ := p₂.call (hweights h₃ p₂.wired)
  have p₄ := p₃.fill [] [] h₄ (by decide) (by simp)
  obtain ⟨hbuilt, hlayers, hentry⟩ := p₄.finished (tensor_nodes h₁ h₀)
    (node_produced h₄ (List.mem_singleton_self y)) h (show (Build.addMetadata []).run _ = .ok ((), _) from rfl)
  refine ⟨hbuilt.mpr (by simp), hlayers, ?_⟩
  rw [hentry, p₄.grows.layersEntry]
  exact (tensor_grows h₁ hw).1.layersEntry

/-! ## The parts of a safetensors graph -/

namespace SafetensorsFile

variable {file : SafetensorsFile}

theorem addW_grows {name : String} (h : (file.addW name).run b = .ok (t, b')) (hw : Wired ins b) :
    Grows ins b b' [] [] ∧ Optional ins b' t ∧ (t = 0 ↔ file.findSt name = none) := by
  unfold addW at h
  split at h
  · next hnone =>
    obtain ⟨rfl, rfl⟩ := Prod.mk.inj (Except.ok.inj h)
    exact ⟨.refl hw, .inl rfl, by simp [hnone]⟩
  · next ti hsome =>
    obtain ⟨hgrows, hready, hne⟩ := weight_grows h hw
    exact ⟨hgrows, .inr hready, by simp [hsome, hne]⟩

theorem addEither_grows {blk hf : String} (h : (file.addEither blk hf).run b = .ok (t, b')) (hw : Wired ins b) :
    Grows ins b b' [] [] ∧ Optional ins b' t ∧ (t ≠ 0 ↔ (file.findSt blk).isSome ∨ (file.findSt hf).isSome) := by
  obtain ⟨x, b₁, h₁, h⟩ := step_ok h
  obtain ⟨g₁, ho, hx⟩ := addW_grows h₁ hw
  split at h
  · next h0 =>
    obtain ⟨g₂, ho', ht⟩ := addW_grows h g₁.wired
    refine ⟨g₁.trans g₂, ho', ?_⟩
    rw [Ne, ht]
    simp [hx.mp h0, Option.isSome_iff_ne_none]
  · next h0 =>
    obtain ⟨rfl, rfl⟩ := Prod.mk.inj (Except.ok.inj h)
    refine ⟨g₁, ho, ?_⟩
    simp [h0, Option.isSome_iff_ne_none, ← hx]

theorem allWeights_grows {path : String} {u : Unit} : ∀ {ts : List SafetensorsTensorInfo} {b : GraphBuilder R},
    (allWeights path ts).run b = .ok (u, b') → Wired ins b → Grows ins b b' [] []
  | [], b, h, hw => by
    obtain ⟨-, rfl⟩ := Prod.mk.inj (Except.ok.inj h)
    exact .refl hw
  | t :: ts, b, h, hw => by
    obtain ⟨_, b₁, h₁, h⟩ := step_ok h
    have g := (weight_grows h₁ hw).1
    exact g.trans (allWeights_grows h g.wired)

variable [Field R] {dim nHeads : Int} {li : Nat} {blk hf pfx : String}

theorem attention_grows {features attnNorm wq wk wv wo : TensorId}
    (h : (attention (R := R) dim nHeads li pfx features attnNorm wq wk wv wo).run b = .ok (t, b')) (hw : Wired ins b)
    (hready : ∀ x ∈ [features, attnNorm, wq, wk, wv, wo], Ready ins b x) :
    Grows ins b b' [] [.attention (some li)] ∧ Ready ins b' t := by
  obtain ⟨n1, b₁, h₁, h⟩ := step_ok h
  obtain ⟨q, b₂, h₂, h⟩ := step_ok h
  obtain ⟨k, b₃, h₃, h⟩ := step_ok h
  obtain ⟨v, b₄, h₄, h⟩ := step_ok h
  obtain ⟨_, b₅, h₅, h⟩ := step_ok h
  obtain ⟨_, b₆, h₆, h⟩ := step_ok h
  obtain ⟨_, b₇, h₇, h⟩ := step_ok h
  obtain ⟨attn, b₈, h₈, h⟩ := step_ok h
  obtain ⟨attnO, b₉, h₉, h⟩ := step_ok h
  have p₁ := (Progress.start hw hready).emit h₁ (by decide) (by simp)
  have p₂ := ((p₁.tensor h₂).tensor h₃).tensor h₄
  have p₅ := p₂.fill [v, k] [] h₅ (by decide) (by simp)
  have p₆ := p₅.fill [v] [] h₆ (by decide) (by simp)
  have p₇ := p₆.fill [] [] h₇ (by decide) (by simp)
  have p₈ := p₇.attention h₈ (by simp)
  have p₉ := p₈.emit h₉ (by decide) (by simp)
  have p₁₀ := p₉.emit h (by decide) (by simp)
  exact ⟨p₁₀.grows, p₁₀.ready t (by simp)⟩

theorem mlp_grows {resid1 ffnNorm wGate wUp wDown : TensorId}
    (h : (file.mlp (R := R) dim blk hf pfx resid1 ffnNorm wGate wUp wDown).run b = .ok (t, b')) (hw : Wired ins b)
    (hready : ∀ x ∈ present ffnNorm ++ [resid1, wGate, wUp, wDown], Ready ins b x) :
    Grows ins b b' [] [] ∧ Ready ins b' t := by
  obtain ⟨mlpIn, b₁, h₁, h⟩ := step_ok h
  obtain ⟨gate, b₂, h₂, h⟩ := step_ok h
  obtain ⟨up, b₃, h₃, h⟩ := step_ok h
  obtain ⟨_, b₄, h₄, h⟩ := step_ok h
  obtain ⟨_, b₅, h₅, h⟩ := step_ok h
  obtain ⟨gateAct, b₆, h₆, h⟩ := step_ok h
  obtain ⟨ffHid, b₇, h₇, h⟩ := step_ok h
  obtain ⟨ffOut, b₈, h₈, h⟩ := step_ok h
  have p₁ : Progress ins b b₁ [mlpIn, resid1, wGate, wUp, wDown] [] [] := by
    split at h₁
    · next hne => exact ((Progress.start hw hready).emit h₁ (by decide) (by simp [hne])).weaken (by simp)
    · obtain ⟨rfl, rfl⟩ := Prod.mk.inj (Except.ok.inj h₁)
      exact (Progress.start hw hready).weaken (by simp)
  have p₃ := (p₁.tensor h₂).tensor h₃
  have p₄ := p₃.fill [up] [] h₄ (by decide) (by simp)
  have p₅ := p₄.fill [] [] h₅ (by decide) (by simp)
  have p₆ := p₅.emit h₆ (by decide) (by simp)
  have p₇ := p₆.emit h₇ (by decide) (by simp)
  have p₈ := p₇.emit h₈ (by decide) (by simp)
  have p₉ := p₈.emit h (by decide) (by simp)
  exact ⟨p₉.grows, p₉.ready t (by simp)⟩

/-! ## The layers -/

/-- The layer has every tensor of its attention. -/
def Complete (file : SafetensorsFile) (li : Nat) : Prop :=
  ∀ n ∈ [("attn_norm.weight", "input_layernorm.weight"), ("attn_q.weight", "self_attn.q_proj.weight"),
      ("attn_k.weight", "self_attn.k_proj.weight"), ("attn_v.weight", "self_attn.v_proj.weight"),
      ("attn_output.weight", "self_attn.o_proj.weight")],
    (file.findSt ("blk." ++ toText li ++ "." ++ n.1)).isSome ∨ (file.findSt ("model.layers." ++ toText li ++ "." ++ n.2)).isSome

instance (file : SafetensorsFile) (li : Nat) : Decidable (file.Complete li) := by
  unfold Complete
  infer_instance

theorem layer_grows {features : TensorId} {r : Option TensorId}
    (h : (file.layer (R := R) dim nHeads li features).run b = .ok (r, b')) (hw : Wired ins b) (hready : Ready ins b features) :
    (r = none ∧ ¬ file.Complete li ∧ Grows ins b b' [] []) ∨
    ∃ t, r = some t ∧ file.Complete li ∧ Grows ins b b' [] [.attention (some li)] ∧ Ready ins b' t := by
  obtain ⟨attnNorm, b₁, h₁, h⟩ := step_ok h
  obtain ⟨wq, b₂, h₂, h⟩ := step_ok h
  obtain ⟨wk, b₃, h₃, h⟩ := step_ok h
  obtain ⟨wv, b₄, h₄, h⟩ := step_ok h
  obtain ⟨wo, b₅, h₅, h⟩ := step_ok h
  obtain ⟨ffnNorm, b₆, h₆, h⟩ := step_ok h
  obtain ⟨wGate, b₇, h₇, h⟩ := step_ok h
  obtain ⟨wUp, b₈, h₈, h⟩ := step_ok h
  obtain ⟨wDown, b₉, h₉, h⟩ := step_ok h
  have p₀ : Progress ins b b [features] [] [] := .start hw (by simpa using hready)
  obtain ⟨g₁, o₁, hnorm⟩ := addEither_grows h₁ p₀.wired
  have p₁ := p₀.fetch g₁ o₁
  obtain ⟨g₂, o₂, hq⟩ := addEither_grows h₂ p₁.wired
  have p₂ := p₁.fetch g₂ o₂
  obtain ⟨g₃, o₃, hk⟩ := addEither_grows h₃ p₂.wired
  have p₃ := p₂.fetch g₃ o₃
  obtain ⟨g₄, o₄, hv⟩ := addEither_grows h₄ p₃.wired
  have p₄ := p₃.fetch g₄ o₄
  obtain ⟨g₅, o₅, ho⟩ := addEither_grows h₅ p₄.wired
  have p₅ := p₄.fetch g₅ o₅
  obtain ⟨g₆, o₆, -⟩ := addEither_grows h₆ p₅.wired
  have p₆ := p₅.fetch g₆ o₆
  obtain ⟨g₇, o₇, -⟩ := addEither_grows h₇ p₆.wired
  have p₇ := p₆.fetch g₇ o₇
  obtain ⟨g₈, o₈, -⟩ := addEither_grows h₈ p₇.wired
  have p₈ := p₇.fetch g₈ o₈
  obtain ⟨g₉, o₉, -⟩ := addEither_grows h₉ p₈.wired
  have p₉ := p₈.fetch g₉ o₉
  have hcomplete : file.Complete li ↔ ¬ (attnNorm = 0 ∨ wq = 0 ∨ wk = 0 ∨ wv = 0 ∨ wo = 0) := by
    simp only [Complete, List.forall_mem_cons, List.not_mem_nil, false_implies, implies_true, and_true, not_or, ← Ne.eq_def]
    rw [hnorm, hq, hk, hv, ho]
  split at h
  · next hmissing =>
    obtain ⟨rfl, rfl⟩ := Prod.mk.inj (Except.ok.inj h)
    exact .inl ⟨rfl, fun hc => hcomplete.mp hc hmissing, p₉.grows⟩
  · next hthere =>
    refine .inr ?_
    obtain ⟨resid1, b₁₀, h₁₀, h⟩ := step_ok h
    have hne := hthere
    simp only [not_or] at hne
    obtain ⟨gattn, hresid⟩ := attention_grows h₁₀ p₉.wired (by
      intro x hx
      refine p₉.ready x ?_
      simp only [List.mem_cons, List.not_mem_nil, or_false] at hx
      rcases hx with rfl | rfl | rfl | rfl | rfl | rfl <;> simp [hne])
    have p₁₀ := (p₉.call gattn).learn hresid
    split at h
    · next hmlp =>
      obtain ⟨resid2, b₁₁, h₁₁, h⟩ := step_ok h
      obtain ⟨rfl, rfl⟩ := Prod.mk.inj (Except.ok.inj h)
      obtain ⟨gmlp, ht⟩ := mlp_grows h₁₁ p₁₀.wired (by
        intro x hx
        refine p₁₀.ready x ?_
        simp only [List.mem_append, mem_present, List.mem_cons, List.not_mem_nil, or_false] at hx
        rcases hx with ⟨rfl, hx⟩ | rfl | rfl | rfl | rfl <;> simp [*])
      exact ⟨resid2, rfl, hcomplete.mpr hthere, (p₁₀.call gmlp).grows, ht⟩
    · obtain ⟨rfl, rfl⟩ := Prod.mk.inj (Except.ok.inj h)
      exact ⟨resid1, rfl, hcomplete.mpr hthere, p₁₀.grows, hresid⟩

/-- The loop gets as far as the layers are complete. -/
theorem layers_grows : ∀ {remaining li : Nat} {features : TensorId} {b : GraphBuilder R},
    (file.layers (R := R) dim nHeads remaining li features).run b = .ok (t, b') → Wired ins b → Ready ins b features →
    ∃ n, Grows ins b b' [] (layerMarks li n) ∧ Ready ins b' t ∧
      (n = remaining ↔ ∀ i, li ≤ i → i < li + remaining → file.Complete i)
  | 0, li, features, b, h, hw, hready => by
    obtain ⟨rfl, rfl⟩ := Prod.mk.inj (Except.ok.inj h)
    exact ⟨0, .refl hw, hready, by simp; omega⟩
  | remaining + 1, li, features, b, h, hw, hready => by
    obtain ⟨r, b₁, h₁, h⟩ := step_ok h
    rcases layer_grows h₁ hw hready with ⟨rfl, hno, g⟩ | ⟨f, rfl, hcomplete, g, hf⟩
    · obtain ⟨rfl, rfl⟩ := Prod.mk.inj (Except.ok.inj h)
      refine ⟨0, g, g.ready _ hready, by simp, fun hall => ?_⟩
      exact absurd (hall li (Nat.le_refl _) (by omega)) hno
    · obtain ⟨n, g', ht, hn⟩ := layers_grows h g.wired hf
      refine ⟨n + 1, g.trans g', ht, ?_⟩
      rw [Nat.add_right_cancel_iff, hn, forall_layers_succ, and_iff_right hcomplete]

/-- The graph's layers are the ones counted if the loop has gone through them all. -/
theorem model_built {emb lm : SafetensorsTensorInfo} {u : Unit} (h : (file.model (R := R) emb lm).run b = .ok (u, b'))
    (hw : Wired [] b) (h₀ : b.graph.nodes = []) :
    WellBuilt b'.graph ∧ (LayersMatch b'.graph ↔ ∀ li < file.nLayers, file.Complete li) := by
  obtain ⟨vocab, b₀, hvocab, h⟩ := step_ok h
  obtain ⟨tokens, b₁, h₁, h⟩ := step_ok h
  obtain ⟨embW, b₂, h₂, h⟩ := step_ok h
  obtain ⟨hidden, b₃, h₃, h⟩ := step_ok h
  obtain ⟨features, b₄, h₄, h⟩ := step_ok h
  obtain ⟨normed, b₅, h₅, h⟩ := step_ok h
  obtain ⟨lmW, b₆, h₆, h⟩ := step_ok h
  obtain ⟨logits, b₇, h₇, h⟩ := step_ok h
  obtain ⟨probs, b₈, h₈, h⟩ := step_ok h
  obtain ⟨_, b₉, h₉, h⟩ := step_ok h
  have hb : b₀ = b := by
    split at hvocab
    · exact (Prod.mk.inj (Except.ok.inj hvocab)).2.symm
    · exact (Prod.mk.inj (Except.ok.inj hvocab)).2.symm
    · cases hvocab
  rw [← hb] at hw h₀
  have p₃ := ((Progress.begin hw h₁).weight h₂).emit h₃ (by decide) (by simp)
  obtain ⟨n, g₄, hfeatures, hn⟩ := layers_grows h₄ p₃.wired (p₃.ready hidden (by simp))
  have p₄ : Progress [tokens] b₁ b₄ [features] [] ([] ++ layerMarks 0 n) := ((p₃.call g₄).learn hfeatures).weaken (by simp)
  have p₅ : Progress [tokens] b₁ b₅ [normed] [] ([] ++ layerMarks 0 n) := by
    split at h₅
    · obtain ⟨rfl, rfl⟩ := Prod.mk.inj (Except.ok.inj h₅)
      exact p₄
    · obtain ⟨nw, b₅', hnw, h₅⟩ := step_ok h₅
      exact ((p₄.weight hnw).emit h₅ (by decide) (by simp)).weaken (by simp)
  have p₈ := ((p₅.weight h₆).emit h₇ (by decide) (by simp)).emit h₈ (by decide) (by simp)
  obtain ⟨hbuilt, hlayers, hentry⟩ := p₈.finished (tensor_nodes h₁ h₀) (emit_produced h₈) h₉ h
  rw [List.nil_append] at hbuilt hlayers
  have hcount : metaI64 b'.graph "n_layers" 0 = file.nLayers := by
    have hle : file.nLayers ≤ 64 := by
      refine (List.takeWhile_prefix _).length_le.trans_eq ?_
      rw [List.length_range]
    refine metaI64_layers (k := "n_layers") ?_ (by omega) (by omega)
    rw [hentry]
    cases file.metadataAt "max_position_embeddings" <;> simp
  refine ⟨hbuilt.mpr (by simp), ?_⟩
  rw [layerMarks_layer] at hlayers
  rw [layersMatch_iff hlayers, hcount]
  constructor
  · intro hall li hlt
    exact hn.mp (by simpa using hall (by omega)) li (Nat.zero_le _) (by omega)
  · intro hall _
    rw [Int.toNat_natCast, hn]
    intro li _ hlt
    exact hall li (by omega)

/-! ## The graph -/

/-- The header's own `n_layers`. -/
def declaredLayers (file : SafetensorsFile) (order : MapOrder) : Int :=
  (((order.walk file.metadata).reverse.find? (·.1 == "n_layers")).bind fun m => stoll m.2).getD 0

/-- Every layer counted has its attention's tensors; a file of weights counts none itself. -/
def Layered (file : SafetensorsFile) (order : MapOrder) : Prop :=
  if file.emb.isSome ∧ file.lm.isSome then ∀ li < file.nLayers, file.Complete li else file.declaredLayers order ≤ 0

end SafetensorsFile

/-- The graph of a safetensors file. -/
theorem safetensorsLoad_built [Field R] {order : MapOrder} {fs : FileSystem} {path : String} {g : Graph R}
    (h : safetensorsLoad order fs path = .ok g) :
    ∃ file, safetensorsReadHeader order fs path = .ok file ∧ WellBuilt g ∧ (LayersMatch g ↔ file.Layered order) := by
  obtain ⟨file, hfile, h⟩ := bind_ok h
  obtain ⟨⟨u, b⟩, hb, h⟩ := bind_ok h
  obtain rfl := Except.ok.inj h
  obtain ⟨_, b₁, h₁, hb⟩ := step_ok hb
  obtain ⟨hw, h₀, hentry⟩ := addMetadata_start h₁
  refine ⟨file, hfile, ?_⟩
  unfold SafetensorsFile.Layered
  split at hb
  · next emb lm hemb hlm =>
    rw [if_pos (by simp [hemb, hlm])]
    exact SafetensorsFile.model_built hb hw h₀
  · next hno =>
    have hnone : ¬ (file.emb.isSome ∧ file.lm.isSome) := by
      intro ⟨hemb, hlm⟩
      obtain ⟨emb, hemb⟩ := Option.isSome_iff_exists.mp hemb
      obtain ⟨lm, hlm⟩ := Option.isSome_iff_exists.mp hlm
      exact hno emb lm hemb hlm
    rw [if_neg hnone]
    obtain ⟨hbuilt, hlayers, hentry'⟩ := identityGraph_built hb SafetensorsFile.allWeights_grows hw h₀
    have hcount : metaI64 b.build "n_layers" 0 = file.declaredLayers order := by
      rw [metaI64_eq, SafetensorsFile.declaredLayers]
      show (b.graph.layersEntry.bind _).getD 0 = _
      rw [hentry', hentry, List.reverse_append, List.find?_append]
      simp
    refine ⟨hbuilt, ?_⟩
    rw [layersMatch_iff (g := b.build) (n := 0) hlayers, hcount]
    constructor
    · intro hno
      by_contra hpos
      have hzero := hno (by omega)
      omega
    · intro hle hpos
      omega

end Uaii.Loaders
