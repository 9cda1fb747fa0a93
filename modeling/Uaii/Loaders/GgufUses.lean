/-
  Uaii.Loaders.GgufUses — which tensors of a layer the graph of a GGUF file reads.

  The names follow the branches of `GgufLoader::load`; the weights that the nodes of a
  layer read are those of the names whose tensor is there, in the order of the nodes. Of
  a packed bank of experts the slices are read. Layers after the one that the loop leaves
  are read nothing of.
-/

import Uaii.Ir.Reads
import Uaii.Loaders.GgufGraphs

namespace Uaii.Loaders

open Uaii.Ir Uaii.Ir.Build

variable {R : Type}

/-! ## The names that are read -/

namespace GgufHeader

variable (file : GgufHeader) (pfx : String)

def there (rest : String) : Bool := file.has (pfx ++ rest)

def normNames (weight bias : String) : List String := weight :: if file.useLayernorm then [bias] else []

def mlaQNames : List String :=
  if file.there pfx "attn_q_a.weight" ∧ file.there pfx "attn_q_b.weight" then ["attn_q_a.weight", "attn_q_a_norm.weight", "attn_q_b.weight"]
  else ["attn_q.weight"]

/-- The tensor that is `w_kv_a`. -/
def kvAName : String := if file.there pfx "attn_kv_a_mqa.weight" then "attn_kv_a_mqa.weight" else "attn_kv_a.weight"

def qkvNames : List String :=
  if (file.there pfx "attn_kv_a_mqa.weight" || file.there pfx "attn_kv_a.weight") ∧ file.there pfx "attn_k_b.weight" ∧
      file.there pfx "attn_v_b.weight" then
    file.mlaQNames pfx ++ [file.kvAName pfx, "attn_kv_a_norm.weight", "attn_k_b.weight", "attn_v_b.weight"]
  else if file.there pfx "attn_qkv.weight" then ["attn_qkv.weight", "attn_qkv.bias"]
  else ["attn_q.weight", "attn_k.weight", "attn_v.weight", "attn_q.bias", "attn_k.bias", "attn_v.bias"]

def attentionNames : List String :=
  file.normNames "attn_norm.weight" "attn_norm.bias" ++ file.qkvNames pfx ++
    ["attn_q_norm.weight", "attn_k_norm.weight", "attn_output.weight"]

def ffnNormNames : List String :=
  if file.there pfx "ffn_norm.weight" then file.normNames "ffn_norm.weight" "ffn_norm.bias" else []

/-- The banks of a mixture of experts, if the layer is one. -/
def banks : Option (GgufTensorInfo × GgufTensorInfo × GgufTensorInfo) :=
  match (if file.there pfx "ffn_gate_inp.weight" then file.findTensor (pfx ++ "ffn_gate_exps.weight") else none),
    file.findTensor (pfx ++ "ffn_up_exps.weight"), file.findTensor (pfx ++ "ffn_down_exps.weight") with
  | some gate, some up, some down => some (gate, up, down)
  | _, _, _ => none

def sharedNames : List String :=
  if file.there pfx "ffn_gate_shexp.weight" ∧ file.there pfx "ffn_up_shexp.weight" ∧ file.there pfx "ffn_down_shexp.weight" then
    ["ffn_gate_shexp.weight", "ffn_up_shexp.weight", "ffn_down_shexp.weight"]
  else []

def denseNames : List String :=
  if file.there pfx "ffn_up.weight" ∧ file.there pfx "ffn_down.weight" then ["ffn_gate.weight", "ffn_up.weight", "ffn_down.weight"] else []

/-- The tensors whose slices are the experts. -/
def bankNames : List String := ["ffn_gate_exps.weight", "ffn_up_exps.weight", "ffn_down_exps.weight"]

/-- The names that the nodes of a layer read, if their tensors are there. -/
def layerNames : List String :=
  file.attentionNames pfx ++ file.ffnNormNames pfx ++
    if (file.banks pfx).isSome then "ffn_gate_inp.weight" :: bankNames ++ file.sharedNames pfx else file.denseNames pfx

end GgufHeader

namespace GgufImport

section Labels

variable (m : GgufImport R) (pfx : String)

/-- The label of a tensor of the layer, if it is there. -/
def opt (rest : String) : List Label := if m.file.there pfx rest then [(pfx ++ rest, m.ref (pfx ++ rest))] else []

/-- The label of an expert's slice of a bank. -/
def sliceLabel (name : String) (bank : GgufTensorInfo) (e : Nat) : Label :=
  (pfx ++ "exp." ++ toText e ++ "." ++ name, m.ref bank.name ++ "#e=" ++ toText e)

def sliceLabels (gate up down : GgufTensorInfo) (e : Nat) : List Label :=
  [m.sliceLabel pfx "ffn_gate.weight" gate e, m.sliceLabel pfx "ffn_up.weight" up e, m.sliceLabel pfx "ffn_down.weight" down e]

/-- As many slices are read of the banks of a layer as they hold. -/
def Banked : Prop :=
  ∀ gate up down, m.file.banks pfx = some (gate, up, down) → 0 < (m.expertCounts (dimsToShape gate.dims)).1 ∧
    ∀ t ∈ [gate, up, down], (dimsToShape t.dims).getD 0 0 = (m.expertCounts (dimsToShape gate.dims)).1

def mlpLabels : List Label :=
  (m.file.ffnNormNames pfx).flatMap (m.opt pfx) ++
    match m.file.banks pfx with
    | some (gate, up, down) =>
      m.opt pfx "ffn_gate_inp.weight" ++
        (List.range (m.expertCounts (dimsToShape gate.dims)).1.toNat).flatMap (m.sliceLabels pfx gate up down) ++
        (m.file.sharedNames pfx).flatMap (m.opt pfx)
    | none => (m.file.denseNames pfx).flatMap (m.opt pfx)

def layerLabels (li : Nat) : List Label :=
  (m.file.attentionNames ("blk." ++ toText li ++ ".")).flatMap (m.opt ("blk." ++ toText li ++ ".")) ++
    m.mlpLabels ("blk." ++ toText li ++ ".")

end Labels

variable {m : GgufImport R} {pfx name rest : String} {w : LayerWeights} {b₀ b b' : GraphBuilder R}
  {env : List (TensorId × List Label)} {labels : List Label} {t x y : TensorId} {u : Unit}

/-! ## The weights of a layer -/

theorem addWeightRef_reads (p : Traced b₀ b env labels) (h : (m.addWeightRef (pfx ++ rest)).run b = .ok (t, b')) :
    Traced b₀ b' ((t, m.opt pfx rest) :: env) labels := by
  unfold addWeightRef at h
  unfold opt GgufHeader.there
  split at h
  · next hnone =>
    obtain ⟨rfl, rfl⟩ := pure_ok h
    simpa [GgufHeader.has, hnone] using p.zero
  · next ti hsome =>
    obtain ⟨_, b₁, h₁, h⟩ := step_ok h
    obtain ⟨-, rfl⟩ := refuseIf_ok h₁
    simpa [GgufHeader.has, hsome] using (p.weight h).1

theorem addWeightRefs_reads : ∀ {rests : List String} {b b' : GraphBuilder R} {env : List (TensorId × List Label)} {w : LayerWeights},
    Traced b₀ b env labels → (m.addWeightRefs pfx rests).run b = .ok (w, b') →
    Traced b₀ b' (w.map (fun e => (e.2, m.opt pfx e.1)) ++ env) labels
  | [], b, _, env, w, p, h => by
    obtain ⟨rfl, rfl⟩ := pure_ok h
    exact p
  | rest :: rests, b, _, env, w, p, h => by
    obtain ⟨t, b₁, h₁, h⟩ := step_ok h
    obtain ⟨w', b₂, h₂, h⟩ := step_ok h
    obtain ⟨rfl, rfl⟩ := pure_ok h
    have p₂ := addWeightRefs_reads (addWeightRef_reads p h₁) h₂
    refine p₂.weaken fun e he => ?_
    simp only [List.map_cons, List.cons_append, List.mem_cons, List.mem_append] at he ⊢
    tauto

/-- The ids of the layer's weights and what they carry. -/
structure Listed (m : GgufImport R) (pfx : String) (w : LayerWeights) (env : List (TensorId × List Label)) : Prop where
  mem : ∀ rest ∈ firstNames ++ lastNames, (w.id rest, m.opt pfx rest) ∈ env
  found : ∀ rest ∈ firstNames ++ lastNames, w.id rest ≠ 0 ↔ m.file.there pfx rest
  kvA : (w.kvA, m.opt pfx (m.file.kvAName pfx)) ∈ env

theorem Listed.mono (h : Listed m pfx w env) {env' : List (TensorId × List Label)} (hsub : ∀ e ∈ env, e ∈ env') : Listed m pfx w env' :=
  ⟨fun rest hrest => hsub _ (h.mem rest hrest), h.found, hsub _ h.kvA⟩

theorem Listed.nil (h : Listed m pfx w env) (hrest : rest ∈ firstNames ++ lastNames) (h0 : w.id rest = 0) : m.opt pfx rest = [] := by
  have hno : ¬ m.file.there pfx rest := fun hyes => (h.found rest hrest).mpr hyes h0
  rw [opt, if_neg hno]

/-- What `id` finds is an entry, or 0 is, for a tensor that is not there. -/
theorem id_entry (hiff : w.id rest ≠ 0 ↔ m.file.there pfx rest) :
    (w.id rest, m.opt pfx rest) ∈ w.map (fun e => (e.2, m.opt pfx e.1)) ∨ (w.id rest, m.opt pfx rest) = (0, []) := by
  cases hfind : w.find? (·.1 == rest) with
  | none =>
    have h0 : w.id rest = 0 := by rw [LayerWeights.id, hfind]; rfl
    have hno : ¬ m.file.there pfx rest := fun hyes => hiff.mpr hyes h0
    exact .inr (by rw [h0, opt, if_neg hno])
  | some e =>
    have hname : e.1 = rest := by simpa using List.find?_some hfind
    refine .inl (List.mem_map.mpr ⟨e, List.mem_of_find?_eq_some hfind, ?_⟩)
    rw [LayerWeights.id, hfind, hname]
    rfl

theorem layerWeights_reads {ins : List TensorId} (p : Traced b₀ b env labels) (h : (m.layerWeights pfx).run b = .ok (w, b'))
    (hw : Wired ins b) : ∃ env', Traced b₀ b' (env' ++ env) labels ∧ Listed m pfx w env' := by
  obtain ⟨-, -, hid, hkvA⟩ := layerWeights_grows h hw
  obtain ⟨first, b₁, h₁, h⟩ := step_ok h
  obtain ⟨kvA, b₂, h₂, h⟩ := step_ok h
  obtain ⟨last, b₃, h₃, h⟩ := step_ok h
  obtain ⟨rfl, rfl⟩ := pure_ok h
  have p₁ := addWeightRefs_reads p h₁
  have p₂ : Traced b₀ b₂ (kvA.map (fun e => (e.2, m.opt pfx e.1)) ++ (first.map (fun e => (e.2, m.opt pfx e.1)) ++ env)) labels := by
    split at h₂
    · exact addWeightRefs_reads p₁ h₂
    · obtain ⟨rfl, rfl⟩ := pure_ok h₂
      exact p₁
  have p₃ := (addWeightRefs_reads p₂ h₃).zero
  have hmem : ∀ rest, ((first ++ kvA ++ last).id rest ≠ 0 ↔ m.file.there pfx rest) →
      ((first ++ kvA ++ last).id rest, m.opt pfx rest) ∈ (0, []) :: (first ++ kvA ++ last).map (fun e => (e.2, m.opt pfx e.1)) := by
    intro rest hiff
    rcases id_entry hiff with he | he
    · exact List.mem_cons_of_mem _ he
    · rw [he]
      exact List.mem_cons_self
  refine ⟨(0, []) :: (first ++ kvA ++ last).map (fun e => (e.2, m.opt pfx e.1)), p₃.weaken fun e he => ?_,
    ⟨fun rest hrest => hmem rest (hid rest hrest), hid, ?_⟩⟩
  · simp only [List.map_append, List.cons_append, List.append_assoc, List.mem_cons, List.mem_append] at he ⊢
    tauto
  · have hmqa : (first ++ kvA ++ last).id "attn_kv_a_mqa.weight" ≠ 0 ↔ m.file.there pfx "attn_kv_a_mqa.weight" := hid _ (by decide)
    unfold LayerWeights.kvA hasKvA at hkvA
    unfold LayerWeights.kvA GgufHeader.kvAName
    split at hkvA
    · next h0 =>
      have hno : ¬ m.file.there pfx "attn_kv_a_mqa.weight" := fun hyes => hmqa.mpr hyes h0
      rw [if_pos h0, if_neg hno]
      refine hmem _ (hkvA.trans ?_)
      rw [Bool.or_eq_true]
      exact ⟨fun hor => hor.resolve_left hno, .inr⟩
    · next hne =>
      rw [if_neg hne, if_pos (hmqa.mp hne)]
      exact hmem _ hmqa

/-! ## The query, the keys and the values -/

variable {n1 : TensorId}

section Projections

variable [Field R]

theorem normed_reads (p : Traced b₀ b env labels) {ln rms : String} {weight bias : TensorId} {lw lb : List Label}
    (h : (m.addNorm ln rms x weight bias y).run b = .ok (u, b')) (hx : (x, []) ∈ env) (hweight : (weight, lw) ∈ env)
    (hbias : (bias, lb) ∈ env) (hnil : bias = 0 → lb = []) :
    Traced b₀ b' env (labels ++ (lw ++ if m.file.useLayernorm then lb else [])) := by
  unfold addNorm at h
  exact p.eitherNode h hx hweight hbias hnil

theorem mlaQ_reads (p : Traced b₀ b env labels) (h : (m.mlaQ pfx w n1).run b = .ok (t, b')) (hn1 : (n1, []) ∈ env)
    (hold : Listed m pfx w env) : Traced b₀ b' ((t, []) :: env) (labels ++ (m.file.mlaQNames pfx).flatMap (m.opt pfx)) := by
  have ha := hold.found "attn_q_a.weight" (by decide)
  have hb := hold.found "attn_q_b.weight" (by decide)
  unfold mlaQ at h
  unfold GgufHeader.mlaQNames
  split at h
  · next hlora =>
    rw [if_pos ⟨ha.mp hlora.1, hb.mp hlora.2⟩]
    obtain ⟨_, b₁, h₁, h⟩ := step_ok h
    obtain ⟨-, rfl⟩ := refuseIf_ok h₁
    obtain ⟨qa, b₂, h₂, h⟩ := step_ok h
    obtain ⟨qaN, b₃, h₃, h⟩ := step_ok h
    have p₂ := p.emit [(n1, []), (w.id "attn_q_a.weight", m.opt pfx "attn_q_a.weight")] h₂ (by simp [hn1, hold.mem "attn_q_a.weight" (by decide)])
    have p₃ : Traced b₀ b₃ ((qaN, []) :: env) (labels ++ (m.opt pfx "attn_q_a.weight" ++ m.opt pfx "attn_q_a_norm.weight")) := by
      split at h₃
      · exact ((p₂.emit [(qa, []), (w.id "attn_q_a_norm.weight", m.opt pfx "attn_q_a_norm.weight")] h₃
          (by simp [hold.mem "attn_q_a_norm.weight" (by decide)])).weaken (by simp +contextual)).relabel (by simp)
      · next h0 =>
        obtain ⟨rfl, rfl⟩ := pure_ok h₃
        exact p₂.relabel (by simp [hold.nil (by decide) (not_not.mp h0)])
    refine ((p₃.emit [(qaN, []), (w.id "attn_q_b.weight", m.opt pfx "attn_q_b.weight")] h
      (by simp [hold.mem "attn_q_b.weight" (by decide)])).weaken (by simp +contextual)).relabel (by simp)
  · next hno =>
    rw [if_neg fun hyes => hno ⟨ha.mpr hyes.1, hb.mpr hyes.2⟩]
    split at h
    · exact (p.emit [(n1, []), (w.id "attn_q.weight", m.opt pfx "attn_q.weight")] h (by simp [hn1, hold.mem "attn_q.weight" (by decide)])).relabel
        (by simp)
    · cases h

theorem mlaLatent_reads (p : Traced b₀ b env labels) {r : TensorId × TensorId} (h : (m.mlaLatent pfx w n1).run b = .ok (r, b'))
    (hn1 : (n1, []) ∈ env) (hold : Listed m pfx w env) :
    Traced b₀ b' ((r.1, []) :: (r.2, []) :: env) (labels ++ [m.file.kvAName pfx, "attn_kv_a_norm.weight"].flatMap (m.opt pfx)) := by
  obtain ⟨_, b₁, h₁, h⟩ := step_ok h
  obtain ⟨-, rfl⟩ := refuseIf_ok h₁
  obtain ⟨kvc, b₂, h₂, h⟩ := step_ok h
  obtain ⟨latent, b₃, h₃, h⟩ := step_ok h
  have p₂ := p.emit [(n1, []), (w.kvA, m.opt pfx (m.file.kvAName pfx))] h₂ (by simp [hn1, hold.kvA])
  have p₃ : Traced b₀ b₃ ((latent, []) :: (kvc, []) :: env) (labels ++ m.opt pfx (m.file.kvAName pfx)) := by
    split at h₃
    · obtain ⟨_, b₃', hfit, h₃⟩ := step_ok h₃
      obtain ⟨-, rfl⟩ := refuseIf_ok hfit
      exact (p₂.emit [(kvc, [])] h₃ (by simp)).relabel (by simp)
    · obtain ⟨rfl, rfl⟩ := pure_ok h₃
      exact (p₂.learn (by simp)).relabel (by simp)
  split at h
  · obtain ⟨_, b₄, h₄, h⟩ := step_ok h
    obtain ⟨-, rfl⟩ := refuseIf_ok h₄
    obtain ⟨latN, b₅, h₅, h⟩ := step_ok h
    obtain ⟨rfl, rfl⟩ := pure_ok h
    exact ((p₃.emit [(latent, []), (w.id "attn_kv_a_norm.weight", m.opt pfx "attn_kv_a_norm.weight")] h₅
      (by simp [hold.mem "attn_kv_a_norm.weight" (by decide)])).weaken (by grind)).relabel (by simp)
  · next h0 =>
    obtain ⟨rfl, rfl⟩ := pure_ok h
    exact (p₃.weaken (by grind)).relabel (by simp [hold.nil (by decide) (not_not.mp h0)])

theorem mlaAssemble_reads (p : Traced b₀ b env labels) {kvc : TensorId} {qkv r : LayerQkv}
    (h : (m.mlaAssemble pfx kvc qkv).run b = .ok (r, b')) (hkvc : (kvc, []) ∈ env) (hq : (qkv.q, []) ∈ env) (hk : (qkv.k, []) ∈ env)
    (hv : (qkv.v, []) ∈ env) : Traced b₀ b' ((r.q, []) :: (r.k, []) :: (r.v, []) :: env) labels := by
  obtain ⟨_, b₁, h₁, h⟩ := step_ok h
  obtain ⟨-, rfl⟩ := refuseIf_ok h₁
  obtain ⟨kPe, b₂, h₂, h⟩ := step_ok h
  obtain ⟨kPeR, b₃, h₃, h⟩ := step_ok h
  obtain ⟨kFull, b₄, h₄, h⟩ := step_ok h
  obtain ⟨rfl, rfl⟩ := pure_ok h
  have p₃ := (p.emit [(kvc, [])] h₂ (by simp [hkvc])).emit [(kPe, [])] h₃ (by simp)
  have p₄ := p₃.emit [(qkv.k, []), (kPeR, [])] h₄ (by simp [hk])
  exact (p₄.weaken (by grind)).relabel (by simp)

theorem mlaQkv_reads [LinearOrder R] (p : Traced b₀ b env labels) {r : LayerQkv} (h : (m.mlaQkv pfx w n1).run b = .ok (r, b'))
    (hn1 : (n1, []) ∈ env) (hold : Listed m pfx w env) :
    Traced b₀ b' ((r.q, []) :: (r.k, []) :: (r.v, []) :: env) (labels ++
      (m.file.mlaQNames pfx ++ [m.file.kvAName pfx, "attn_kv_a_norm.weight", "attn_k_b.weight", "attn_v_b.weight"]).flatMap (m.opt pfx)) := by
  obtain ⟨_, b₁, h₁, h⟩ := step_ok h
  obtain ⟨-, rfl⟩ := refuseIf_ok h₁
  obtain ⟨q, b₂, h₂, h⟩ := step_ok h
  obtain ⟨⟨kvc, latent⟩, b₃, h₃, h⟩ := step_ok h
  obtain ⟨k, b₄, h₄, h⟩ := step_ok h
  obtain ⟨v, b₅, h₅, h⟩ := step_ok h
  obtain ⟨_, b₆, h₆, h⟩ := step_ok h
  obtain ⟨_, b₇, h₇, h⟩ := step_ok h
  have p₂ := mlaQ_reads p h₂ hn1 hold
  have p₃ := mlaLatent_reads p₂ h₃ (by simp [hn1]) (hold.mono (by simp +contextual))
  have p₅ := (p₃.tensor h₄).tensor h₅
  have p₆ := p₅.node [(latent, []), (w.id "attn_k_b.weight", m.opt pfx "attn_k_b.weight")] h₆
    (by simp [hold.mem "attn_k_b.weight" (by decide)])
  have p₇ := p₆.node [(latent, []), (w.id "attn_v_b.weight", m.opt pfx "attn_v_b.weight")] h₇
    (by simp [hold.mem "attn_v_b.weight" (by decide)])
  split at h
  · exact ((mlaAssemble_reads p₇ h (by simp) (by simp) (by simp) (by simp)).weaken (by grind)).relabel (by simp)
  · obtain ⟨rfl, rfl⟩ := pure_ok h
    exact (p₇.weaken (by grind)).relabel (by simp)

end Projections

theorem biased_reads (p : Traced b₀ b env labels) {dim : Int} {bias : TensorId} {lb : List Label}
    (h : (maybeAdd pfx name dim x bias).run b = .ok (t, b')) (hx : (x, []) ∈ env) (hbias : (bias, lb) ∈ env)
    (hnil : bias = 0 → lb = []) : Traced b₀ b' ((t, []) :: env) (labels ++ lb) := by
  unfold maybeAdd at h
  exact p.orEmit h hx hbias hnil

theorem fusedQkv_reads (p : Traced b₀ b env labels) {r : LayerQkv} (h : (m.fusedQkv pfx w n1).run b = .ok (r, b'))
    (hn1 : (n1, []) ∈ env) (hold : Listed m pfx w env) :
    Traced b₀ b' ((r.q, []) :: (r.k, []) :: (r.v, []) :: env) (labels ++ ["attn_qkv.weight", "attn_qkv.bias"].flatMap (m.opt pfx)) := by
  obtain ⟨proj, b₁, h₁, h⟩ := step_ok h
  obtain ⟨qkv, b₂, h₂, h⟩ := step_ok h
  obtain ⟨q, b₃, h₃, h⟩ := step_ok h
  obtain ⟨k, b₄, h₄, h⟩ := step_ok h
  obtain ⟨v, b₅, h₅, h⟩ := step_ok h
  obtain ⟨_, b₆, h₆, h⟩ := step_ok h
  obtain ⟨_, b₇, h₇, h⟩ := step_ok h
  obtain ⟨_, b₈, h₈, h⟩ := step_ok h
  obtain ⟨rfl, rfl⟩ := pure_ok h
  have p₁ := p.emit [(n1, []), (w.id "attn_qkv.weight", m.opt pfx "attn_qkv.weight")] h₁
    (by simp [hn1, hold.mem "attn_qkv.weight" (by decide)])
  have p₂ := biased_reads p₁ h₂ (by simp) (List.mem_cons_of_mem _ (hold.mem "attn_qkv.bias" (by decide))) (hold.nil (by decide))
  have p₅ := ((p₂.tensor h₃).tensor h₄).tensor h₅
  have p₆ := p₅.node [(qkv, [])] h₆ (by simp)
  have p₇ := p₆.node [(qkv, [])] h₇ (by simp)
  have p₈ := p₇.node [(qkv, [])] h₈ (by simp)
  exact (p₈.weaken (by simp [denseQkv]; grind)).relabel (by simp)

theorem splitQkv_reads (p : Traced b₀ b env labels) {r : LayerQkv} (h : (m.splitQkv pfx w n1).run b = .ok (r, b'))
    (hn1 : (n1, []) ∈ env) (hold : Listed m pfx w env) :
    Traced b₀ b' ((r.q, []) :: (r.k, []) :: (r.v, []) :: env) (labels ++
      ["attn_q.weight", "attn_k.weight", "attn_v.weight", "attn_q.bias", "attn_k.bias", "attn_v.bias"].flatMap (m.opt pfx)) := by
  obtain ⟨qProj, b₁, h₁, h⟩ := step_ok h
  obtain ⟨kProj, b₂, h₂, h⟩ := step_ok h
  obtain ⟨vProj, b₃, h₃, h⟩ := step_ok h
  obtain ⟨_, b₄, h₄, h⟩ := step_ok h
  obtain ⟨_, b₅, h₅, h⟩ := step_ok h
  obtain ⟨_, b₆, h₆, h⟩ := step_ok h
  obtain ⟨q, b₇, h₇, h⟩ := step_ok h
  obtain ⟨k, b₈, h₈, h⟩ := step_ok h
  obtain ⟨v, b₉, h₉, h⟩ := step_ok h
  obtain ⟨rfl, rfl⟩ := pure_ok h
  have p₃ := ((p.tensor h₁).tensor h₂).tensor h₃
  have p₄ := p₃.node [(n1, []), (w.id "attn_q.weight", m.opt pfx "attn_q.weight")] h₄ (by simp [hn1, hold.mem "attn_q.weight" (by decide)])
  have p₅ := p₄.node [(n1, []), (w.id "attn_k.weight", m.opt pfx "attn_k.weight")] h₅ (by simp [hn1, hold.mem "attn_k.weight" (by decide)])
  have p₆ := p₅.node [(n1, []), (w.id "attn_v.weight", m.opt pfx "attn_v.weight")] h₆ (by simp [hn1, hold.mem "attn_v.weight" (by decide)])
  have p₇ := biased_reads p₆ h₇ (by simp) (by simp [hold.mem "attn_q.bias" (by decide)]) (hold.nil (by decide))
  have p₈ := biased_reads p₇ h₈ (by simp) (by simp [hold.mem "attn_k.bias" (by decide)]) (hold.nil (by decide))
  have p₉ := biased_reads p₈ h₉ (by simp) (by simp [hold.mem "attn_v.bias" (by decide)]) (hold.nil (by decide))
  exact (p₉.weaken (by simp [denseQkv]; grind)).relabel (by simp)

/-! ## The feed-forward block -/

theorem experts_reads {gate up down : GgufTensorInfo} : ∀ {remaining e : Nat} {b b' : GraphBuilder R}
    {env : List (TensorId × List Label)} {r : List TensorId}, Traced b₀ b env labels →
    (m.experts pfx gate up down remaining e).run b = .ok (r, b') →
    ∃ es : List (TensorId × List Label), r = es.map (·.1) ∧
      es.flatMap (·.2) = (List.range' e remaining).flatMap (m.sliceLabels pfx gate up down) ∧ Traced b₀ b' (es ++ env) labels
  | 0, e, b, _, env, r, p, h => by
    obtain ⟨rfl, rfl⟩ := pure_ok h
    exact ⟨[], rfl, rfl, p⟩
  | remaining + 1, e, b, _, env, r, p, h => by
    obtain ⟨ge, b₁, h₁, h⟩ := step_ok h
    obtain ⟨ue, b₂, h₂, h⟩ := step_ok h
    obtain ⟨de, b₃, h₃, h⟩ := step_ok h
    obtain ⟨moeIns, b₄, h₄, h⟩ := step_ok h
    obtain ⟨rfl, rfl⟩ := pure_ok h
    have p₁ := (p.weight h₁).1
    have p₂ := (p₁.weight h₂).1
    have p₃ := (p₂.weight h₃).1
    obtain ⟨es, rfl, hes, p₄⟩ := experts_reads p₃ h₄
    refine ⟨(ge, [m.sliceLabel pfx "ffn_gate.weight" gate e]) :: (ue, [m.sliceLabel pfx "ffn_up.weight" up e]) ::
      (de, [m.sliceLabel pfx "ffn_down.weight" down e]) :: es, rfl, ?_, p₄.weaken fun x hx => ?_⟩
    · simp [List.range'_succ, sliceLabels, hes]
    · simp only [List.cons_append, List.mem_cons, List.mem_append] at hx ⊢
      unfold sliceLabel at hx
      tauto

variable {mlpIn resid1 : TensorId}

theorem sharedExpert_reads {ffOut : TensorId} (p : Traced b₀ b env labels)
    (h : (m.sharedExpert pfx w mlpIn ffOut).run b = .ok (t, b')) (hx : (mlpIn, []) ∈ env) (hff : (ffOut, []) ∈ env)
    (hold : Listed m pfx w env) : Traced b₀ b' ((t, []) :: env) (labels ++ (m.file.sharedNames pfx).flatMap (m.opt pfx)) := by
  have hg := hold.found "ffn_gate_shexp.weight" (by decide)
  have hu := hold.found "ffn_up_shexp.weight" (by decide)
  have hd := hold.found "ffn_down_shexp.weight" (by decide)
  unfold sharedExpert at h
  unfold GgufHeader.sharedNames
  simp only [← hg, ← hu, ← hd]
  split at h
  · next hno =>
    obtain ⟨rfl, rfl⟩ := pure_ok h
    rw [if_neg (by tauto)]
    exact (p.learn hff).relabel (by simp)
  · next hall =>
    obtain ⟨sg, b₁, h₁, h⟩ := step_ok h
    obtain ⟨su, b₂, h₂, h⟩ := step_ok h
    obtain ⟨_, b₃, h₃, h⟩ := step_ok h
    obtain ⟨_, b₄, h₄, h⟩ := step_ok h
    obtain ⟨sga, b₅, h₅, h⟩ := step_ok h
    obtain ⟨shid, b₆, h₆, h⟩ := step_ok h
    obtain ⟨sout, b₇, h₇, h⟩ := step_ok h
    have p₂ := (p.tensor h₁).tensor h₂
    have p₃ := p₂.node [(mlpIn, []), (w.id "ffn_gate_shexp.weight", m.opt pfx "ffn_gate_shexp.weight")] h₃
      (by simp [hx, hold.mem "ffn_gate_shexp.weight" (by decide)])
    have p₄ := p₃.node [(mlpIn, []), (w.id "ffn_up_shexp.weight", m.opt pfx "ffn_up_shexp.weight")] h₄
      (by simp [hx, hold.mem "ffn_up_shexp.weight" (by decide)])
    have p₅ := p₄.emit [(sg, [])] h₅ (by simp)
    have p₆ := p₅.emit [(sga, []), (su, [])] h₆ (by simp)
    have p₇ := p₆.emit [(shid, []), (w.id "ffn_down_shexp.weight", m.opt pfx "ffn_down_shexp.weight")] h₇
      (by simp [hold.mem "ffn_down_shexp.weight" (by decide)])
    have p₈ := p₇.emit [(ffOut, []), (sout, [])] h (by simp [hff])
    rw [if_pos (by tauto)]
    exact (p₈.weaken (by grind)).relabel (by simp)

theorem moe_reads (p : Traced b₀ b env labels) {gate up down : GgufTensorInfo}
    (h : (m.moe pfx w mlpIn resid1 gate up down).run b = .ok (t, b')) (hx : (mlpIn, []) ∈ env) (hresid : (resid1, []) ∈ env)
    (hold : Listed m pfx w env) :
    (0 < (m.expertCounts (dimsToShape gate.dims)).1 ∧
      ∀ t ∈ [gate, up, down], (dimsToShape t.dims).getD 0 0 = (m.expertCounts (dimsToShape gate.dims)).1) ∧
    Traced b₀ b' ((t, []) :: env) (labels ++ (m.opt pfx "ffn_gate_inp.weight" ++
      (List.range (m.expertCounts (dimsToShape gate.dims)).1.toNat).flatMap (m.sliceLabels pfx gate up down) ++
      (m.file.sharedNames pfx).flatMap (m.opt pfx))) := by
  obtain ⟨_, b₁, h₁, h⟩ := step_ok h
  obtain ⟨hpos, rfl⟩ := refuseIf_ok h₁
  obtain ⟨_, b₂, h₂, h⟩ := step_ok h
  obtain ⟨hbanks, rfl⟩ := refuseIf_ok h₂
  obtain ⟨probs, b₃, h₃, h⟩ := step_ok h
  obtain ⟨top, b₄, h₄, h⟩ := step_ok h
  obtain ⟨_, b₅, h₅, h⟩ := step_ok h
  obtain ⟨ids, b₆, h₆, h⟩ := step_ok h
  obtain ⟨ffOut, b₇, h₇, h⟩ := step_ok h
  obtain ⟨ffMerged, b₈, h₈, h⟩ := step_ok h
  have p₄ := (p.tensor h₃).tensor h₄
  have p₅ := p₄.node [(mlpIn, []), (w.id "ffn_gate_inp.weight", m.opt pfx "ffn_gate_inp.weight")] h₅
    (by simp [hx, hold.mem "ffn_gate_inp.weight" (by decide)])
  obtain ⟨es, hids, hes, p₆⟩ := experts_reads p₅ h₆
  rw [hids] at h₇
  have p₇ := p₆.emit ((mlpIn, []) :: (probs, []) :: es) h₇ (by simp +contextual [hx])
  have p₈ := sharedExpert_reads p₇ h₈ (by simp [hx]) (by simp) (hold.mono (by simp +contextual))
  have p₉ := p₈.emit [(resid1, []), (ffMerged, [])] h (by simp [hresid])
  refine ⟨⟨not_le.mp hpos, fun ti hti => ?_⟩, (p₉.weaken (by grind)).relabel (by simp [hes, List.range_eq_range', expertCounts])⟩
  by_contra hne
  exact hbanks ⟨ti, hti, .inr hne⟩

theorem swiGlu_reads (p : Traced b₀ b env labels) (h : (m.swiGlu pfx w mlpIn resid1).run b = .ok (t, b'))
    (hx : (mlpIn, []) ∈ env) (hresid : (resid1, []) ∈ env) (hold : Listed m pfx w env) :
    Traced b₀ b' ((t, []) :: env) (labels ++ ["ffn_gate.weight", "ffn_up.weight", "ffn_down.weight"].flatMap (m.opt pfx)) := by
  obtain ⟨gate, b₁, h₁, h⟩ := step_ok h
  obtain ⟨up, b₂, h₂, h⟩ := step_ok h
  obtain ⟨_, b₃, h₃, h⟩ := step_ok h
  obtain ⟨_, b₄, h₄, h⟩ := step_ok h
  obtain ⟨gateAct, b₅, h₅, h⟩ := step_ok h
  obtain ⟨ffHid, b₆, h₆, h⟩ := step_ok h
  obtain ⟨ffOut, b₇, h₇, h⟩ := step_ok h
  have p₂ := (p.tensor h₁).tensor h₂
  have p₃ := p₂.node [(mlpIn, []), (w.id "ffn_gate.weight", m.opt pfx "ffn_gate.weight")] h₃
    (by simp [hx, hold.mem "ffn_gate.weight" (by decide)])
  have p₄ := p₃.node [(mlpIn, []), (w.id "ffn_up.weight", m.opt pfx "ffn_up.weight")] h₄
    (by simp [hx, hold.mem "ffn_up.weight" (by decide)])
  have p₅ := p₄.emit [(gate, [])] h₅ (by simp)
  have p₆ := p₅.emit [(gateAct, []), (up, [])] h₆ (by simp)
  have p₇ := p₆.emit [(ffHid, []), (w.id "ffn_down.weight", m.opt pfx "ffn_down.weight")] h₇
    (by simp [hold.mem "ffn_down.weight" (by decide)])
  have p₈ := p₇.emit [(resid1, []), (ffOut, [])] h (by simp [hresid])
  exact (p₈.weaken (by grind)).relabel (by simp)

theorem dense_reads (p : Traced b₀ b env labels) (h : (m.dense pfx w mlpIn resid1).run b = .ok (t, b'))
    (hx : (mlpIn, []) ∈ env) (hresid : (resid1, []) ∈ env) (hold : Listed m pfx w env) :
    Traced b₀ b' ((t, []) :: env) (labels ++ ["ffn_up.weight", "ffn_down.weight"].flatMap (m.opt pfx)) := by
  obtain ⟨up, b₁, h₁, h⟩ := step_ok h
  obtain ⟨upAct, b₂, h₂, h⟩ := step_ok h
  obtain ⟨ffOut, b₃, h₃, h⟩ := step_ok h
  have p₁ := p.emit [(mlpIn, []), (w.id "ffn_up.weight", m.opt pfx "ffn_up.weight")] h₁
    (by simp [hx, hold.mem "ffn_up.weight" (by decide)])
  have p₂ := p₁.emit [(up, [])] h₂ (by simp)
  have p₃ := p₂.emit [(upAct, []), (w.id "ffn_down.weight", m.opt pfx "ffn_down.weight")] h₃
    (by simp [hold.mem "ffn_down.weight" (by decide)])
  have p₄ := p₃.emit [(resid1, []), (ffOut, [])] h (by simp [hresid])
  exact (p₄.weaken (by grind)).relabel (by simp)

variable [Field R]

theorem mlp_reads (p : Traced b₀ b env labels) (h : (m.mlp pfx w resid1).run b = .ok (t, b')) (hresid : (resid1, []) ∈ env)
    (hold : Listed m pfx w env) : m.Banked pfx ∧ Traced b₀ b' ((t, []) :: env) (labels ++ m.mlpLabels pfx) := by
  have hgate : (if w.id "ffn_gate_inp.weight" = 0 then none else m.file.findTensor (pfx ++ "ffn_gate_exps.weight")) =
      if m.file.there pfx "ffn_gate_inp.weight" then m.file.findTensor (pfx ++ "ffn_gate_exps.weight") else none := by
    by_cases h0 : w.id "ffn_gate_inp.weight" = 0
    · rw [if_pos h0, if_neg fun hyes => (hold.found "ffn_gate_inp.weight" (by decide)).mpr hyes h0]
    · rw [if_neg h0, if_pos ((hold.found "ffn_gate_inp.weight" (by decide)).mp h0)]
  have hnorm := hold.found "ffn_norm.weight" (by decide)
  have hu := hold.found "ffn_up.weight" (by decide)
  have hd := hold.found "ffn_down.weight" (by decide)
  unfold mlp at h
  simp only [info, hgate] at h
  obtain ⟨mlpIn, b₁, h₁, h⟩ := step_ok h
  have p₁ : Traced b₀ b₁ ((mlpIn, []) :: env) (labels ++ (m.file.ffnNormNames pfx).flatMap (m.opt pfx)) := by
    unfold GgufHeader.ffnNormNames
    split at h₁
    · next h0 =>
      obtain ⟨rfl, rfl⟩ := pure_ok h₁
      rw [if_neg fun hyes => hnorm.mpr hyes h0]
      exact (p.learn hresid).relabel (by simp)
    · next hne =>
      obtain ⟨n2, b₁', hn2, h₁⟩ := step_ok h₁
      obtain ⟨_, b₁'', hadd, h₁⟩ := step_ok h₁
      obtain ⟨rfl, rfl⟩ := pure_ok h₁
      rw [if_pos (hnorm.mp hne)]
      have p' := normed_reads (p.tensor hn2) hadd (List.mem_cons_of_mem _ hresid)
        (List.mem_cons_of_mem _ (hold.mem "ffn_norm.weight" (by decide)))
        (List.mem_cons_of_mem _ (hold.mem "ffn_norm.bias" (by decide))) (hold.nil (by decide))
      refine p'.relabel ?_
      unfold GgufHeader.normNames
      split <;> simp
  have hold₁ : Listed m pfx w ((mlpIn, []) :: env) := hold.mono (by simp +contextual)
  unfold Banked mlpLabels
  split at h
  · next gate up down hg hup hdown =>
    have hbanks : m.file.banks pfx = some (gate, up, down) := by
      unfold GgufHeader.banks
      rw [hg, hup, hdown]
    obtain ⟨hbanked, p'⟩ := moe_reads p₁ h (by simp) (by simp [hresid]) hold₁
    rw [hbanks]
    refine ⟨fun _ _ _ hsame => ?_, (p'.weaken (by grind)).relabel (by simp)⟩
    cases hsame
    exact hbanked
  · next hno =>
    have hnone : m.file.banks pfx = none := by
      unfold GgufHeader.banks
      split
      · next gate up down hg hup hdown => exact absurd hdown (hno gate up down hg hup)
      · rfl
    rw [hnone]
    refine ⟨fun _ _ _ hsome => (by cases hsome), ?_⟩
    unfold GgufHeader.denseNames
    simp only [← hu, ← hd]
    split at h
    · next hmiss =>
      obtain ⟨rfl, rfl⟩ := pure_ok h
      rw [if_neg (by tauto)]
      exact ((p₁.learn (e := (resid1, [])) (by simp [hresid])).weaken (by grind)).relabel (by simp)
    · next hmats =>
      rw [if_pos (by tauto)]
      split at h
      · exact ((swiGlu_reads p₁ h (by simp) (by simp [hresid]) hold₁).weaken (by grind)).relabel (by simp)
      · next h0 =>
        exact ((dense_reads p₁ h (by simp) (by simp [hresid]) hold₁).weaken (by grind)).relabel
          (by simp [hold.nil (by decide) (not_not.mp h0)])

/-! ## The attention -/

theorem headNorm_reads (p : Traced b₀ b env labels) {dim : Int} (h : (m.headNorm pfx w name rest dim x).run b = .ok (t, b'))
    (hx : (x, []) ∈ env) (hold : Listed m pfx w env) (hrest : rest ∈ firstNames ++ lastNames) :
    Traced b₀ b' ((t, []) :: env) (labels ++ m.opt pfx rest) := by
  unfold headNorm at h
  exact p.orEmit h hx (hold.mem rest hrest) (hold.nil hrest)

variable [LinearOrder R]

theorem qkv_reads (p : Traced b₀ b env labels) {r : LayerQkv}
    (h : (if m.isMla pfx w then m.mlaQkv pfx w n1 else if w.id "attn_qkv.weight" ≠ 0 then m.fusedQkv pfx w n1
      else m.splitQkv pfx w n1).run b = .ok (r, b')) (hn1 : (n1, []) ∈ env) (hold : Listed m pfx w env) :
    Traced b₀ b' ((r.q, []) :: (r.k, []) :: (r.v, []) :: env) (labels ++ (m.file.qkvNames pfx).flatMap (m.opt pfx)) := by
  have hmla : m.isMla pfx w ↔ m.hasKvA pfx ∧ m.file.there pfx "attn_k_b.weight" ∧ m.file.there pfx "attn_v_b.weight" := by
    unfold isMla
    rw [hold.found "attn_k_b.weight" (by decide), hold.found "attn_v_b.weight" (by decide)]
  have hqkv := hold.found "attn_qkv.weight" (by decide)
  unfold hasKvA at hmla
  unfold GgufHeader.qkvNames
  simp only [GgufHeader.there] at hmla hqkv ⊢
  simp only [← hmla, ← hqkv]
  split at h
  · next hyes =>
    rw [if_pos hyes]
    exact mlaQkv_reads p h hn1 hold
  · next hno =>
    rw [if_neg hno]
    split at h
    · next hyes =>
      rw [if_pos hyes]
      exact fusedQkv_reads p h hn1 hold
    · next hno =>
      rw [if_neg hno]
      exact splitQkv_reads p h hn1 hold

theorem attention_reads {li : Nat} {features : TensorId} (p : Traced b₀ b env labels)
    (h : (m.attention li pfx w features).run b = .ok (t, b')) (hfeatures : (features, []) ∈ env) (hold : Listed m pfx w env) :
    Traced b₀ b' ((t, []) :: env) (labels ++ (m.file.attentionNames pfx).flatMap (m.opt pfx)) := by
  obtain ⟨n1, b₁, h₁, h⟩ := step_ok h
  obtain ⟨_, b₂, h₂, h⟩ := step_ok h
  obtain ⟨qkv, b₃, h₃, h⟩ := step_ok h
  obtain ⟨q, b₄, h₄, h⟩ := step_ok h
  obtain ⟨k, b₅, h₅, h⟩ := step_ok h
  obtain ⟨qRope, b₆, h₆, h⟩ := step_ok h
  obtain ⟨kRope, b₇, h₇, h⟩ := step_ok h
  obtain ⟨_, b₈, h₈, h⟩ := step_ok h
  obtain ⟨_, b₉, h₉, h⟩ := step_ok h
  obtain ⟨attn, b₁₀, h₁₀, h⟩ := step_ok h
  obtain ⟨attnO, b₁₁, h₁₁, h⟩ := step_ok h
  have p₂ := normed_reads (p.tensor h₁) h₂ (List.mem_cons_of_mem _ hfeatures)
    (List.mem_cons_of_mem _ (hold.mem "attn_norm.weight" (by decide)))
    (List.mem_cons_of_mem _ (hold.mem "attn_norm.bias" (by decide))) (hold.nil (by decide))
  have p₃ := qkv_reads p₂ h₃ (by simp) (hold.mono (by simp +contextual))
  have p₄ := headNorm_reads p₃ h₄ (by simp) (hold.mono (by simp +contextual)) (by decide)
  have p₅ := headNorm_reads p₄ h₅ (by simp) (hold.mono (by simp +contextual)) (by decide)
  have p₇ := (p₅.tensor h₆).tensor h₇
  have p₈ := p₇.node [(q, [])] h₈ (by simp)
  have p₉ := p₈.node [(k, [])] h₉ (by simp)
  have p₁₀ := p₉.emit [(qRope, []), (kRope, []), (qkv.v, [])] h₁₀ (by simp)
  have p₁₁ := p₁₀.emit [(attn, []), (w.id "attn_output.weight", m.opt pfx "attn_output.weight")] h₁₁
    (by simp [hold.mem "attn_output.weight" (by decide)])
  have p₁₂ := p₁₁.emit [(features, []), (attnO, [])] h (by simp [hfeatures])
  refine (p₁₂.top (by simp +contextual)).relabel ?_
  unfold GgufHeader.attentionNames GgufHeader.normNames
  split <;> simp

/-! ## The layers -/

theorem layer_reads {ins : List TensorId} {li : Nat} {features : TensorId} {r : Option (TensorId × Bool)}
    (p : Traced b₀ b env labels) (h : (m.layer li features).run b = .ok (r, b')) (hw : Wired ins b) (hfeatures : (features, []) ∈ env) :
    (r = none → Traced b₀ b' env labels) ∧
      ∀ t mla, r = some (t, mla) → m.Banked ("blk." ++ toText li ++ ".") ∧
        Traced b₀ b' ((t, []) :: env) (labels ++ m.layerLabels li) := by
  obtain ⟨w, b₁, h₁, h⟩ := step_ok h
  obtain ⟨env', p₁, hlisted⟩ := layerWeights_reads p h₁ hw
  have hold : Listed m ("blk." ++ toText li ++ ".") w (env' ++ env) := hlisted.mono fun e he => List.mem_append_left _ he
  have hin : (features, []) ∈ env' ++ env := List.mem_append_right _ hfeatures
  have hskip : Traced b₀ b₁ env labels := p₁.weaken fun e he => List.mem_append_right _ he
  have hblock : ∀ {b₂ : GraphBuilder R} {mla : Bool}, (do
      let resid1 ← m.attention li ("blk." ++ toText li ++ ".") w features
      let features ← m.mlp ("blk." ++ toText li ++ ".") w resid1
      pure (some (features, mla)) : Build R (Option (TensorId × Bool))).run b₁ = .ok (r, b₂) →
      (r = none → Traced b₀ b₂ env labels) ∧
        ∀ t mla, r = some (t, mla) → m.Banked ("blk." ++ toText li ++ ".") ∧
          Traced b₀ b₂ ((t, []) :: env) (labels ++ m.layerLabels li) := by
    intro b₂ mla h
    obtain ⟨resid1, b₃, h₃, h⟩ := step_ok h
    obtain ⟨f, b₄, h₄, h⟩ := step_ok h
    obtain ⟨rfl, rfl⟩ := pure_ok h
    have p₃ := attention_reads p₁ h₃ hin hold
    obtain ⟨hbanked, p₄⟩ := mlp_reads p₃ h₄ (by simp) (hold.mono (by simp +contextual))
    refine ⟨fun hno => (by cases hno), fun t mla ht => ⟨hbanked, ?_⟩⟩
    cases ht
    refine (p₄.top (by simp +contextual)).relabel ?_
    rw [layerLabels, List.append_assoc]
  split at h
  · obtain ⟨rfl, rfl⟩ := pure_ok h
    exact ⟨fun _ => hskip, fun t mla ht => (by cases ht)⟩
  split at h
  · obtain ⟨_, b₂, h₂, h⟩ := step_ok h
    obtain ⟨-, rfl⟩ := refuseIf_ok h₂
    obtain ⟨_, b₃, h₃, h⟩ := step_ok h
    obtain ⟨-, rfl⟩ := refuseIf_ok h₃
    exact hblock h
  split at h
  · obtain ⟨rfl, rfl⟩ := pure_ok h
    exact ⟨fun _ => hskip, fun t mla ht => (by cases ht)⟩
  · exact hblock h

/-- The loop reads the weights of the layers up to the first that is not complete. -/
theorem layers_reads {ins : List TensorId} : ∀ {remaining li : Nat} {features : TensorId} {anyMla : Bool} {b b' : GraphBuilder R}
    {env : List (TensorId × List Label)} {labels : List Label} {r : TensorId × Bool}, Traced b₀ b env labels →
    (m.layers remaining li features anyMla).run b = .ok (r, b') → Wired ins b → Ready ins b features → (features, []) ∈ env →
    ∃ n ≤ remaining, Traced b₀ b' ((r.1, []) :: env) (labels ++ (List.range' li n).flatMap m.layerLabels) ∧
      (∀ i, li ≤ i → i < li + n → m.file.Complete i ∧ m.Banked ("blk." ++ toText i ++ ".")) ∧
      (n < remaining → ¬ m.file.Complete (li + n))
  | 0, li, features, anyMla, b, _, env, labels, r, p, h, hw, hready, hin => by
    obtain ⟨rfl, rfl⟩ := pure_ok h
    exact ⟨0, Nat.le_refl _, (p.learn hin).relabel (by simp), by omega, by omega⟩
  | remaining + 1, li, features, anyMla, b, _, env, labels, r, p, h, hw, hready, hin => by
    obtain ⟨o, b₁, h₁, h⟩ := step_ok h
    obtain ⟨hnone, hsome⟩ := layer_reads p h₁ hw hin
    rcases layer_built h₁ hw hready with ⟨rfl, hno, -⟩ | ⟨f, mla, rfl, hcomplete, g, hf⟩
    · obtain ⟨rfl, rfl⟩ := pure_ok h
      exact ⟨0, Nat.zero_le _, ((hnone rfl).learn hin).relabel (by simp), by omega, fun _ => hno⟩
    · obtain ⟨hbanked, p₁⟩ := hsome f mla rfl
      obtain ⟨n, hle, p', hall, hstop⟩ := layers_reads p₁ h g.wired hf List.mem_cons_self
      refine ⟨n + 1, by omega, ?_, ?_, fun hlt => ?_⟩
      · refine (p'.top (by simp +contextual)).relabel ?_
        rw [List.range'_succ, List.flatMap_cons, List.append_assoc]
      · rw [forall_layers_succ]
        exact ⟨⟨hcomplete, hbanked⟩, hall⟩
      · have hno := hstop (by omega)
        rwa [show li + 1 + n = li + (n + 1) by omega] at hno

/-! ## The graph -/

/-- The names of the tensors outside the layers that the graph reads. -/
def outerNames : List String :=
  ["token_embd.weight", "embed.weight", "model.embed_tokens.weight", "token_embd", "output.weight", "lm_head.weight", "output",
    "output_norm.weight", "norm.weight", "output_norm", "output_norm.bias"]

/-- A weight from outside the layers. -/
def Outer (m : GgufImport R) (l : Label) : Prop := l.1 ∈ outerNames ∧ l.2 = m.ref l.1

end GgufImport

theorem GgufHeader.findTensorAny_name {file : GgufHeader} {names : List String} {ti : GgufTensorInfo}
    (h : file.findTensorAny names = some ti) : ti.name ∈ names := by
  obtain ⟨name, hname, hfind⟩ := List.exists_of_findSome?_eq_some h
  have hsame : ti.name = name := by simpa using List.find?_some hfind
  rwa [hsame]

namespace GgufImport

variable {m : GgufImport R} {b₀ b b' : GraphBuilder R} {env : List (TensorId × List Label)} {labels : List Label} {t : TensorId}
  {u : Unit}

theorem fileWeight_reads {ti : GgufTensorInfo} (p : Traced b₀ b env labels) (h : (m.fileWeight ti).run b = .ok (t, b'))
    (hname : ti.name ∈ outerNames) : ∃ ls, Traced b₀ b' ((t, ls) :: env) labels ∧ t ≠ 0 ∧ ∀ l ∈ ls, Outer m l := by
  obtain ⟨p', hne⟩ := p.weight h
  exact ⟨_, p', hne, by simp [Outer, hname]⟩

variable [Field R]

theorem outNorm_reads {features : TensorId} (p : Traced b₀ b env labels) (h : (m.outNorm features).run b = .ok (t, b'))
    (hfeatures : (features, []) ∈ env) : ∃ ls, Traced b₀ b' ((t, []) :: env) (labels ++ ls) ∧ ∀ l ∈ ls, Outer m l := by
  unfold outNorm at h
  split at h
  · obtain ⟨rfl, rfl⟩ := pure_ok h
    exact ⟨[], (p.learn hfeatures).relabel (by simp), by simp⟩
  · next norm hnorm =>
    obtain ⟨_, b₁, h₁, h⟩ := step_ok h
    obtain ⟨-, rfl⟩ := refuseIf_ok h₁
    obtain ⟨nw, b₂, h₂, h⟩ := step_ok h
    obtain ⟨nb, b₃, h₃, h⟩ := step_ok h
    obtain ⟨nout, b₄, h₄, h⟩ := step_ok h
    obtain ⟨_, b₅, h₅, h⟩ := step_ok h
    obtain ⟨rfl, rfl⟩ := pure_ok h
    have hname : norm.name ∈ outerNames := by
      have hmem := GgufHeader.findTensorAny_name hnorm
      simp only [List.mem_cons, List.not_mem_nil, or_false] at hmem
      rcases hmem with he | he | he <;> rw [he] <;> decide
    obtain ⟨lw, p₂, -, hlw⟩ := fileWeight_reads p h₂ hname
    have hbias : ∃ lb, Traced b₀ b₃ ((nb, lb) :: (nw, lw) :: env) labels ∧ (nb = 0 → lb = []) ∧ ∀ l ∈ lb, Outer m l := by
      split at h₃
      · next bias hfind =>
        split at h₃
        · have hbname : bias.name = "output_norm.bias" := by simpa using List.find?_some hfind
          obtain ⟨lb, p₃, hne, hlb⟩ := fileWeight_reads p₂ h₃ (by rw [hbname]; decide)
          exact ⟨lb, p₃, fun h0 => absurd h0 hne, hlb⟩
        · obtain ⟨rfl, rfl⟩ := pure_ok h₃
          exact ⟨[], p₂.zero, by simp, by simp⟩
      · obtain ⟨rfl, rfl⟩ := pure_ok h₃
        exact ⟨[], p₂.zero, by simp, by simp⟩
    obtain ⟨lb, p₃, hnil, hlb⟩ := hbias
    have p₅ := normed_reads (p₃.tensor h₄) h₅ (by simp [hfeatures]) (show (nw, lw) ∈ _ by simp) (show (nb, lb) ∈ _ by simp) hnil
    refine ⟨_, p₅.top (by simp +contextual), fun l hl => ?_⟩
    rcases List.mem_append.mp hl with hl | hl
    · exact hlw l hl
    · split at hl
      · exact hlb l hl
      · cases hl

variable [LinearOrder R]

/-- The weights that the graph reads: those of the layers that the loop has taken, and a few from outside them. -/
theorem model_reads {floatText : R → String} {nLayers vocab : Int} {emb lm : GgufTensorInfo}
    (h : (m.model floatText nLayers vocab emb lm).run b = .ok (u, b')) (hw : Wired [] b) (hd : Declared b)
    (hemb : m.file.emb = some emb) (hlm : m.file.lm = some lm) :
    ∃ n ≤ nLayers.toNat, ∃ before after, b'.graph.weightsRead = b.graph.weightsRead ++ before ++ (List.range n).flatMap m.layerLabels ++ after ∧
      (∀ l ∈ before ++ after, Outer m l) ∧ (∀ i < n, m.file.Complete i ∧ m.Banked ("blk." ++ toText i ++ ".")) ∧
      (n < nLayers.toNat → ¬ m.file.Complete n) ∧ b'.graph.layersEntry = some ("n_layers", toText nLayers) := by
  obtain ⟨_, b₁, h₁, h⟩ := step_ok h
  obtain ⟨tokens, b₂, h₂, h⟩ := step_ok h
  obtain ⟨_, b₃, h₃, h⟩ := step_ok h
  obtain ⟨-, rfl⟩ := refuseIf_ok h₃
  obtain ⟨embW, b₄, h₄, h⟩ := step_ok h
  obtain ⟨hidden, b₅, h₅, h⟩ := step_ok h
  obtain ⟨⟨features, anyMla⟩, b₆, h₆, h⟩ := step_ok h
  obtain ⟨_, b₇, h₇, h⟩ := step_ok h
  obtain ⟨normed, b₈, h₈, h⟩ := step_ok h
  obtain ⟨_, b₉, h₉, h⟩ := step_ok h
  obtain ⟨-, rfl⟩ := refuseIf_ok h₉
  obtain ⟨lmW, b₁₀, h₁₀, h⟩ := step_ok h
  obtain ⟨logits, b₁₁, h₁₁, h⟩ := step_ok h
  obtain ⟨probs, b₁₂, h₁₂, h⟩ := step_ok h
  obtain ⟨_, b₁₃, h₁₃, h⟩ := step_ok h
  have hnames : emb.name ∈ outerNames ∧ lm.name ∈ outerNames := by
    have hembName : emb.name ∈ outerNames := by
      have hmem := GgufHeader.findTensorAny_name hemb
      simp only [List.mem_cons, List.not_mem_nil, or_false] at hmem
      rcases hmem with he | he | he | he <;> rw [he] <;> decide
    refine ⟨hembName, ?_⟩
    unfold GgufHeader.lm at hlm
    split at hlm
    · obtain rfl := Option.some.inj (hemb.symm.trans hlm)
      exact hembName
    · have hmem := GgufHeader.findTensorAny_name hlm
      simp only [List.mem_cons, List.not_mem_nil, or_false] at hmem
      rcases hmem with he | he | he <;> rw [he] <;> decide
  have q₅ := ((Progress.begin (addMetadata_grows h₁ hw ranksMetadata_keys).wired h₂).weight h₄).emit h₅ (by decide) (by simp)
  have p₂ := ((Traced.start hd).metadata h₁).tensor h₂
  obtain ⟨le, p₄, -, hle⟩ := fileWeight_reads p₂ h₄ hnames.1
  have p₅ := p₄.emit [(tokens, []), (embW, le)] h₅ (by simp)
  obtain ⟨n, hn, p₆, hall, hstop⟩ := layers_reads p₅ h₆ q₅.wired (q₅.ready hidden (by simp)) List.mem_cons_self
  obtain ⟨ln, p₈, hln⟩ := outNorm_reads (p₆.metadata h₇) h₈ List.mem_cons_self
  have p₁₀ : ∃ ll, Traced b b₁₀ [(lmW, ll), (normed, [])] (le ++ (List.range n).flatMap m.layerLabels ++ ln) ∧ ∀ l ∈ ll, Outer m l := by
    replace p₈ : Traced b b₈ _ (le ++ (List.range n).flatMap m.layerLabels ++ ln) := p₈.relabel (by simp [List.range_eq_range'])
    split at h₁₀
    · obtain ⟨rfl, rfl⟩ := pure_ok h₁₀
      exact ⟨le, p₈.weaken (by simp), hle⟩
    · obtain ⟨ll, p', -, hll⟩ := fileWeight_reads p₈ h₁₀ hnames.2
      exact ⟨ll, p'.weaken (by simp), hll⟩
  obtain ⟨ll, p₁₀, hll⟩ := p₁₀
  have p₁₁ := p₁₀.emit [(normed, []), (lmW, ll)] h₁₁ (by simp)
  have p₁₂ := p₁₁.emit [(logits, [])] h₁₂ (by simp)
  have p₁₃ := (p₁₂.io h₁₃).metadata h
  refine ⟨n, hn, le, ln ++ ll, ?_, ?_, by simpa using hall, by simpa using hstop, ?_⟩
  · rw [p₁₃.reads]
    simp
  · intro l hl
    simp only [List.mem_append] at hl
    rcases hl with hl | hl | hl
    · exact hle l hl
    · exact hln l hl
    · exact hll l hl
  · rw [(addMetadata_run h).2.2.2, layersEntry_end, Option.some_or]

end GgufImport

end Uaii.Loaders
