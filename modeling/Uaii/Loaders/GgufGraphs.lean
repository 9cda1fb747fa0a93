/-
  Uaii.Loaders.GgufGraphs — when the graph of a GGUF file is well built and its Attention
  nodes are the layers that its metadata counts.

  The ids, the producers and the order are right of every graph: a weight is read only
  where it was found. The count is right if every layer has what its attention needs; the
  loop stops at the first layer that has not, and the metadata counts on.
-/

import Uaii.Loaders.GgufLoad
import Uaii.Loaders.LoadedGraphs

namespace Uaii.Loaders

open Uaii.Ir Uaii.Ir.Build
open Uaii.Runtime (metaI64)

variable {R : Type} {ins : List TensorId} {b₀ b b' : GraphBuilder R} {known waiting : List TensorId} {ms : List Mark}
  {t x y : TensorId} {name pfx rest : String} {u : Unit}

/-! ## The weights of a layer -/

namespace GgufImport

variable {m : GgufImport R} {w : LayerWeights}

theorem addWeightRef_grows (h : (m.addWeightRef name).run b = .ok (t, b')) (hw : Wired ins b) :
    Grows ins b b' [] [] ∧ Optional ins b' t ∧ (t ≠ 0 ↔ m.file.has name) := by
  unfold addWeightRef at h
  split at h
  · next hnone =>
    obtain ⟨rfl, rfl⟩ := pure_ok h
    exact ⟨.refl hw, .inl rfl, by simp [GgufHeader.has, hnone]⟩
  · next ti hsome =>
    obtain ⟨_, b₁, h₁, h⟩ := step_ok h
    obtain ⟨-, rfl⟩ := refuseIf_ok h₁
    obtain ⟨g, hready, hne⟩ := weight_grows h hw
    exact ⟨g, .inr hready, by simp [GgufHeader.has, hsome, hne]⟩

/-- The entries are of tensors that can be read, and 0 for those that are not there. -/
def Fetched (m : GgufImport R) (pfx : String) (ins : List TensorId) (b : GraphBuilder R) (w : LayerWeights) : Prop :=
  ∀ e ∈ w, Optional ins b e.2 ∧ (e.2 ≠ 0 ↔ m.file.has (pfx ++ e.1))

theorem Fetched.grows {outs : List TensorId} (h : Fetched m pfx ins b w) (g : Grows ins b b' outs ms) : Fetched m pfx ins b' w :=
  fun e he => ⟨g.optional (h e he).1, (h e he).2⟩

theorem Fetched.append {w' : LayerWeights} (h : Fetched m pfx ins b w) (h' : Fetched m pfx ins b w') :
    Fetched m pfx ins b (w ++ w') := fun e he => (List.mem_append.mp he).elim (h e) (h' e)

theorem Fetched.id_iff (h : Fetched m pfx ins b w) (hrest : rest ∈ w.map (·.1)) : w.id rest ≠ 0 ↔ m.file.has (pfx ++ rest) := by
  obtain ⟨e, he, rfl⟩ := List.mem_map.mp hrest
  unfold LayerWeights.id
  cases hfind : w.find? (·.1 == e.1) with
  | none => exact absurd (List.find?_eq_none.mp hfind e he) (by simp)
  | some e' =>
    have hname : e'.1 = e.1 := by simpa using List.find?_some hfind
    have hiff := (h e' (List.mem_of_find?_eq_some hfind)).2
    rwa [hname] at hiff

theorem addWeightRefs_grows : ∀ {rests : List String} {b b' : GraphBuilder R} {w : LayerWeights},
    (m.addWeightRefs pfx rests).run b = .ok (w, b') → Wired ins b →
    Grows ins b b' [] [] ∧ Fetched m pfx ins b' w ∧ w.map (·.1) = rests
  | [], b, _, w, h, hw => by
    obtain ⟨rfl, rfl⟩ := pure_ok h
    exact ⟨.refl hw, by simp [Fetched], rfl⟩
  | rest :: rests, b, _, w, h, hw => by
    obtain ⟨t, b₁, h₁, h⟩ := step_ok h
    obtain ⟨w', b₂, h₂, h⟩ := step_ok h
    obtain ⟨rfl, rfl⟩ := pure_ok h
    obtain ⟨g₁, ho, ht⟩ := addWeightRef_grows h₁ hw
    obtain ⟨g₂, hf, hnames⟩ := addWeightRefs_grows h₂ g₁.wired
    refine ⟨g₁.trans g₂, ?_, by simp [hnames]⟩
    exact List.forall_mem_cons.mpr ⟨⟨g₂.optional ho, ht⟩, hf⟩

theorem layerWeights_grows (h : (m.layerWeights pfx).run b = .ok (w, b')) (hw : Wired ins b) :
    Grows ins b b' [] [] ∧ Fetched m pfx ins b' w ∧ (∀ rest ∈ firstNames ++ lastNames, w.id rest ≠ 0 ↔ m.file.has (pfx ++ rest)) ∧
      (w.kvA ≠ 0 ↔ m.hasKvA pfx) := by
  obtain ⟨first, b₁, h₁, h⟩ := step_ok h
  obtain ⟨kvA, b₂, h₂, h⟩ := step_ok h
  obtain ⟨last, b₃, h₃, h⟩ := step_ok h
  obtain ⟨rfl, rfl⟩ := pure_ok h
  obtain ⟨g₁, f₁, n₁⟩ := addWeightRefs_grows h₁ hw
  have hkvA : Grows ins b₁ b₂ [] [] ∧ Fetched m pfx ins b₂ kvA ∧
      (first.id "attn_kv_a_mqa.weight" = 0 → "attn_kv_a.weight" ∈ kvA.map (·.1)) := by
    split at h₂
    · obtain ⟨g₂, f₂, n₂⟩ := addWeightRefs_grows h₂ g₁.wired
      exact ⟨g₂, f₂, fun _ => by simp [n₂]⟩
    · next hne =>
      obtain ⟨rfl, rfl⟩ := pure_ok h₂
      exact ⟨.refl g₁.wired, by simp [Fetched], fun h0 => absurd h0 hne⟩
  obtain ⟨g₂, f₂, n₂⟩ := hkvA
  obtain ⟨g₃, f₃, n₃⟩ := addWeightRefs_grows h₃ g₂.wired
  have hf := (((f₁.grows g₂).append f₂).grows g₃).append f₃
  have hid : ∀ rest ∈ firstNames ++ lastNames, (first ++ kvA ++ last).id rest ≠ 0 ↔ m.file.has (pfx ++ rest) := by
    intro rest hrest
    refine hf.id_iff ?_
    rw [List.map_append, List.map_append, n₁, n₃]
    simp only [List.mem_append] at hrest ⊢
    tauto
  refine ⟨(g₁.trans g₂).trans g₃, hf, hid, ?_⟩
  have hmqa := hid "attn_kv_a_mqa.weight" (by decide)
  have hfirst : first.id "attn_kv_a_mqa.weight" ≠ 0 ↔ m.file.has (pfx ++ "attn_kv_a_mqa.weight") := f₁.id_iff (by rw [n₁]; decide)
  unfold LayerWeights.kvA hasKvA
  split
  · next h0 =>
    have hno : first.id "attn_kv_a_mqa.weight" = 0 := by
      by_contra hne
      exact hmqa.mpr (hfirst.mp hne) h0
    have hmem : "attn_kv_a.weight" ∈ (first ++ kvA ++ last).map (·.1) := by
      rw [List.map_append, List.map_append]
      exact List.mem_append_left _ (List.mem_append_right _ (n₂ hno))
    rw [hf.id_iff hmem, Bool.or_eq_true]
    exact ⟨.inr, fun hor => hor.resolve_left fun hyes => hmqa.mpr hyes h0⟩
  · next hne =>
    rw [Bool.or_eq_true]
    exact ⟨fun _ => .inl (hmqa.mp hne), fun _ => hne⟩

/-- The weights that were found are known. -/
def Holds (w : LayerWeights) (known : List TensorId) : Prop := ∀ rest, w.id rest ≠ 0 → w.id rest ∈ known

/-- The ids that are not 0. -/
def found (w : LayerWeights) : List TensorId := (w.map (·.2)).filter (· ≠ 0)

theorem found_holds (w : LayerWeights) : Holds w (found w) := by
  intro rest hne
  unfold LayerWeights.id at hne ⊢
  cases hfind : w.find? (·.1 == rest) with
  | none => simp [hfind] at hne
  | some e =>
    rw [hfind] at hne
    simpa [found, hfind] using ⟨⟨e.1, List.mem_of_find?_eq_some hfind⟩, by simpa using hne⟩

theorem Holds.mono {known' : List TensorId} (h : Holds w known) (hsub : known ⊆ known') : Holds w known' :=
  fun rest hne => hsub (h rest hne)

theorem Fetched.found_ready (h : Fetched m pfx ins b w) : ∀ x ∈ found w, Ready ins b x := by
  intro x hx
  simp only [found, List.mem_filter, List.mem_map, decide_eq_true_eq] at hx
  obtain ⟨⟨e, he, rfl⟩, hne⟩ := hx
  exact (h e he).1.resolve_left hne

theorem Holds.kvA (h : Holds w known) (hne : w.kvA ≠ 0) : w.kvA ∈ known := by
  unfold LayerWeights.kvA at hne ⊢
  split
  · next h0 =>
    rw [if_pos h0] at hne
    exact h _ hne
  · next h0 => exact h _ h0

/-! ## The query, the keys and the values -/

variable {n1 : TensorId}

section Projections

variable [Field R]

theorem normed (before after : List TensorId) (p : Progress ins b₀ b known (before ++ y :: after) ms) {ln rms : String}
    {weight bias : TensorId} (h : (m.addNorm ln rms x weight bias y).run b = .ok (u, b')) (hx : x ∈ known)
    (hweight : weight ∈ known) (hbias : bias ≠ 0 → bias ∈ known) : Progress ins b₀ b' (y :: known) (before ++ after) ms := by
  unfold addNorm at h
  split at h
  · next hne => exact p.fill before after h (by decide) (by simp [hx, hweight, hbias hne.2])
  · exact p.fill before after h (by decide) (by simp [hx, hweight])

theorem mlaQ_built (p : Progress ins b₀ b known waiting ms) (h : (m.mlaQ pfx w n1).run b = .ok (t, b')) (hn1 : n1 ∈ known)
    (hold : Holds w known) : Progress ins b₀ b' (t :: known) waiting ms := by
  unfold mlaQ at h
  split at h
  · next hlora =>
    obtain ⟨_, b₁, h₁, h⟩ := step_ok h
    obtain ⟨-, rfl⟩ := refuseIf_ok h₁
    obtain ⟨qa, b₂, h₂, h⟩ := step_ok h
    obtain ⟨qaN, b₃, h₃, h⟩ := step_ok h
    have p₂ := p.emit h₂ (by decide) (by simp [hn1, hold _ hlora.1])
    have p₃ : Progress ins b₀ b₃ (qaN :: known) waiting ms := by
      split at h₃
      · next hne => exact (p₂.emit h₃ (by decide) (by simp [hold _ hne])).weaken (by grind)
      · obtain ⟨rfl, rfl⟩ := pure_ok h₃
        exact p₂
    exact (p₃.emit h (by decide) (by simp [hold _ hlora.2])).weaken (by grind)
  split at h
  · next hne => exact p.emit h (by decide) (by simp [hn1, hold _ hne])
  · cases h

theorem mlaLatent_built (p : Progress ins b₀ b known waiting ms) {r : TensorId × TensorId}
    (h : (m.mlaLatent pfx w n1).run b = .ok (r, b')) (hn1 : n1 ∈ known) (hold : Holds w known) (hkvA : w.kvA ≠ 0) :
    Progress ins b₀ b' (r.1 :: r.2 :: known) waiting ms := by
  obtain ⟨_, b₁, h₁, h⟩ := step_ok h
  obtain ⟨-, rfl⟩ := refuseIf_ok h₁
  obtain ⟨kvc, b₂, h₂, h⟩ := step_ok h
  obtain ⟨latent, b₃, h₃, h⟩ := step_ok h
  have p₂ := p.emit h₂ (by decide) (by simp [hn1, hold.kvA hkvA])
  have p₃ : Progress ins b₀ b₃ (latent :: kvc :: known) waiting ms := by
    split at h₃
    · obtain ⟨_, b₃', hfit, h₃⟩ := step_ok h₃
      obtain ⟨-, rfl⟩ := refuseIf_ok hfit
      exact p₂.emit h₃ (by decide) (by simp)
    · obtain ⟨rfl, rfl⟩ := pure_ok h₃
      exact p₂.weaken (by simp)
  split at h
  · next hne =>
    obtain ⟨_, b₄, h₄, h⟩ := step_ok h
    obtain ⟨-, rfl⟩ := refuseIf_ok h₄
    obtain ⟨latN, b₅, h₅, h⟩ := step_ok h
    obtain ⟨rfl, rfl⟩ := pure_ok h
    exact (p₃.emit h₅ (by decide) (by simp [hold _ hne])).weaken (by grind)
  · obtain ⟨rfl, rfl⟩ := pure_ok h
    exact p₃.weaken (by grind)

theorem mlaAssemble_built (p : Progress ins b₀ b known waiting ms) {kvc : TensorId} {qkv r : LayerQkv}
    (h : (m.mlaAssemble pfx kvc qkv).run b = .ok (r, b')) (hkvc : kvc ∈ known) (hq : qkv.q ∈ known) (hk : qkv.k ∈ known)
    (hv : qkv.v ∈ known) : Progress ins b₀ b' (r.q :: r.k :: r.v :: known) waiting ms := by
  obtain ⟨_, b₁, h₁, h⟩ := step_ok h
  obtain ⟨-, rfl⟩ := refuseIf_ok h₁
  obtain ⟨kPe, b₂, h₂, h⟩ := step_ok h
  obtain ⟨kPeR, b₃, h₃, h⟩ := step_ok h
  obtain ⟨kFull, b₄, h₄, h⟩ := step_ok h
  obtain ⟨rfl, rfl⟩ := pure_ok h
  have p₃ := (p.emit h₂ (by decide) (by simp [hkvc])).emit h₃ (by decide) (by simp)
  have p₄ := p₃.emit h₄ (by decide) (by simp [hk])
  exact p₄.weaken (by grind)

theorem mlaQkv_built [LinearOrder R] (p : Progress ins b₀ b known waiting ms) {r : LayerQkv} (h : (m.mlaQkv pfx w n1).run b = .ok (r, b'))
    (hn1 : n1 ∈ known) (hold : Holds w known) (hmla : m.isMla pfx w) (hkvA : w.kvA ≠ 0) :
    Progress ins b₀ b' (r.q :: r.k :: r.v :: known) waiting ms := by
  obtain ⟨_, b₁, h₁, h⟩ := step_ok h
  obtain ⟨-, rfl⟩ := refuseIf_ok h₁
  obtain ⟨q, b₂, h₂, h⟩ := step_ok h
  obtain ⟨⟨kvc, latent⟩, b₃, h₃, h⟩ := step_ok h
  obtain ⟨k, b₄, h₄, h⟩ := step_ok h
  obtain ⟨v, b₅, h₅, h⟩ := step_ok h
  obtain ⟨_, b₆, h₆, h⟩ := step_ok h
  obtain ⟨_, b₇, h₇, h⟩ := step_ok h
  have p₂ := mlaQ_built p h₂ hn1 hold
  have p₃ := mlaLatent_built p₂ h₃ (by simp [hn1]) (hold.mono (by simp)) hkvA
  have p₅ := (p₃.tensor h₄).tensor h₅
  have p₆ := p₅.fill [v] waiting h₆ (by decide) (by simp [hold _ hmla.2.1])
  have p₇ := p₆.fill [] waiting h₇ (by decide) (by simp [hold _ hmla.2.2])
  split at h
  · exact (mlaAssemble_built p₇ h (by simp) (by simp) (by simp) (by simp)).weaken (by grind)
  · obtain ⟨rfl, rfl⟩ := pure_ok h
    exact p₇.weaken (by grind)

end Projections

theorem biased (p : Progress ins b₀ b known waiting ms) {dim : Int} {bias : TensorId}
    (h : (maybeAdd pfx name dim x bias).run b = .ok (t, b')) (hx : x ∈ known) (hbias : bias ≠ 0 → bias ∈ known) :
    Progress ins b₀ b' (t :: known) waiting ms := by
  unfold maybeAdd at h
  split at h
  · obtain ⟨rfl, rfl⟩ := pure_ok h
    exact p.learn (p.ready x hx)
  · next hne => exact p.emit h (by decide) (by simp [hx, hbias hne])

theorem fusedQkv_built (p : Progress ins b₀ b known waiting ms) {r : LayerQkv} (h : (m.fusedQkv pfx w n1).run b = .ok (r, b'))
    (hn1 : n1 ∈ known) (hold : Holds w known) (hqkv : w.id "attn_qkv.weight" ≠ 0) :
    Progress ins b₀ b' (r.q :: r.k :: r.v :: known) waiting ms := by
  obtain ⟨proj, b₁, h₁, h⟩ := step_ok h
  obtain ⟨qkv, b₂, h₂, h⟩ := step_ok h
  obtain ⟨q, b₃, h₃, h⟩ := step_ok h
  obtain ⟨k, b₄, h₄, h⟩ := step_ok h
  obtain ⟨v, b₅, h₅, h⟩ := step_ok h
  obtain ⟨_, b₆, h₆, h⟩ := step_ok h
  obtain ⟨_, b₇, h₇, h⟩ := step_ok h
  obtain ⟨_, b₈, h₈, h⟩ := step_ok h
  obtain ⟨rfl, rfl⟩ := pure_ok h
  have p₁ := p.emit h₁ (by decide) (by simp [hn1, hold _ hqkv])
  have p₂ := biased p₁ h₂ (by simp) fun hne => List.mem_cons_of_mem _ (hold _ hne)
  have p₅ := ((p₂.tensor h₃).tensor h₄).tensor h₅
  have p₆ := p₅.fill [v, k] waiting h₆ (by decide) (by simp)
  have p₇ := p₆.fill [v] waiting h₇ (by decide) (by simp)
  have p₈ := p₇.fill [] waiting h₈ (by decide) (by simp)
  exact p₈.weaken (by simp [denseQkv]; grind)

theorem splitQkv_built (p : Progress ins b₀ b known waiting ms) {r : LayerQkv} (h : (m.splitQkv pfx w n1).run b = .ok (r, b'))
    (hn1 : n1 ∈ known) (hold : Holds w known) (hsplit : w.splitQkv) :
    Progress ins b₀ b' (r.q :: r.k :: r.v :: known) waiting ms := by
  obtain ⟨hq, hk, hv⟩ := hsplit
  obtain ⟨qProj, b₁, h₁, h⟩ := step_ok h
  obtain ⟨kProj, b₂, h₂, h⟩ := step_ok h
  obtain ⟨vProj, b₃, h₃, h⟩ := step_ok h
  obtain ⟨_, b₄, h₄, h⟩ := step_ok h
  obtain ⟨_, b₅, h₅, h⟩ := step_ok h
  obtain ⟨_, b₆, h₆, h⟩ := step_ok h
  obtain ⟨q, b₇, h₇, h⟩ := step_ok h
  obtain ⟨k, b₈, h₈, h⟩ := step_ok h
  obtain ⟨v, b₉, h₉, h⟩ := step_ok h
  obtain ⟨rfl, rfl⟩ := pure_ok h
  have p₃ := ((p.tensor h₁).tensor h₂).tensor h₃
  have p₄ := p₃.fill [vProj, kProj] waiting h₄ (by decide) (by simp [hn1, hold _ hq])
  have p₅ := p₄.fill [vProj] waiting h₅ (by decide) (by simp [hn1, hold _ hk])
  have p₆ := p₅.fill [] waiting h₆ (by decide) (by simp [hn1, hold _ hv])
  have p₇ := biased p₆ h₇ (by simp) fun hne => by simp [hold _ hne]
  have p₈ := biased p₇ h₈ (by simp) fun hne => by simp [hold _ hne]
  have p₉ := biased p₈ h₉ (by simp) fun hne => by simp [hold _ hne]
  exact p₉.weaken (by simp [denseQkv]; grind)

/-! ## The feed-forward block -/

theorem experts_built {gate up down : GgufTensorInfo} : ∀ {remaining e : Nat} {b b' : GraphBuilder R} {known r : List TensorId},
    Progress ins b₀ b known waiting ms → (m.experts pfx gate up down remaining e).run b = .ok (r, b') →
    Progress ins b₀ b' (r ++ known) waiting ms
  | 0, e, b, _, known, r, p, h => by
    obtain ⟨rfl, rfl⟩ := pure_ok h
    exact p
  | remaining + 1, e, b, _, known, r, p, h => by
    obtain ⟨ge, b₁, h₁, h⟩ := step_ok h
    obtain ⟨ue, b₂, h₂, h⟩ := step_ok h
    obtain ⟨de, b₃, h₃, h⟩ := step_ok h
    obtain ⟨moeIns, b₄, h₄, h⟩ := step_ok h
    obtain ⟨rfl, rfl⟩ := pure_ok h
    have p₃ := ((p.weight h₁).weight h₂).weight h₃
    exact (experts_built p₃ h₄).weaken (by grind)

variable {mlpIn resid1 : TensorId}

theorem sharedExpert_built {ffOut : TensorId} (p : Progress ins b₀ b known waiting ms)
    (h : (m.sharedExpert pfx w mlpIn ffOut).run b = .ok (t, b')) (hx : mlpIn ∈ known) (hff : ffOut ∈ known) (hold : Holds w known) :
    Progress ins b₀ b' (t :: known) waiting ms := by
  unfold sharedExpert at h
  split at h
  · obtain ⟨rfl, rfl⟩ := pure_ok h
    exact p.learn (p.ready _ hff)
  · next hne =>
    simp only [not_or] at hne
    obtain ⟨hg, hu, hd⟩ := hne
    obtain ⟨sg, b₁, h₁, h⟩ := step_ok h
    obtain ⟨su, b₂, h₂, h⟩ := step_ok h
    obtain ⟨_, b₃, h₃, h⟩ := step_ok h
    obtain ⟨_, b₄, h₄, h⟩ := step_ok h
    obtain ⟨sga, b₅, h₅, h⟩ := step_ok h
    obtain ⟨shid, b₆, h₆, h⟩ := step_ok h
    obtain ⟨sout, b₇, h₇, h⟩ := step_ok h
    have p₂ := (p.tensor h₁).tensor h₂
    have p₃ := p₂.fill [su] waiting h₃ (by decide) (by simp [hx, hold _ hg])
    have p₄ := p₃.fill [] waiting h₄ (by decide) (by simp [hx, hold _ hu])
    have p₅ := p₄.emit h₅ (by decide) (by simp)
    have p₆ := p₅.emit h₆ (by decide) (by simp)
    have p₇ := p₆.emit h₇ (by decide) (by simp [hold _ hd])
    exact (p₇.emit h (by decide) (by simp [hff])).weaken (by grind)

theorem moe_built (p : Progress ins b₀ b known waiting ms) {gate up down : GgufTensorInfo}
    (h : (m.moe pfx w mlpIn resid1 gate up down).run b = .ok (t, b')) (hx : mlpIn ∈ known) (hresid : resid1 ∈ known)
    (hold : Holds w known) (hgate : w.id "ffn_gate_inp.weight" ≠ 0) : Progress ins b₀ b' (t :: known) waiting ms := by
  obtain ⟨_, b₁, h₁, h⟩ := step_ok h
  obtain ⟨-, rfl⟩ := refuseIf_ok h₁
  obtain ⟨_, b₂, h₂, h⟩ := step_ok h
  obtain ⟨-, rfl⟩ := refuseIf_ok h₂
  obtain ⟨probs, b₃, h₃, h⟩ := step_ok h
  obtain ⟨top, b₄, h₄, h⟩ := step_ok h
  obtain ⟨_, b₅, h₅, h⟩ := step_ok h
  obtain ⟨ids, b₆, h₆, h⟩ := step_ok h
  obtain ⟨ffOut, b₇, h₇, h⟩ := step_ok h
  obtain ⟨ffMerged, b₈, h₈, h⟩ := step_ok h
  have p₄ := (p.tensor h₃).tensor h₄
  have p₅ := p₄.router h₅ (by decide) (by simp [hx, hold _ hgate])
  have p₆ := experts_built p₅ h₆
  have p₇ := p₆.emit h₇ (by decide) (by simp +contextual [hx])
  have p₈ := sharedExpert_built p₇ h₈ (by simp [hx]) (by simp) (hold.mono fun z hz => by simp [hz])
  exact (p₈.emit h (by decide) (by simp [hresid])).weaken (by grind)

theorem swiGlu_built (p : Progress ins b₀ b known waiting ms) (h : (m.swiGlu pfx w mlpIn resid1).run b = .ok (t, b'))
    (hx : mlpIn ∈ known) (hresid : resid1 ∈ known) (hold : Holds w known) (hgate : w.id "ffn_gate.weight" ≠ 0)
    (hup : w.id "ffn_up.weight" ≠ 0) (hdown : w.id "ffn_down.weight" ≠ 0) : Progress ins b₀ b' (t :: known) waiting ms := by
  obtain ⟨gate, b₁, h₁, h⟩ := step_ok h
  obtain ⟨up, b₂, h₂, h⟩ := step_ok h
  obtain ⟨_, b₃, h₃, h⟩ := step_ok h
  obtain ⟨_, b₄, h₄, h⟩ := step_ok h
  obtain ⟨gateAct, b₅, h₅, h⟩ := step_ok h
  obtain ⟨ffHid, b₆, h₆, h⟩ := step_ok h
  obtain ⟨ffOut, b₇, h₇, h⟩ := step_ok h
  have p₂ := (p.tensor h₁).tensor h₂
  have p₃ := p₂.fill [up] waiting h₃ (by decide) (by simp [hx, hold _ hgate])
  have p₄ := p₃.fill [] waiting h₄ (by decide) (by simp [hx, hold _ hup])
  have p₅ := p₄.emit h₅ (by split <;> decide) (by simp)
  have p₆ := p₅.emit h₆ (by decide) (by simp)
  have p₇ := p₆.emit h₇ (by decide) (by simp [hold _ hdown])
  exact (p₇.emit h (by decide) (by simp [hresid])).weaken (by grind)

theorem dense_built (p : Progress ins b₀ b known waiting ms) (h : (m.dense pfx w mlpIn resid1).run b = .ok (t, b'))
    (hx : mlpIn ∈ known) (hresid : resid1 ∈ known) (hold : Holds w known) (hup : w.id "ffn_up.weight" ≠ 0)
    (hdown : w.id "ffn_down.weight" ≠ 0) : Progress ins b₀ b' (t :: known) waiting ms := by
  obtain ⟨up, b₁, h₁, h⟩ := step_ok h
  obtain ⟨upAct, b₂, h₂, h⟩ := step_ok h
  obtain ⟨ffOut, b₃, h₃, h⟩ := step_ok h
  have p₂ := (p.emit h₁ (by decide) (by simp [hx, hold _ hup])).emit h₂ (by decide) (by simp)
  have p₃ := p₂.emit h₃ (by decide) (by simp [hold _ hdown])
  exact (p₃.emit h (by decide) (by simp [hresid])).weaken (by grind)

variable [Field R]

theorem mlp_built (p : Progress ins b₀ b known waiting ms) (h : (m.mlp pfx w resid1).run b = .ok (t, b')) (hresid : resid1 ∈ known)
    (hold : Holds w known) : Progress ins b₀ b' (t :: known) waiting ms := by
  obtain ⟨mlpIn, b₁, h₁, h⟩ := step_ok h
  have p₁ : Progress ins b₀ b₁ (mlpIn :: known) waiting ms := by
    split at h₁
    · obtain ⟨rfl, rfl⟩ := pure_ok h₁
      exact p.learn (p.ready _ hresid)
    · next hne =>
      obtain ⟨n2, b₁', hn2, h₁⟩ := step_ok h₁
      obtain ⟨_, b₁'', hnorm, h₁⟩ := step_ok h₁
      obtain ⟨rfl, rfl⟩ := pure_ok h₁
      exact normed [] waiting (p.tensor hn2) hnorm hresid (hold _ hne) (hold _)
  have hold₁ : Holds w (mlpIn :: known) := hold.mono (by simp)
  split at h
  · next hgate _ _ =>
    have hne : w.id "ffn_gate_inp.weight" ≠ 0 := by
      intro h0
      rw [if_pos h0] at hgate
      cases hgate
    exact (moe_built p₁ h (by simp) (by simp [hresid]) hold₁ hne).weaken (by grind)
  split at h
  · obtain ⟨rfl, rfl⟩ := pure_ok h
    exact (p₁.learn (p₁.ready resid1 (by simp [hresid]))).weaken (by grind)
  · next hmats =>
    simp only [not_or] at hmats
    split at h
    · next hgate => exact (swiGlu_built p₁ h (by simp) (by simp [hresid]) hold₁ hgate hmats.1 hmats.2).weaken (by grind)
    · exact (dense_built p₁ h (by simp) (by simp [hresid]) hold₁ hmats.1 hmats.2).weaken (by grind)

/-! ## The attention -/

theorem headNorm_built (p : Progress ins b₀ b known waiting ms) {dim : Int}
    (h : (m.headNorm pfx w name rest dim x).run b = .ok (t, b')) (hx : x ∈ known) (hold : Holds w known) :
    Progress ins b₀ b' (t :: known) waiting ms := by
  unfold headNorm at h
  split at h
  · obtain ⟨rfl, rfl⟩ := pure_ok h
    exact p.learn (p.ready x hx)
  · next hne => exact p.emit h (by decide) (by simp [hx, hold _ hne])

variable [LinearOrder R]

/-- What the layer's attention needs of the weights that were found. -/
def Projected (m : GgufImport R) (pfx : String) (w : LayerWeights) : Prop :=
  (m.isMla pfx w → w.kvA ≠ 0) ∧ (¬ m.isMla pfx w → w.id "attn_qkv.weight" ≠ 0 ∨ w.splitQkv)

theorem qkv_built (p : Progress ins b₀ b known waiting ms) {n1 : TensorId} {r : LayerQkv}
    (h : (if m.isMla pfx w then m.mlaQkv pfx w n1 else if w.id "attn_qkv.weight" ≠ 0 then m.fusedQkv pfx w n1
      else m.splitQkv pfx w n1).run b = .ok (r, b')) (hn1 : n1 ∈ known) (hold : Holds w known) (hproj : Projected m pfx w) :
    Progress ins b₀ b' (r.q :: r.k :: r.v :: known) waiting ms := by
  split at h
  · next hmla => exact mlaQkv_built p h hn1 hold hmla (hproj.1 hmla)
  · next hmla =>
    split at h
    · next hqkv => exact fusedQkv_built p h hn1 hold hqkv
    · next hqkv => exact splitQkv_built p h hn1 hold ((hproj.2 hmla).resolve_left hqkv)

theorem layerId_attnAttrs {li : Nat} {heads kvHeads : Int} : layerId (m.attnAttrs li heads kvHeads) = some (li : Int) := by
  simp [layerId, attnAttrs]

/-- A layer has one Attention node. -/
theorem attention_built {li : Nat} {features : TensorId} (p : Progress ins b₀ b known waiting ms)
    (h : (m.attention li pfx w features).run b = .ok (t, b')) (hfeatures : features ∈ known) (hold : Holds w known)
    (hnorm : w.id "attn_norm.weight" ≠ 0) (hwo : w.id "attn_output.weight" ≠ 0) (hproj : Projected m pfx w) :
    Progress ins b₀ b' (t :: known) waiting (ms ++ [.attention (some (li : Int))]) := by
  obtain ⟨n1, b₁, h₁, h⟩ := step_ok h
  obtain ⟨_, b₂, h₂, h⟩ := step_ok h
  obtain ⟨qkv, b₃, h₃, h⟩ := step_ok h
  obtain ⟨q, b₄, h₄, h⟩ := step_ok h
  obtain ⟨k, b₅, h₅, h⟩ := step_ok h
  obtain ⟨qRope, b₆, h₆, h⟩ := step_ok h
  obtain ⟨kRope, b₇, h₇, h⟩ := step_ok h
  obtain ⟨_, b₈, h₈, h⟩ := step_ok h
  obtain ⟨_, b₉, h₉, h⟩ := step_ok h
  obtain ⟨attn, b₁₀, h₁₀, h⟩ := step_ok h
  obtain ⟨attnO, b₁₁, h₁₁, h⟩ := step_ok h
  have p₂ := normed [] waiting (p.tensor h₁) h₂ hfeatures (hold _ hnorm) (hold _)
  have p₃ := qkv_built p₂ h₃ (by simp) (hold.mono (by simp)) hproj
  have p₄ := headNorm_built p₃ h₄ (by simp) (hold.mono fun z hz => by simp [hz])
  have p₅ := headNorm_built p₄ h₅ (by simp) (hold.mono fun z hz => by simp [hz])
  have p₇ := (p₅.tensor h₆).tensor h₇
  have p₈ := p₇.fill [kRope] waiting h₈ (by decide) (by simp)
  have p₉ := p₈.fill [] waiting h₉ (by split <;> decide) (by simp)
  have p₁₀ := p₉.attention h₁₀ (by simp)
  rw [layerId_attnAttrs] at p₁₀
  have p₁₁ := p₁₀.emit h₁₁ (by decide) (by simp [hold _ hwo])
  exact (p₁₁.emit h (by decide) (by simp [hfeatures])).weaken (by grind)

/-! ## The layers -/

end GgufImport

/-- The layer has its norm, its output projection, and some tensor of latent attention or all of
    the query, the keys and the values. -/
def GgufHeader.Complete (file : GgufHeader) (li : Nat) : Prop :=
  let there (rest : String) : Bool := file.has ("blk." ++ toText li ++ "." ++ rest)
  there "attn_norm.weight" ∧ there "attn_output.weight" ∧
    ((["attn_kv_a_mqa.weight", "attn_kv_a.weight", "attn_k_b.weight", "attn_v_b.weight", "attn_q_a.weight", "attn_q_b.weight"].any there) ∨
      there "attn_qkv.weight" ∨ (there "attn_q.weight" ∧ there "attn_k.weight" ∧ there "attn_v.weight"))

instance (file : GgufHeader) (li : Nat) : Decidable (file.Complete li) := inferInstanceAs (Decidable (_ ∧ _ ∧ _))

namespace GgufImport

variable {m : GgufImport R} {w : LayerWeights}

/-- What the loop asks of the weights that were found. -/
theorem complete_iff {li : Nat}
    (hid : ∀ rest ∈ firstNames ++ lastNames, w.id rest ≠ 0 ↔ m.file.has ("blk." ++ toText li ++ "." ++ rest)) :
    m.file.Complete li ↔ w.id "attn_norm.weight" ≠ 0 ∧ w.id "attn_output.weight" ≠ 0 ∧
      (m.mlaTensors ("blk." ++ toText li ++ ".") w ∨ w.id "attn_qkv.weight" ≠ 0 ∨ w.splitQkv) := by
  have hmla : m.mlaTensors ("blk." ++ toText li ++ ".") w ↔
      (["attn_kv_a_mqa.weight", "attn_kv_a.weight", "attn_k_b.weight", "attn_v_b.weight", "attn_q_a.weight", "attn_q_b.weight"].any
        fun rest => m.file.has ("blk." ++ toText li ++ "." ++ rest)) = true := by
    simp only [mlaTensors, hasKvA, List.any_cons, List.any_nil, List.exists_mem_cons_iff, List.not_mem_nil, false_and, exists_false,
      or_false, Bool.or_eq_true, Bool.or_false]
    rw [hid "attn_k_b.weight" (by decide), hid "attn_v_b.weight" (by decide), hid "attn_q_a.weight" (by decide),
      hid "attn_q_b.weight" (by decide), or_assoc]
  unfold GgufHeader.Complete LayerWeights.splitQkv
  rw [hmla, hid "attn_norm.weight" (by decide), hid "attn_output.weight" (by decide), hid "attn_qkv.weight" (by decide),
    hid "attn_q.weight" (by decide), hid "attn_k.weight" (by decide), hid "attn_v.weight" (by decide)]

variable [Field R] [LinearOrder R] {features : TensorId}

/-- A layer that the loop takes. -/
theorem block_built {li : Nat} {mla : Bool} {r : Option (TensorId × Bool)} (p : Progress ins b₀ b known [] [])
    (h : (do
      let resid1 ← m.attention li pfx w features
      let features ← m.mlp pfx w resid1
      pure (some (features, mla)) : Build R (Option (TensorId × Bool))).run b = .ok (r, b')) (hfeatures : features ∈ known)
    (hold : Holds w known) (hnorm : w.id "attn_norm.weight" ≠ 0) (hwo : w.id "attn_output.weight" ≠ 0)
    (hproj : Projected m pfx w) :
    ∃ t, r = some (t, mla) ∧ Grows ins b₀ b' [] [.attention (some (li : Int))] ∧ Ready ins b' t := by
  obtain ⟨resid1, b₁, h₁, h⟩ := step_ok h
  obtain ⟨f, b₂, h₂, h⟩ := step_ok h
  obtain ⟨rfl, rfl⟩ := pure_ok h
  have p₁ := attention_built p h₁ hfeatures hold hnorm hwo hproj
  have p₂ := mlp_built p₁ h₂ (by simp) (hold.mono (by simp))
  exact ⟨f, rfl, p₂.grows, p₂.ready f (by simp)⟩

theorem layer_built {li : Nat} {r : Option (TensorId × Bool)} (h : (m.layer li features).run b = .ok (r, b')) (hw : Wired ins b)
    (hready : Ready ins b features) :
    (r = none ∧ ¬ m.file.Complete li ∧ Grows ins b b' [] []) ∨
    ∃ t mla, r = some (t, mla) ∧ m.file.Complete li ∧ Grows ins b b' [] [.attention (some (li : Int))] ∧ Ready ins b' t := by
  obtain ⟨w, b₁, h₁, h⟩ := step_ok h
  obtain ⟨g, hfetched, hid, hkvA⟩ := layerWeights_grows h₁ hw
  have hcomplete := complete_iff hid
  have p : Progress ins b b₁ (features :: found w) [] [] := by
    have hstart : Progress ins b b [features] [] [] := .start hw (by simpa using hready)
    have hcall := hstart.call g
    exact ⟨hcall.grows, List.forall_mem_cons.mpr ⟨hcall.ready _ (by simp), hfetched.found_ready⟩, by simp, .nil⟩
  have hold : Holds w (features :: found w) := (found_holds w).mono (by simp)
  split at h
  · next hno =>
    obtain ⟨rfl, rfl⟩ := pure_ok h
    refine .inl ⟨rfl, fun hyes => ?_, g⟩
    obtain ⟨hnorm, hwo, -⟩ := hcomplete.mp hyes
    exact hno.elim hnorm hwo
  · next hthere =>
    rw [not_or] at hthere
    split at h
    · next hmla =>
      obtain ⟨_, b₂, h₂, h⟩ := step_ok h
      obtain ⟨hall, rfl⟩ := refuseIf_ok h₂
      obtain ⟨_, b₃, h₃, h⟩ := step_ok h
      obtain ⟨-, rfl⟩ := refuseIf_ok h₃
      rw [not_or, not_not] at hall
      obtain ⟨t, hr, g', ht⟩ := block_built p h (by simp) hold hthere.1 hthere.2 ⟨fun _ => hall.2, fun hno => absurd hall.1 hno⟩
      exact .inr ⟨t, true, hr, hcomplete.mpr ⟨hthere.1, hthere.2, .inl hmla⟩, g', ht⟩
    · next hmla =>
      split at h
      · next hno =>
        obtain ⟨rfl, rfl⟩ := pure_ok h
        refine .inl ⟨rfl, fun hyes => ?_, g⟩
        obtain ⟨-, -, hor⟩ := hcomplete.mp hyes
        exact hor.elim hmla fun hor => hor.elim (fun hq => hq hno.2) hno.1
      · next hyes =>
        have hor : w.id "attn_qkv.weight" ≠ 0 ∨ w.splitQkv := by
          by_contra hnone
          rw [not_or, not_not] at hnone
          exact hyes ⟨hnone.2, hnone.1⟩
        have hproj : Projected m ("blk." ++ toText li ++ ".") w := ⟨fun hm => absurd (.inl hm.1) hmla, fun _ => hor⟩
        obtain ⟨t, hr, g', ht⟩ := block_built p h (by simp) hold hthere.1 hthere.2 hproj
        exact .inr ⟨t, false, hr, hcomplete.mpr ⟨hthere.1, hthere.2, .inr hor⟩, g', ht⟩

/-- The loop gets as far as the layers are complete. -/
theorem layers_built : ∀ {remaining li : Nat} {features : TensorId} {anyMla : Bool} {b b' : GraphBuilder R} {r : TensorId × Bool},
    (m.layers remaining li features anyMla).run b = .ok (r, b') → Wired ins b → Ready ins b features →
    ∃ n, Grows ins b b' [] (layerMarks li n) ∧ Ready ins b' r.1 ∧
      (n = remaining ↔ ∀ i, li ≤ i → i < li + remaining → m.file.Complete i)
  | 0, li, features, anyMla, b, _, r, h, hw, hready => by
    obtain ⟨rfl, rfl⟩ := pure_ok h
    exact ⟨0, .refl hw, hready, by simp; omega⟩
  | remaining + 1, li, features, anyMla, b, _, r, h, hw, hready => by
    obtain ⟨o, b₁, h₁, h⟩ := step_ok h
    rcases layer_built h₁ hw hready with ⟨rfl, hno, g⟩ | ⟨f, mla, rfl, hcomplete, g, hf⟩
    · obtain ⟨rfl, rfl⟩ := pure_ok h
      refine ⟨0, g, g.ready _ hready, by simp, fun hall => ?_⟩
      exact absurd (hall li (Nat.le_refl _) (by omega)) hno
    · obtain ⟨n, g', ht, hn⟩ := layers_built h g.wired hf
      refine ⟨n + 1, g.trans g', ht, ?_⟩
      rw [Nat.add_right_cancel_iff, hn, forall_layers_succ, and_iff_right hcomplete]

/-! ## The graph -/

omit [LinearOrder R] in
theorem outNorm_built (p : Progress ins b₀ b known waiting ms) (h : (m.outNorm features).run b = .ok (t, b'))
    (hfeatures : features ∈ known) : Progress ins b₀ b' (t :: known) waiting ms := by
  unfold outNorm at h
  split at h
  · obtain ⟨rfl, rfl⟩ := pure_ok h
    exact p.learn (p.ready _ hfeatures)
  · obtain ⟨_, b₁, h₁, h⟩ := step_ok h
    obtain ⟨-, rfl⟩ := refuseIf_ok h₁
    obtain ⟨nw, b₂, h₂, h⟩ := step_ok h
    obtain ⟨nb, b₃, h₃, h⟩ := step_ok h
    obtain ⟨nout, b₄, h₄, h⟩ := step_ok h
    obtain ⟨_, b₅, h₅, h⟩ := step_ok h
    obtain ⟨rfl, rfl⟩ := pure_ok h
    have p₂ := p.weight h₂
    have p₃ : Progress ins b₀ b₃ (present nb ++ (nw :: known)) waiting ms := by
      split at h₃
      · split at h₃
        · exact (p₂.weight h₃).weaken (by grind [mem_present])
        · obtain ⟨rfl, rfl⟩ := pure_ok h₃
          exact p₂
      · obtain ⟨rfl, rfl⟩ := pure_ok h₃
        exact p₂
    have p₅ := normed [] waiting (p₃.tensor h₄) h₅ (by simp [hfeatures]) (by simp) (by simp +contextual)
    exact p₅.weaken (by grind)

omit [Field R] [LinearOrder R] in
theorem ranksMetadata_keys : ∀ e ∈ m.ranksMetadata, e.1 ≠ "n_layers" := by
  intro e he
  simp only [ranksMetadata, List.mem_filterMap, List.mem_cons, List.not_mem_nil, or_false] at he
  obtain ⟨x, hx, he⟩ := he
  split at he
  · obtain rfl := Option.some.inj he
    rcases hx with rfl | rfl | rfl | rfl | rfl | rfl | rfl <;> simp
  · cases he

theorem layersEntry_end (floatText : R → String) (nLayers : Int) (anyMla : Bool) :
    (m.endMetadata floatText nLayers anyMla).reverse.find? (·.1 == "n_layers") = some ("n_layers", toText nLayers) := by
  have hkv : (m.kvMetadata anyMla).reverse.find? (·.1 == "n_layers") = none := by
    unfold kvMetadata
    dsimp only
    split
    · split <;> simp
    · simp
  unfold endMetadata
  by_cases hcontext : 0 < m.file.kvI64Arch "context_length" 0 <;> by_cases hcap : 0 < m.file.attnSoftcap m.floats <;>
    simp [List.find?_append, hkv, hcontext, hcap]

/-- The graph's layers are the ones counted if the loop has gone through them all. -/
theorem model_built {floatText : R → String} {nLayers vocab : Int} {emb lm : GgufTensorInfo}
    (h : (m.model floatText nLayers vocab emb lm).run b = .ok (u, b')) (hw : Wired [] b) (h₀ : b.graph.nodes = [])
    (hcount : 0 ≤ nLayers ∧ nLayers ≤ 512) :
    WellBuilt b'.graph ∧ (LayersMatch b'.graph ↔ ∀ li : Nat, (li : Int) < nLayers → m.file.Complete li) := by
  obtain ⟨_, b₁, h₁, h⟩ := step_ok h
  obtain ⟨tokens, b₂, h₂, h⟩ := step_ok h
  obtain ⟨_, b₃, h₃, h⟩ := step_ok h
  obtain ⟨-, rfl⟩ := refuseIf_ok h₃
  obtain ⟨embW, b₄, h₄, h⟩ := step_ok h
  obtain ⟨hidden, b₅, h₅, h⟩ := step_ok h
  obtain ⟨⟨features, anyMla⟩, b₆, h₆, h⟩ := step_ok h
  obtain ⟨_, b₇, h₇, h⟩ := step_ok h
  obtain ⟨normed, b₈, h₈, h⟩ := step_ok h
  obtain ⟨_, b₉, h₉, h⟩ := step_ok h
  obtain ⟨-, rfl⟩ := refuseIf_ok h₉
  obtain ⟨lmW, b₁₀, h₁₀, h⟩ := step_ok h
  obtain ⟨logits, b₁₁, h₁₁, h⟩ := step_ok h
  obtain ⟨probs, b₁₂, h₁₂, h⟩ := step_ok h
  obtain ⟨_, b₁₃, h₁₃, h⟩ := step_ok h
  have hempty : b₁.graph.nodes = [] := by
    rw [(addMetadata_run h₁).2.2.1]
    exact h₀
  have p₅ := ((Progress.begin (addMetadata_grows h₁ hw ranksMetadata_keys).wired h₂).weight h₄).emit h₅ (by decide) (by simp)
  obtain ⟨n, g₆, hfeatures, hn⟩ := layers_built h₆ p₅.wired (p₅.ready hidden (by simp))
  have p₆ : Progress [tokens] b₂ b₆ [features, embW] [] ([] ++ layerMarks 0 n) := ((p₅.call g₆).learn hfeatures).weaken (by simp +contextual)
  have p₇ := p₆.call (addMetadata_grows h₇ p₆.wired (by split <;> simp))
  rw [List.append_nil] at p₇
  have p₈ := outNorm_built p₇ h₈ (by simp)
  have p₁₀ : Progress [tokens] b₂ b₁₀ [lmW, normed] [] ([] ++ layerMarks 0 n) := by
    split at h₁₀
    · obtain ⟨rfl, rfl⟩ := pure_ok h₁₀
      exact p₈.weaken (by simp)
    · exact (p₈.weight h₁₀).weaken (by simp)
  have p₁₂ := (p₁₀.emit h₁₁ (by decide) (by simp)).emit h₁₂ (by decide) (by simp)
  obtain ⟨hbuilt, hlayers, hentry⟩ := p₁₂.finished (tensor_nodes h₂ hempty) (emit_produced h₁₂) h₁₃ h
  rw [List.nil_append] at hbuilt hlayers
  rw [layersEntry_end, Option.some_or] at hentry
  rw [layerMarks_layer] at hlayers
  refine ⟨hbuilt.mpr (by simp), ?_⟩
  rw [layersMatch_iff hlayers, metaI64_layers hentry (by omega) (by omega)]
  constructor
  · intro hall li hlt
    exact hn.mp (hall (by omega)) li (Nat.zero_le _) (by omega)
  · intro hall _
    rw [hn]
    intro li _ hlt
    exact hall li (by omega)

end GgufImport

namespace GgufHeader

variable {file : GgufHeader}

theorem kvI64Arch_nonneg (suffix : String) : 0 ≤ file.kvI64Arch suffix 0 := by
  unfold kvI64Arch
  generalize (if file.arch = "" then -1 else file.kvI64 (file.arch ++ "." ++ suffix) (-1)) = own
  dsimp only
  split
  · assumption
  split
  · assumption
  split
  · assumption
  · exact Int.le_refl 0

theorem nLayers_bounds (cap : Int) : 0 ≤ file.nLayers cap ∧ file.nLayers cap ≤ 512 := by
  have hcap : ∀ n : Int, 0 ≤ n → 0 ≤ applyLayerCap cap n ∧ applyLayerCap cap n ≤ 512 := by
    intro n hn
    unfold applyLayerCap
    dsimp only
    split <;> omega
  refine hcap _ ?_
  split
  · cases (List.range 512).find? fun i => !file.showsLayer i with
    | none => exact kvI64Arch_nonneg _
    | some i => exact Int.natCast_nonneg i
  · exact kvI64Arch_nonneg _

theorem allWeights_grows {path : String} : ∀ {ts : List GgufTensorInfo} {b b' : GraphBuilder R},
    (allWeights path ts).run b = .ok (u, b') → Wired ins b → Grows ins b b' [] []
  | [], b, _, h, hw => by
    obtain ⟨-, rfl⟩ := pure_ok h
    exact .refl hw
  | t :: ts, b, _, h, hw => by
    obtain ⟨_, b₁, h₁, h⟩ := step_ok h
    have g := (weight_grows h₁ hw).1
    exact g.trans (allWeights_grows h g.wired)

/-- The layers that are counted have what their attention needs. -/
def Layered (file : GgufHeader) (cap : Int) : Prop :=
  file.emb.isSome → file.lm.isSome → ∀ li : Nat, (li : Int) < file.nLayers cap → file.Complete li

theorem startMetadata_entry : file.startMetadata.reverse.find? (·.1 == "n_layers") = none := by
  unfold startMetadata
  by_cases harch : file.arch = "" <;> by_cases htied : file.tied <;> by_cases hmoe : file.looksLikeMoe <;>
    simp [harch, htied, hmoe] <;> split <;> simp

end GgufHeader

/-- The graph of a GGUF file. -/
theorem ggufLoad_built [Field R] [LinearOrder R] {floats : KvFloats R} {floatText : R → String} {cap : Int} {fs : FileSystem}
    {path : String} {g : Graph R} (h : ggufLoad floats floatText cap fs path = .ok g) :
    ∃ file, ggufReadHeader fs path = .ok file ∧ WellBuilt g ∧ (LayersMatch g ↔ file.Layered cap) := by
  obtain ⟨file, hfile, h⟩ := bind_ok h
  obtain ⟨_, -, h⟩ := bind_ok h
  obtain ⟨⟨u, b⟩, hb, h⟩ := bind_ok h
  obtain rfl := Except.ok.inj h
  obtain ⟨_, b₁, h₁, hb⟩ := step_ok hb
  obtain ⟨hw, h₀, hentry⟩ := addMetadata_start h₁
  refine ⟨file, hfile, ?_⟩
  unfold GgufHeader.Layered
  split at hb
  · next emb lm hemb hlm =>
    obtain ⟨vocab, b₂, h₂, hb⟩ := step_ok hb
    have hsame : b₁ = b₂ := by
      split at h₂
      · exact (pure_ok h₂).2
      · exact (pure_ok h₂).2
      · cases h₂
    subst hsame
    obtain ⟨hbuilt, hiff⟩ := GgufImport.model_built hb hw h₀ (GgufHeader.nLayers_bounds cap)
    exact ⟨hbuilt, hiff.trans (by simp [hemb, hlm])⟩
  · next hno =>
    obtain ⟨hbuilt, hlayers, hentry'⟩ := identityGraph_built hb GgufHeader.allWeights_grows hw h₀
    have hcount : metaI64 b.build "n_layers" 0 = 0 := by
      rw [metaI64_eq]
      show (b.graph.layersEntry.bind _).getD 0 = _
      rw [hentry', hentry, GgufHeader.startMetadata_entry]
      rfl
    refine ⟨hbuilt, iff_of_true (fun hpos => absurd hpos (by omega)) fun hemb hlm => ?_⟩
    obtain ⟨emb, hemb⟩ := Option.isSome_iff_exists.mp hemb
    obtain ⟨lm, hlm⟩ := Option.isSome_iff_exists.mp hlm
    exact absurd hlm (hno emb lm hemb)

end Uaii.Loaders
