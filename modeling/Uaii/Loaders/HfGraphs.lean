/-
  Uaii.Loaders.HfGraphs — when the graph of a Hugging Face directory is well built.

  Every layer that the metadata counts has its Attention node, or `load` fails. What can be
  missing without notice are the two matrices of a feed-forward block without a gate: the
  node then reads id 0, which is no tensor's.
-/

import Uaii.Loaders.HfLoad
import Uaii.Loaders.LoadedGraphs

namespace Uaii.Loaders

open Uaii.Ir Uaii.Ir.Build
open Uaii.Runtime (stoll metaI64)

namespace HfDirectory

variable {R : Type} {dir : HfDirectory R} {L : DecodedLayout} {ins : List TensorId}
  {b₀ b b' : GraphBuilder R} {known waiting : List TensorId} {ms : List Mark} {t x y : TensorId} {name : String} {u : Unit}

/-! ## Weights, biases and norms -/

theorem addWeightRef_grows {force : List Int} (h : (dir.addWeightRef name force).run b = .ok (t, b')) (hw : Wired ins b) :
    Grows ins b b' [] [] ∧ Optional ins b' t ∧ (t ≠ 0 ↔ name ≠ "" ∧ dir.hasTensor name) := by
  unfold addWeightRef at h
  split at h
  · next hno =>
    obtain ⟨rfl, rfl⟩ := pure_ok h
    refine ⟨.refl hw, .inl rfl, fun hne => absurd rfl hne, fun hname => ?_⟩
    exact absurd hname (by simpa [imp_iff_not_or] using hno)
  · next hyes =>
    obtain ⟨shape, b₁, h₁, h⟩ := step_ok h
    obtain ⟨-, rfl⟩ := attempt_ok h₁
    obtain ⟨g, hready, hne⟩ := weight_grows h hw
    exact ⟨g, .inr hready, by simpa [hne] using hyes⟩

/-- A weight of the layer. -/
theorem weightRef (p : Progress ins b₀ b known waiting ms) {force : List Int}
    (h : (dir.addWeightRef name force).run b = .ok (t, b')) : Progress ins b₀ b' (present t ++ known) waiting ms := by
  obtain ⟨g, ho, -⟩ := addWeightRef_grows h p.wired
  exact p.fetch g ho

theorem named (p : Progress ins b₀ b known waiting ms) {li : Nat} {rest : String} {force : List Int}
    (h : (dir.addNamed L li rest force).run b = .ok (t, b')) : Progress ins b₀ b' (present t ++ known) waiting ms := by
  unfold addNamed at h
  split at h
  · obtain ⟨rfl, rfl⟩ := pure_ok h
    exact p
  · exact weightRef p h

theorem biased (p : Progress ins b₀ b known waiting ms) {bias : TensorId} {outDim : Int}
    (h : (maybeBias name x bias outDim).run b = .ok (t, b')) (hx : x ∈ known) (hbias : bias ≠ 0 → bias ∈ known) :
    Progress ins b₀ b' (t :: known) waiting ms := by
  unfold maybeBias at h
  split at h
  · obtain ⟨rfl, rfl⟩ := pure_ok h
    exact p.learn (p.ready x hx)
  · next hne => exact p.emit h (by decide) (by simp [hx, hbias hne])

theorem mm_fill (before after : List TensorId) (p : Progress ins b₀ b known (before ++ y :: after) ms) {w : TensorId}
    {transB : Bool} (h : (mm name x w y transB).run b = .ok (u, b')) (hx : x ∈ known) (hweight : w ∈ known) :
    Progress ins b₀ b' (y :: known) (before ++ after) ms :=
  p.fill before after h (by decide) (by simp [hx, hweight])

/-! ## The projections -/

variable {li : Nat} {pfx : String} {n1 wo : TensorId}

theorem splitQkv_built (p : Progress ins b₀ b known waiting ms) {r : TensorId × TensorId × TensorId}
    (h : (dir.splitQkv L li pfx n1 wo).run b = .ok (r, b')) (hn1 : n1 ∈ known) :
    Progress ins b₀ b' (r.1 :: r.2.1 :: r.2.2 :: known) waiting ms ∧ wo ≠ 0 := by
  obtain ⟨wq, b₁, h₁, h⟩ := step_ok h
  obtain ⟨wk, b₂, h₂, h⟩ := step_ok h
  obtain ⟨wv, b₃, h₃, h⟩ := step_ok h
  obtain ⟨bq, b₄, h₄, h⟩ := step_ok h
  obtain ⟨bk, b₅, h₅, h⟩ := step_ok h
  obtain ⟨bv, b₆, h₆, h⟩ := step_ok h
  obtain ⟨_, b₇, h₇, h⟩ := step_ok h
  obtain ⟨hne, rfl⟩ := refuseIf_ok h₇
  obtain ⟨q0, b₈, h₈, h⟩ := step_ok h
  obtain ⟨k0, b₉, h₉, h⟩ := step_ok h
  obtain ⟨v0, b₁₀, h₁₀, h⟩ := step_ok h
  obtain ⟨_, b₁₁, h₁₁, h⟩ := step_ok h
  obtain ⟨_, b₁₂, h₁₂, h⟩ := step_ok h
  obtain ⟨_, b₁₃, h₁₃, h⟩ := step_ok h
  obtain ⟨q, b₁₄, h₁₄, h⟩ := step_ok h
  obtain ⟨k, b₁₅, h₁₅, h⟩ := step_ok h
  obtain ⟨v, b₁₆, h₁₆, h⟩ := step_ok h
  obtain ⟨rfl, rfl⟩ := pure_ok h
  simp only [not_or] at hne
  have p₃ := weightRef (weightRef (weightRef p h₁) h₂) h₃
  have p₆ := named (named (named p₃ h₄) h₅) h₆
  have p₁₀ := ((p₆.tensor h₈).tensor h₉).tensor h₁₀
  have p₁₁ := mm_fill [v0, k0] waiting p₁₀ h₁₁ (by simp [hn1]) (by simp [hne])
  have p₁₂ := mm_fill [v0] waiting p₁₁ h₁₂ (by simp [hn1]) (by simp [hne])
  have p₁₃ := mm_fill [] waiting p₁₂ h₁₃ (by simp [hn1]) (by simp [hne])
  have p₁₄ := biased p₁₃ h₁₄ (by simp) (by simp +contextual)
  have p₁₅ := biased p₁₄ h₁₅ (by simp) (by simp +contextual)
  have p₁₆ := biased p₁₅ h₁₆ (by simp) (by simp +contextual)
  exact ⟨p₁₆.weaken (by simp +contextual), hne.2.2.2⟩

theorem fusedQkv_built {q k v : TensorId} (p : Progress ins b₀ b known (v :: k :: q :: waiting) ms)
    (h : (dir.fusedQkv L li pfx n1 q k v wo).run b = .ok (u, b')) (hn1 : n1 ∈ known) :
    Progress ins b₀ b' (q :: k :: v :: known) waiting ms ∧ wo ≠ 0 := by
  obtain ⟨wqkv, b₁, h₁, h⟩ := step_ok h
  obtain ⟨bqkv, b₂, h₂, h⟩ := step_ok h
  obtain ⟨_, b₃, h₃, h⟩ := step_ok h
  obtain ⟨hne, rfl⟩ := refuseIf_ok h₃
  obtain ⟨qkv, b₄, h₄, h⟩ := step_ok h
  obtain ⟨_, b₅, h₅, h⟩ := step_ok h
  obtain ⟨qkvB, b₆, h₆, h⟩ := step_ok h
  obtain ⟨_, b₇, h₇, h⟩ := step_ok h
  obtain ⟨_, b₈, h₈, h⟩ := step_ok h
  simp only [not_or] at hne
  have p₄ := (named (weightRef p h₁) h₂).tensor h₄
  have p₅ := mm_fill [] (v :: k :: q :: waiting) p₄ h₅ (by simp [hn1]) (by simp [hne])
  have p₆ := biased p₅ h₆ (by simp) (by simp +contextual)
  have p₇ := p₆.fill [v, k] waiting h₇ (by decide) (by simp)
  have p₈ := p₇.fill [v] waiting h₈ (by decide) (by simp)
  have p₉ := p₈.fill [] waiting h (by decide) (by simp)
  exact ⟨p₉.weaken (by simp +contextual), hne.2⟩

/-! ## The feed-forward block -/

theorem experts_built : ∀ {remaining e : Nat} {b b' : GraphBuilder R} {known r : List TensorId},
    Progress ins b₀ b known waiting ms → (dir.experts L li remaining e).run b = .ok (r, b') →
    Progress ins b₀ b' (r ++ known) waiting ms
  | 0, e, b, _, known, r, p, h => by
    obtain ⟨rfl, rfl⟩ := pure_ok h
    exact p
  | remaining + 1, e, b, _, known, r, p, h => by
    obtain ⟨ge, b₁, h₁, h⟩ := step_ok h
    obtain ⟨ue, b₂, h₂, h⟩ := step_ok h
    obtain ⟨de, b₃, h₃, h⟩ := step_ok h
    obtain ⟨_, b₄, h₄, h⟩ := step_ok h
    obtain ⟨hne, rfl⟩ := refuseIf_ok h₄
    obtain ⟨moeIns, b₅, h₅, h⟩ := step_ok h
    obtain ⟨rfl, rfl⟩ := pure_ok h
    have p₅ := experts_built (weightRef (weightRef (weightRef p h₁) h₂) h₃) h₅
    exact p₅.weaken (by grind [mem_present])

variable {mlpIn : TensorId}

theorem moe_built (p : Progress ins b₀ b known waiting ms) (h : (dir.moe L li pfx mlpIn).run b = .ok (t, b'))
    (hx : mlpIn ∈ known) : Progress ins b₀ b' (t :: known) waiting ms := by
  obtain ⟨gateW, b₁, h₁, h⟩ := step_ok h
  obtain ⟨_, b₂, h₂, h⟩ := step_ok h
  obtain ⟨hne, rfl⟩ := refuseIf_ok h₂
  obtain ⟨routerProbs, b₃, h₃, h⟩ := step_ok h
  obtain ⟨routerTop, b₄, h₄, h⟩ := step_ok h
  obtain ⟨_, b₅, h₅, h⟩ := step_ok h
  obtain ⟨moeIns, b₆, h₆, h⟩ := step_ok h
  have p₄ := ((weightRef p h₁).tensor h₃).tensor h₄
  have p₅ := p₄.router h₅ (by decide) (by simp [hx, hne])
  have p₆ := experts_built p₅ h₆
  have p₇ := p₆.emit h (by decide) (by simp +contextual [hx])
  exact p₇.weaken (by grind)

theorem op_ne_attention (act : HiddenAct) : act.op ≠ "Attention" := by
  cases act <;> decide

theorem swiGlu_built (p : Progress ins b₀ b known waiting ms) (h : (dir.swiGlu L li pfx mlpIn).run b = .ok (t, b'))
    (hx : mlpIn ∈ known) : Progress ins b₀ b' (t :: known) waiting ms := by
  obtain ⟨wGate, b₁, h₁, h⟩ := step_ok h
  obtain ⟨wUp, b₂, h₂, h⟩ := step_ok h
  obtain ⟨wDown, b₃, h₃, h⟩ := step_ok h
  obtain ⟨_, b₄, h₄, h⟩ := step_ok h
  obtain ⟨hne, rfl⟩ := refuseIf_ok h₄
  obtain ⟨gate, b₅, h₅, h⟩ := step_ok h
  obtain ⟨up, b₆, h₆, h⟩ := step_ok h
  obtain ⟨_, b₇, h₇, h⟩ := step_ok h
  obtain ⟨_, b₈, h₈, h⟩ := step_ok h
  obtain ⟨gateAct, b₉, h₉, h⟩ := step_ok h
  obtain ⟨ffHid, b₁₀, h₁₀, h⟩ := step_ok h
  simp only [not_or] at hne
  have p₆ := ((weightRef (weightRef (weightRef p h₁) h₂) h₃).tensor h₅).tensor h₆
  have p₇ := mm_fill [up] waiting p₆ h₇ (by simp [hx]) (by simp [hne])
  have p₈ := mm_fill [] waiting p₇ h₈ (by simp [hx]) (by simp [hne])
  have p₉ := p₈.emit h₉ (op_ne_attention _) (by simp)
  have p₁₀ := p₉.emit h₁₀ (by decide) (by simp)
  have p₁₁ := p₁₀.emit h (by decide) (by simp [hne])
  exact p₁₁.weaken (by grind)

theorem sharedExpert_built {ffOut : TensorId} (p : Progress ins b₀ b known waiting ms)
    (h : (dir.sharedExpert L li pfx mlpIn ffOut).run b = .ok (t, b')) (hx : mlpIn ∈ known) (hff : ffOut ∈ known) :
    Progress ins b₀ b' (t :: known) waiting ms := by
  obtain ⟨sg, b₁, h₁, h⟩ := step_ok h
  obtain ⟨su, b₂, h₂, h⟩ := step_ok h
  obtain ⟨sd, b₃, h₃, h⟩ := step_ok h
  have p₃ := weightRef (weightRef (weightRef p h₁) h₂) h₃
  split at h
  · obtain ⟨rfl, rfl⟩ := pure_ok h
    exact p₃.weaken (by grind)
  · next hne =>
    obtain ⟨shG, b₄, h₄, h⟩ := step_ok h
    obtain ⟨shU, b₅, h₅, h⟩ := step_ok h
    obtain ⟨_, b₆, h₆, h⟩ := step_ok h
    obtain ⟨_, b₇, h₇, h⟩ := step_ok h
    obtain ⟨shGa, b₈, h₈, h⟩ := step_ok h
    obtain ⟨shHid, b₉, h₉, h⟩ := step_ok h
    obtain ⟨shOut, b₁₀, h₁₀, h⟩ := step_ok h
    simp only [not_or] at hne
    have p₅ := (p₃.tensor h₄).tensor h₅
    have p₆ := mm_fill [shU] waiting p₅ h₆ (by simp [hx]) (by simp [hne])
    have p₇ := mm_fill [] waiting p₆ h₇ (by simp [hx]) (by simp [hne])
    have p₈ := p₇.emit h₈ (op_ne_attention _) (by simp)
    have p₉ := p₈.emit h₉ (by decide) (by simp)
    have p₁₀ := p₉.emit h₁₀ (by decide) (by simp [hne])
    have p₁₁ := p₁₀.emit h (by decide) (by simp [hff])
    exact p₁₁.weaken (by grind)

theorem layerName_ne (L : DecodedLayout) (li : Nat) (rest : String) : layerName L li rest ≠ "" := by
  intro h
  have hlist := congrArg String.toList h
  simp [layerName] at hlist

/-- `ff_out` of a block without a gate reads id 0 where a matrix is missing. -/
theorem dense_built (p : Progress ins b₀ b known waiting ms)
    (h : (dir.dense L li pfx mlpIn).run b = .ok (t, b')) (hx : mlpIn ∈ known) :
    ∃ zeros, Progress ins b₀ b' (t :: known) waiting (ms ++ zeros) ∧ (∀ m ∈ zeros, m = .readsZero) ∧
      (zeros = [] ↔ ∀ rest ∈ [L.fc, L.proj], dir.hasTensor (layerName L li rest)) := by
  obtain ⟨wFc, b₁, h₁, h⟩ := step_ok h
  obtain ⟨wProj, b₂, h₂, h⟩ := step_ok h
  obtain ⟨up, b₃, h₃, h⟩ := step_ok h
  obtain ⟨upAct, b₄, h₄, h⟩ := step_ok h
  obtain ⟨g₁, o₁, hfc⟩ := addWeightRef_grows h₁ p.wired
  rw [and_iff_right (layerName_ne L li L.fc)] at hfc
  have p₁ := p.fetch g₁ o₁
  obtain ⟨g₂, o₂, hproj⟩ := addWeightRef_grows h₂ p₁.wired
  rw [and_iff_right (layerName_ne L li L.proj)] at hproj
  have p₂ := p₁.fetch g₂ o₂
  have hmlp : mlpIn ≠ 0 := (p.ready mlpIn hx).ne_zero p.wired
  have p₃ := p₂.emitAny h₃ (by simp [hx]; grind)
  have p₄ := p₃.emit h₄ (by split <;> [decide; exact op_ne_attention _]) (by simp)
  have p₅ := p₄.emitAny h (by simp; grind)
  have hup : upAct ≠ 0 := (p₄.ready upAct (by simp)).ne_zero p₄.wired
  refine ⟨marksOf "MatMul" [mlpIn, wFc] (mmAttrs (R := R) (!L.conv1d)) ++ marksOf "MatMul" [upAct, wProj] (mmAttrs (R := R) (!L.conv1d)),
    ?_, ?_, ?_⟩
  · rw [← List.append_assoc]
    exact p₅.weaken (by grind)
  · simp [marksOf]
    grind
  · simp only [List.forall_mem_cons, List.not_mem_nil, false_implies, implies_true, and_true, ← hfc, ← hproj]
    simp [marksOf]
    grind

/-- The layer has the matrices of its feed-forward block, where that has no gate. -/
def MlpComplete (dir : HfDirectory R) (L : DecodedLayout) (li : Nat) : Prop :=
  ¬ (L.mixtral ∧ 0 < dir.nExperts L) → L.gate = "" → L.fc ≠ "" → ∀ rest ∈ [L.fc, L.proj], dir.hasTensor (layerName L li rest)

theorem mlp_built (p : Progress ins b₀ b known waiting ms) (h : (dir.mlp L li pfx mlpIn).run b = .ok (t, b')) (hx : mlpIn ∈ known) :
    ∃ zeros, Progress ins b₀ b' (present t ++ known) waiting (ms ++ zeros) ∧ (∀ m ∈ zeros, m = .readsZero) ∧
      (zeros = [] ↔ dir.MlpComplete L li) := by
  unfold mlp at h
  unfold MlpComplete
  split at h
  · next hmoe => exact ⟨[], by simpa using (moe_built p h hx).weaken (by grind [mem_present]), by simp, by simp [hmoe]⟩
  split at h
  · next hgate => exact ⟨[], by simpa using (swiGlu_built p h hx).weaken (by grind [mem_present]), by simp, by simp [hgate]⟩
  split at h
  · next hno hgate hfc =>
    obtain ⟨zeros, p', hzeros, hiff⟩ := dense_built p h hx
    refine ⟨zeros, p'.weaken (by grind [mem_present]), hzeros, hiff.trans ?_⟩
    simp only [hno, not_false_eq_true, not_not.mp hgate, hfc, ne_eq, true_implies]
  · next hfc =>
    obtain ⟨rfl, rfl⟩ := pure_ok h
    exact ⟨[], by simpa [present] using p, by simp, by simp [not_not.mp hfc]⟩

theorem residual_built {features attnO resid1 ffOut : TensorId} (p : Progress ins b₀ b known waiting ms)
    (h : (dir.residual pfx features attnO resid1 ffOut).run b = .ok (t, b')) (hfeatures : features ∈ known) (hattn : attnO ∈ known)
    (hresid : dir.config.useParallelResidual = false → resid1 ∈ known) (hff : ffOut ≠ 0 → ffOut ∈ known) :
    Progress ins b₀ b' (t :: known) waiting ms := by
  unfold residual at h
  split at h
  · next hne =>
    obtain ⟨resid2, b₁, h₁, h⟩ := step_ok h
    split at h
    · obtain ⟨mid, b₂, h₂, h⟩ := step_ok h
      obtain ⟨_, b₃, h₃, h⟩ := step_ok h
      obtain ⟨rfl, rfl⟩ := pure_ok h
      have p₂ := (p.tensor h₁).emit h₂ (by decide) (by simp [hfeatures, hattn])
      have p₃ := p₂.fill [] waiting h₃ (by decide) (by simp [hff hne])
      exact p₃.weaken (by grind)
    · next hpar =>
      obtain ⟨_, b₂, h₂, h⟩ := step_ok h
      obtain ⟨rfl, rfl⟩ := pure_ok h
      exact (p.tensor h₁).fill [] waiting h₂ (by decide) (by simp [hff hne, hresid (by simpa using hpar)])
  split at h
  · exact p.emit h (by decide) (by simp [hfeatures, hattn])
  · next hpar =>
    obtain ⟨rfl, rfl⟩ := pure_ok h
    exact p.learn (p.ready _ (hresid (by simpa using hpar)))

theorem embedding_built {tokens embW : TensorId} (p : Progress ins b₀ b known waiting ms)
    (h : (dir.embedding L tokens embW).run b = .ok (t, b')) (htokens : tokens ∈ known) (hemb : embW ∈ known) :
    Progress ins b₀ b' (t :: known) waiting ms := by
  obtain ⟨hidden, b₁, h₁, h⟩ := step_ok h
  split at h
  · obtain ⟨_, b₂, h₂, h⟩ := step_ok h
    obtain ⟨rfl, rfl⟩ := pure_ok h
    exact (p.tensor h₁).fill [] waiting h₂ (by decide) (by simp [htokens, hemb])
  · obtain ⟨tokEmb, b₂, h₂, h⟩ := step_ok h
    obtain ⟨wpeShape, b₃, h₃, h⟩ := step_ok h
    obtain ⟨-, rfl⟩ := attempt_ok h₃
    obtain ⟨wpeW, b₄, h₄, h⟩ := step_ok h
    obtain ⟨pos, b₅, h₅, h⟩ := step_ok h
    obtain ⟨posEmb, b₆, h₆, h⟩ := step_ok h
    obtain ⟨_, b₇, h₇, h⟩ := step_ok h
    obtain ⟨rfl, rfl⟩ := pure_ok h
    have p₄ := ((p.tensor h₁).emit h₂ (by decide) (by simp [htokens, hemb])).weight h₄
    have p₆ := (p₄.emit h₅ (by decide) (by simp [htokens])).emit h₆ (by decide) (by simp)
    exact (p₆.fill [] waiting h₇ (by decide) (by simp)).weaken (by grind)

/-! ## The attention -/

variable [Field R] [LinearOrder R]

/-- A norm of a tensor that waits for it. -/
theorem normed (before after : List TensorId) (p : Progress ins b₀ b known (before ++ y :: after) ms) {w bias : TensorId}
    (h : (dir.addNorm L name x w bias y).run b = .ok (u, b')) (hx : x ∈ known) (hweight : w ∈ known)
    (hbias : bias ≠ 0 → bias ∈ known) : Progress ins b₀ b' (y :: known) (before ++ after) ms := by
  unfold addNorm at h
  split at h
  · next hne => exact p.fill before after h (by decide) (by simp [hx, hweight, hbias hne.2])
  · exact p.fill before after h (by decide) (by simp [hx, hweight])

theorem postNormed (p : Progress ins b₀ b known waiting ms) {li : Nat} {pfx rms rest : String}
    (h : (dir.postNorm L li pfx name rms rest x).run b = .ok (t, b')) (hx : x ∈ known) :
    Progress ins b₀ b' (t :: known) waiting ms := by
  unfold postNorm at h
  split at h
  · obtain ⟨rfl, rfl⟩ := pure_ok h
    exact p.learn (p.ready x hx)
  · obtain ⟨w, b₁, h₁, h⟩ := step_ok h
    have p₁ := weightRef p h₁
    split at h
    · obtain ⟨rfl, rfl⟩ := pure_ok h
      exact p₁.weaken (by simp +contextual [hx])
    · next hne =>
      obtain ⟨z, b₂, h₂, h⟩ := step_ok h
      obtain ⟨_, b₃, h₃, h⟩ := step_ok h
      obtain ⟨rfl, rfl⟩ := pure_ok h
      have p₂ := normed [] waiting (p₁.tensor h₂) h₃ (by simp [hx]) (by simp [hne]) (by simp)
      exact p₂.weaken (by simp +contextual)

theorem qkNorm_built (p : Progress ins b₀ b known waiting ms) {q k : TensorId} {r : TensorId × TensorId}
    (h : (dir.qkNorm L li pfx q k).run b = .ok (r, b')) (hq : q ∈ known) (hk : k ∈ known) :
    Progress ins b₀ b' (r.1 :: r.2 :: known) waiting ms := by
  unfold qkNorm at h
  split at h
  · obtain ⟨rfl, rfl⟩ := pure_ok h
    exact p.weaken (by simp [hq, hk])
  · obtain ⟨wQn, b₁, h₁, h⟩ := step_ok h
    obtain ⟨wKn, b₂, h₂, h⟩ := step_ok h
    obtain ⟨qIn, b₃, h₃, h⟩ := step_ok h
    obtain ⟨kIn, b₄, h₄, h⟩ := step_ok h
    obtain ⟨rfl, rfl⟩ := pure_ok h
    have p₂ := weightRef (weightRef p h₁) h₂
    have p₃ : Progress ins b₀ b₃ (qIn :: (present wKn ++ known)) waiting ms := by
      split at h₃
      · next hne => exact (p₂.emit h₃ (by decide) (by simp [hq, hne])).weaken (by grind)
      · obtain ⟨rfl, rfl⟩ := pure_ok h₃
        exact p₂.weaken (by grind)
    split at h₄
    · next hne => exact (p₃.emit h₄ (by decide) (by simp [hk, hne])).weaken (by grind)
    · obtain ⟨rfl, rfl⟩ := pure_ok h₄
      exact p₃.weaken (by grind)

theorem rope_built (p : Progress ins b₀ b known waiting ms) {q k : TensorId} {r : TensorId × TensorId}
    (h : (dir.rope L pfx q k).run b = .ok (r, b')) (hq : q ∈ known) (hk : k ∈ known) :
    Progress ins b₀ b' (r.1 :: r.2 :: known) waiting ms := by
  unfold rope at h
  split at h
  · obtain ⟨qRope, b₁, h₁, h⟩ := step_ok h
    obtain ⟨kRope, b₂, h₂, h⟩ := step_ok h
    obtain ⟨_, b₃, h₃, h⟩ := step_ok h
    obtain ⟨_, b₄, h₄, h⟩ := step_ok h
    obtain ⟨rfl, rfl⟩ := pure_ok h
    have p₂ := (p.tensor h₁).tensor h₂
    have p₃ := p₂.fill [kRope] waiting h₃ (by decide) (by simp [hq])
    have p₄ := p₃.fill [] waiting h₄ (by decide) (by simp [hk])
    exact p₄.weaken (by simp +contextual)
  · obtain ⟨rfl, rfl⟩ := pure_ok h
    exact p.weaken (by simp [hq, hk])

theorem layerId_attnAttrs : layerId (dir.attnAttrs li) = some (li : Int) := by
  simp [layerId, attnAttrs]

/-- Past the check for its norm, a layer has one Attention node. -/
theorem attention_built {features attnNorm attnNormB bo : TensorId} (p : Progress ins b₀ b known waiting ms)
    (h : (dir.attention L li pfx features attnNorm attnNormB wo bo).run b = .ok (t, b')) (hfeatures : features ∈ known)
    (hthere : ∀ w ∈ [attnNorm, attnNormB, wo, bo], w ≠ 0 → w ∈ known) :
    Progress ins b₀ b' (t :: known) waiting (ms ++ [.attention (some (li : Int))]) := by
  simp only [List.forall_mem_cons] at hthere
  obtain ⟨hnorm, hnormB, hwo, hbo, -⟩ := hthere
  obtain ⟨n1, b₁, h₁, h⟩ := step_ok h
  obtain ⟨_, b₂, h₂, h⟩ := step_ok h
  obtain ⟨hne, rfl⟩ := refuseIf_ok h₂
  obtain ⟨_, b₃, h₃, h⟩ := step_ok h
  obtain ⟨q, b₄, h₄, h⟩ := step_ok h
  obtain ⟨k, b₅, h₅, h⟩ := step_ok h
  obtain ⟨v, b₆, h₆, h⟩ := step_ok h
  obtain ⟨⟨q', k', v'⟩, b₇, h₇, h⟩ := step_ok h
  obtain ⟨⟨qN, kN⟩, b₈, h₈, h⟩ := step_ok h
  obtain ⟨⟨qIn, kIn⟩, b₉, h₉, h⟩ := step_ok h
  obtain ⟨attn, b₁₀, h₁₀, h⟩ := step_ok h
  obtain ⟨attnO0, b₁₁, h₁₁, h⟩ := step_ok h
  obtain ⟨attnO, b₁₂, h₁₂, h⟩ := step_ok h
  have p₃ := normed [] waiting (p.tensor h₁) h₃ hfeatures (hnorm hne) hnormB
  have p₆ := ((p₃.tensor h₄).tensor h₅).tensor h₆
  have p₇ : Progress ins b₀ b₇ (q' :: k' :: v' :: known) waiting ms ∧ wo ≠ 0 := by
    split at h₇
    · obtain ⟨_, b₇', hfused, h₇⟩ := step_ok h₇
      obtain ⟨he, rfl⟩ := pure_ok h₇
      obtain ⟨rfl, rfl, rfl⟩ := he
      obtain ⟨pf, hwo'⟩ := fusedQkv_built p₆ hfused (by simp)
      exact ⟨pf.weaken (by grind), hwo'⟩
    · obtain ⟨ps, hwo'⟩ := splitQkv_built p₆ h₇ (by simp)
      exact ⟨ps.abandon.abandon.abandon.weaken (by grind), hwo'⟩
  obtain ⟨p₇, hwo'⟩ := p₇
  have hmem := hwo hwo'
  have p₈ := qkNorm_built p₇ h₈ (by simp) (by simp)
  have p₉ := rope_built p₈ h₉ (by simp) (by simp)
  have p₁₀ := p₉.attention h₁₀ (by simp)
  rw [layerId_attnAttrs] at p₁₀
  have p₁₁ := p₁₀.emit h₁₁ (by decide) (by simp [hmem])
  have p₁₂ := biased p₁₁ h₁₂ (by simp) (by simp +contextual [hbo])
  exact (postNormed p₁₂ h (by simp)).weaken (by grind)

/-! ## The layers -/

theorem layer_built {features : TensorId} (h : (dir.layer L li features).run b = .ok (t, b')) (hw : Wired ins b)
    (hready : Ready ins b features) :
    ∃ zeros, Grows ins b b' [] (.attention (some (li : Int)) :: zeros) ∧ Ready ins b' t ∧ (∀ m ∈ zeros, m = .readsZero) ∧
      (zeros = [] ↔ dir.MlpComplete L li) := by
  obtain ⟨attnNorm, b₁, h₁, h⟩ := step_ok h
  obtain ⟨attnNormB, b₂, h₂, h⟩ := step_ok h
  obtain ⟨ffnNorm, b₃, h₃, h⟩ := step_ok h
  obtain ⟨ffnNormB, b₄, h₄, h⟩ := step_ok h
  obtain ⟨wo, b₅, h₅, h⟩ := step_ok h
  obtain ⟨bo, b₆, h₆, h⟩ := step_ok h
  obtain ⟨attnO, b₇, h₇, h⟩ := step_ok h
  obtain ⟨resid1, b₈, h₈, h⟩ := step_ok h
  obtain ⟨mlpIn, b₉, h₉, h⟩ := step_ok h
  obtain ⟨ffOut, b₁₀, h₁₀, h⟩ := step_ok h
  obtain ⟨ffPost, b₁₁, h₁₁, h⟩ := step_ok h
  obtain ⟨ffShared, b₁₂, h₁₂, h⟩ := step_ok h
  have p₀ : Progress ins b b [features] [] [] := .start hw (by simpa using hready)
  have p₂ := named (weightRef p₀ h₁) h₂
  have p₆ := named (weightRef (named (weightRef p₂ h₃) h₄) h₅) h₆
  have p₇ := attention_built p₆ h₇ (by simp) (by simp +contextual)
  have p₈ : Progress ins b b₈ (present resid1 ++ (attnO :: features :: (present ffnNormB ++ present ffnNorm))) [] [.attention (some (li : Int))] ∧
      (dir.config.useParallelResidual = false → resid1 ≠ 0) := by
    split at h₈
    · next hpar =>
      obtain ⟨rfl, rfl⟩ := pure_ok h₈
      exact ⟨p₇.weaken (by simp; grind), by simp [hpar]⟩
    · have p' := p₇.emit h₈ (by decide) (by simp)
      exact ⟨p'.weaken (by grind [mem_present]), fun _ => (p'.ready resid1 (by simp)).ne_zero p'.wired⟩
  obtain ⟨p₈, hresid⟩ := p₈
  have hin : (if dir.config.useParallelResidual then features else resid1) ∈
      present resid1 ++ (attnO :: features :: (present ffnNormB ++ present ffnNorm)) := by
    split
    · simp
    · next hpar => simp [hresid (by simpa using hpar)]
  have p₉ : Progress ins b b₉ (mlpIn :: (present resid1 ++ [attnO, features])) [] [.attention (some (li : Int))] := by
    split at h₉
    · obtain ⟨rfl, rfl⟩ := pure_ok h₉
      exact (p₈.learn (p₈.ready _ hin)).weaken (by grind)
    · next hne =>
      obtain ⟨n2, b₉', hn2, h₉⟩ := step_ok h₉
      obtain ⟨_, b₉'', hnorm, h₉⟩ := step_ok h₉
      obtain ⟨rfl, rfl⟩ := pure_ok h₉
      exact (normed [] [] (p₈.tensor hn2) hnorm hin (by simp [hne]) (by simp +contextual)).weaken (by grind)
  obtain ⟨zeros, p₁₀, hzeros, hiff⟩ := mlp_built p₉ h₁₀ (by simp)
  have p₁₁ : Progress ins b b₁₁ (present ffPost ++ (mlpIn :: (present resid1 ++ [attnO, features]))) []
      ([.attention (some (li : Int))] ++ zeros) := by
    split at h₁₁
    · obtain ⟨rfl, rfl⟩ := pure_ok h₁₁
      exact p₁₀
    · next hne => exact (postNormed p₁₀ h₁₁ (by simp [hne])).weaken (by grind [mem_present])
  have p₁₂ : Progress ins b b₁₂ (present ffShared ++ (mlpIn :: (present resid1 ++ [attnO, features]))) []
      ([.attention (some (li : Int))] ++ zeros) := by
    split at h₁₂
    · obtain ⟨rfl, rfl⟩ := pure_ok h₁₂
      exact p₁₁
    · next hne =>
      exact (sharedExpert_built p₁₁ h₁₂ (by simp) (by simp [(not_or.mp hne).1])).weaken (by grind [mem_present])
  have p₁₃ := residual_built p₁₂ h (by simp) (by simp) (fun hpar => by simp [hresid hpar]) (by simp +contextual)
  exact ⟨zeros, p₁₃.grows, p₁₃.ready t (by simp), hzeros, hiff⟩

theorem layers_built : ∀ {remaining li : Nat} {features : TensorId} {b b' : GraphBuilder R} {t : TensorId},
    (dir.layers L remaining li features).run b = .ok (t, b') → Wired ins b → Ready ins b features →
    ∃ ms, Grows ins b b' [] ms ∧ Ready ins b' t ∧ ms.filterMap Mark.layer = (layerMarks li remaining).filterMap Mark.layer ∧
      (Mark.readsZero ∉ ms ↔ ∀ i, li ≤ i → i < li + remaining → dir.MlpComplete L i)
  | 0, li, features, b, _, _, h, hw, hready => by
    obtain ⟨rfl, rfl⟩ := pure_ok h
    exact ⟨[], .refl hw, hready, rfl, by simp; omega⟩
  | remaining + 1, li, features, b, _, _, h, hw, hready => by
    obtain ⟨f, b₁, h₁, h⟩ := step_ok h
    obtain ⟨zeros, g, hf, hzeros, hiff⟩ := layer_built h₁ hw hready
    obtain ⟨ms, g', ht, hlayers, hms⟩ := layers_built h g.wired hf
    have hquiet : zeros.filterMap Mark.layer = [] := by
      rw [List.filterMap_eq_nil_iff]
      intro m hm
      rw [hzeros m hm]
      rfl
    have hno : Mark.readsZero ∉ zeros ↔ zeros = [] := by
      constructor
      · intro hno
        refine List.eq_nil_iff_forall_not_mem.mpr fun m hm => hno ?_
        rwa [← hzeros m hm]
      · rintro rfl
        simp
    refine ⟨_, g.trans g', ht, ?_, ?_⟩
    · rw [List.cons_append, List.filterMap_cons, List.filterMap_append, hquiet, List.nil_append, hlayers, layerMarks_succ]
      rfl
    · rw [List.cons_append, List.mem_cons, List.mem_append, not_or, not_or, hno, hiff, hms, forall_layers_succ]
      exact and_iff_right (by simp)

/-! ## The graph -/

theorem outNorm_built {features : TensorId} (p : Progress ins b₀ b known waiting ms)
    (h : (dir.outNorm L features).run b = .ok (t, b')) (hfeatures : features ∈ known) :
    Progress ins b₀ b' (t :: known) waiting ms := by
  unfold outNorm at h
  split at h
  · obtain ⟨rfl, rfl⟩ := pure_ok h
    exact p.learn (p.ready _ hfeatures)
  · obtain ⟨nshape, b₁, h₁, h⟩ := step_ok h
    obtain ⟨-, rfl⟩ := attempt_ok h₁
    obtain ⟨nw, b₂, h₂, h⟩ := step_ok h
    obtain ⟨nb, b₃, h₃, h⟩ := step_ok h
    obtain ⟨nout, b₄, h₄, h⟩ := step_ok h
    obtain ⟨_, b₅, h₅, h⟩ := step_ok h
    obtain ⟨rfl, rfl⟩ := pure_ok h
    have p₂ := p.weight h₂
    have p₃ : Progress ins b₀ b₃ (present nb ++ (nw :: known)) waiting ms := by
      split at h₃
      · exact (p₂.weight h₃).weaken (by grind [mem_present])
      · obtain ⟨rfl, rfl⟩ := pure_ok h₃
        exact p₂
    have p₄ := p₃.tensor h₄
    have p₅ : Progress ins b₀ b₅ (nout :: (present nb ++ (nw :: known))) waiting ms := by
      split at h₅
      · next hne => exact p₄.fill [] waiting h₅ (by decide) (by simp [hfeatures, hne.2])
      · exact p₄.fill [] waiting h₅ (by decide) (by simp [hfeatures])
    exact p₅.weaken (by grind)

/-- The graph up to the scores. -/
theorem build_features {floatText : R → String} {nLayers : Int} {embShape lmShape : List Int}
    (h : (dir.build L floatText nLayers embShape lmShape).run ((GraphBuilder.init "hf_transformer").setProducer "uaii-hf-loader") =
      .ok (u, b')) :
    ∃ tokens features lmW b₂ b₇ b₈ ms, b₂.graph.marks = [] ∧ Progress [tokens] b₂ b₇ [lmW, features] [] ms ∧
      ms.filterMap Mark.layer = (layerMarks 0 nLayers.toNat).filterMap Mark.layer ∧
      (Mark.readsZero ∉ ms ↔ ∀ i, 0 ≤ i → i < 0 + nLayers.toNat → dir.MlpComplete L i) ∧
      (dir.head features lmW tokens).run b₇ = .ok ((), b₈) ∧ (addMetadata (dir.endMetadata L floatText nLayers)).run b₈ = .ok (u, b') := by
  obtain ⟨_, b₁, h₁, h⟩ := step_ok h
  obtain ⟨tokens, b₂, h₂, h⟩ := step_ok h
  obtain ⟨embW, b₃, h₃, h⟩ := step_ok h
  obtain ⟨hidden, b₄, h₄, h⟩ := step_ok h
  obtain ⟨features, b₅, h₅, h⟩ := step_ok h
  obtain ⟨normed, b₆, h₆, h⟩ := step_ok h
  obtain ⟨lmW, b₇, h₇, h⟩ := step_ok h
  obtain ⟨_, b₈, h₈, h⟩ := step_ok h
  obtain ⟨hw, hnodes, -⟩ := addMetadata_start h₁
  have p₄ := embedding_built ((Progress.begin hw h₂).weight h₃) h₄ (by simp) (by simp)
  obtain ⟨ms, g, hready, hlist, hms⟩ := layers_built h₅ p₄.wired (p₄.ready hidden (by simp))
  have p₆ := outNorm_built ((p₄.call g).learn hready) h₆ (by simp)
  refine ⟨tokens, normed, lmW, b₂, b₇, b₈, ms, tensor_nodes h₂ hnodes, ?_, hlist, hms, h₈, h⟩
  split at h₇
  · obtain ⟨rfl, rfl⟩ := pure_ok h₇
    exact p₆.weaken (by simp)
  · exact (p₆.weight h₇).weaken (by simp)

theorem build_built {floatText : R → String} {nLayers : Int} {embShape lmShape : List Int}
    (h : (dir.build L floatText nLayers embShape lmShape).run ((GraphBuilder.init "hf_transformer").setProducer "uaii-hf-loader") =
      .ok (u, b')) :
    LayersMatch b'.graph ∧ (WellBuilt b'.graph ↔ ∀ li : Nat, (li : Int) < nLayers → dir.MlpComplete L li) := by
  obtain ⟨tokens, features, lmW, b₂, b₇, b₈, ms, hempty, p₇, hlist, hms, h₈, h⟩ := build_features h
  obtain ⟨logits, b₉, h₉, h₈⟩ := step_ok h₈
  obtain ⟨logitsIn, b₁₀, h₁₀, h₈⟩ := step_ok h₈
  obtain ⟨probs, b₁₁, h₁₁, h₈⟩ := step_ok h₈
  have p₉ := p₇.emit h₉ (by decide) (by simp)
  have p₁₀ : Progress [tokens] b₂ b₁₀ [logitsIn] [] ms := by
    split at h₁₀
    · exact (p₉.emit h₁₀ (by decide) (by simp)).weaken (by simp)
    · obtain ⟨rfl, rfl⟩ := pure_ok h₁₀
      exact p₉.weaken (by simp)
  have p₁₁ := p₁₀.emit h₁₁ (by decide) (by simp)
  obtain ⟨hbuilt, hmarks, hentry⟩ := p₁₁.finished hempty (emit_produced h₁₁) h₈ h
  rw [hlist, layerMarks_layer] at hmarks
  refine ⟨?_, ?_⟩
  · have hcount : metaI64 b'.graph "n_layers" 0 = (stoll (toText nLayers)).getD 0 := by
      rw [metaI64_eq, hentry, endMetadata]
      by_cases hscaling : dir.config.ropeScalingType = "" <;> by_cases htpl : dir.config.chatTemplate = "" <;>
        simp [hscaling, htpl]
    rw [layersMatch_iff hmarks, hcount, stoll_toText]
    split
    · simp
    · simp
  · rw [hbuilt, hms]
    constructor
    · intro hall li hlt
      exact hall li (Nat.zero_le _) (by omega)
    · intro hall li _ hlt
      exact hall li (by omega)

/-- The graph of a directory. -/
theorem load_built {floatText : R → String} {cap : Int} {g : Graph R} (h : dir.load floatText cap = .ok g) :
    ∃ L, dir.checkedLayout = .ok L ∧ LayersMatch g ∧
      (WellBuilt g ↔ ∀ li : Nat, (li : Int) < applyLayerCap cap dir.config.numHiddenLayers → dir.MlpComplete L li) := by
  obtain ⟨L, hL, h⟩ := bind_ok h
  obtain ⟨embShape, -, h⟩ := bind_ok h
  obtain ⟨lmShape, -, h⟩ := bind_ok h
  obtain ⟨⟨u, b⟩, hb, h⟩ := bind_ok h
  obtain rfl := Except.ok.inj h
  exact ⟨L, hL, build_built hb⟩

end HfDirectory

end Uaii.Loaders
