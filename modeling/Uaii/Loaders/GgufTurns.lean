/-
  Uaii.Loaders.GgufTurns — how the queries and the keys of a GGUF file's graph are turned.

  Every Attention node belongs to a layer, reads queries that one RoPE node turns and keys
  that another one turns. Where latent attention has queries that are wider than its keys,
  the keys are put together from a part that is not turned and one that is turned for all
  heads before; in every other layer the two RoPE nodes have the same attributes.
-/

import Uaii.Ir.Quiet
import Uaii.Loaders.GgufGraphs
import Uaii.Loaders.RopeNodes

namespace Uaii.Loaders

open Uaii.Ir Uaii.Ir.Build

variable {R : Type} {ins : List TensorId} {b b' : GraphBuilder R} {known : List TensorId} {t : TensorId} {u : Unit}

namespace GgufImport

variable {m : GgufImport R} {pfx : String} {w : LayerWeights}

/-! ## Parts of a layer without Attention nodes -/

section Parts

theorem addWeightRef_quiet {name : String} : Quiet (m.addWeightRef name) := by
  unfold addWeightRef
  split
  · exact .ret
  · exact .bind .refuses fun _ => .weighs

theorem addWeightRefs_quiet : ∀ rests : List String, Quiet (m.addWeightRefs pfx rests)
  | [] => .ret
  | _ :: rests => .bind addWeightRef_quiet fun _ => .bind (addWeightRefs_quiet rests) fun _ => .ret

theorem layerWeights_quiet : Quiet (m.layerWeights pfx) :=
  .bind (addWeightRefs_quiet _) fun _ => .bind (.ite (addWeightRefs_quiet _) .ret) fun _ =>
    .bind (addWeightRefs_quiet _) fun _ => .ret

theorem maybeAdd_quiet {name : String} {dim : Int} {x bias : TensorId} : Quiet (maybeAdd pfx name dim x bias : Build R TensorId) :=
  .ite .ret (.emits (by decide))

theorem fusedQkv_quiet {n1 : TensorId} : Quiet (m.fusedQkv pfx w n1) :=
  .bind (.emits (by decide)) fun _ => .bind maybeAdd_quiet fun _ => .bind .declares fun _ => .bind .declares fun _ =>
    .bind .declares fun _ => .bind (.adds (by decide)) fun _ => .bind (.adds (by decide)) fun _ =>
      .bind (.adds (by decide)) fun _ => .ret

theorem splitQkv_quiet {n1 : TensorId} : Quiet (m.splitQkv pfx w n1) :=
  .bind .declares fun _ => .bind .declares fun _ => .bind .declares fun _ => .bind (.adds (by decide)) fun _ =>
    .bind (.adds (by decide)) fun _ => .bind (.adds (by decide)) fun _ => .bind maybeAdd_quiet fun _ =>
      .bind maybeAdd_quiet fun _ => .bind maybeAdd_quiet fun _ => .ret

theorem experts_quiet {gate up down : GgufTensorInfo} : ∀ remaining e : Nat, Quiet (m.experts pfx gate up down remaining e)
  | 0, _ => .ret
  | remaining + 1, e => .bind .weighs fun _ => .bind .weighs fun _ => .bind .weighs fun _ =>
    .bind (experts_quiet remaining (e + 1)) fun _ => .ret

theorem sharedExpert_quiet {mlpIn ffOut : TensorId} : Quiet (m.sharedExpert pfx w mlpIn ffOut) :=
  .ite .ret
    (.bind .declares fun _ => .bind .declares fun _ => .bind (.adds (by decide)) fun _ => .bind (.adds (by decide)) fun _ =>
      .bind (.emits (by decide)) fun _ => .bind (.emits (by decide)) fun _ => .bind (.emits (by decide)) fun _ => .emits (by decide))

theorem moe_quiet {mlpIn resid1 : TensorId} {gate up down : GgufTensorInfo} : Quiet (m.moe pfx w mlpIn resid1 gate up down) :=
  .bind .refuses fun _ => .bind .refuses fun _ => .bind .declares fun _ => .bind .declares fun _ =>
    .bind (.adds (by decide)) fun _ => .bind (experts_quiet _ _) fun _ => .bind (.emits (by decide)) fun _ =>
      .bind sharedExpert_quiet fun _ => .emits (by decide)

theorem swiGlu_quiet {mlpIn resid1 : TensorId} : Quiet (m.swiGlu pfx w mlpIn resid1) :=
  .bind .declares fun _ => .bind .declares fun _ => .bind (.adds (by decide)) fun _ => .bind (.adds (by decide)) fun _ =>
    .bind (.emits (by split <;> decide)) fun _ => .bind (.emits (by decide)) fun _ => .bind (.emits (by decide)) fun _ =>
      .emits (by decide)

theorem dense_quiet {mlpIn resid1 : TensorId} : Quiet (m.dense pfx w mlpIn resid1) :=
  .bind (.emits (by decide)) fun _ => .bind (.emits (by decide)) fun _ => .bind (.emits (by decide)) fun _ => .emits (by decide)

variable [Field R]

theorem addNorm_quiet {ln rms : String} {x weight bias y : TensorId} : Quiet (m.addNorm ln rms x weight bias y) :=
  .ite (.adds (by decide)) (.adds (by decide))

theorem mlaQ_quiet {n1 : TensorId} : Quiet (m.mlaQ pfx w n1) :=
  .ite
    (.bind .refuses fun _ => .bind (.emits (by decide)) fun _ => .bind (.ite (.emits (by decide)) .ret) fun _ =>
      .emits (by decide))
    (.ite (.emits (by decide)) .fails)

theorem mlaLatent_quiet {n1 : TensorId} : Quiet (m.mlaLatent pfx w n1) :=
  .bind .refuses fun _ => .bind (.emits (by decide)) fun _ =>
    .bind (.ite (.bind .refuses fun _ => .emits (by decide)) .ret) fun _ =>
      .ite (.bind .refuses fun _ => .bind (.emits (by decide)) fun _ => .ret) .ret

theorem mlaAssemble_quiet {kvc : TensorId} {qkv : LayerQkv} : Quiet (m.mlaAssemble pfx kvc qkv) :=
  .bind .refuses fun _ => .bind (.emits (by decide)) fun _ => .bind (.emits (by decide)) fun _ =>
    .bind (.emits (by decide)) fun _ => .ret

theorem mlaQkv_quiet {n1 : TensorId} : Quiet (m.mlaQkv pfx w n1) :=
  .bind .refuses fun _ => .bind mlaQ_quiet fun _ => .bind mlaLatent_quiet fun _ => .bind .declares fun _ =>
    .bind .declares fun _ => .bind (.adds (by decide)) fun _ => .bind (.adds (by decide)) fun _ =>
      .ite mlaAssemble_quiet .ret

theorem headNorm_quiet {name rest : String} {dim : Int} {x : TensorId} : Quiet (m.headNorm pfx w name rest dim x) :=
  .ite .ret (.emits (by decide))

theorem mlp_quiet {resid1 : TensorId} : Quiet (m.mlp pfx w resid1) := by
  refine .bind (.ite .ret (.bind .declares fun _ => .bind addNorm_quiet fun _ => .ret)) fun mlpIn => ?_
  split
  · exact moe_quiet
  · exact .ite .ret (.ite swiGlu_quiet dense_quiet)

theorem outNorm_quiet {features : TensorId} : Quiet (m.outNorm features) := by
  unfold outNorm
  split
  · exact .ret
  · refine .bind .refuses fun _ => .bind .weighs fun _ => .bind ?_ fun _ => .bind .declares fun _ =>
      .bind addNorm_quiet fun _ => .ret
    split
    · exact .ite .weighs .ret
    · exact .ret

end Parts

/-! ## The keys before `k_rope` -/

section Keys

variable [Field R] (m : GgufImport R) (pfx : String) (w : LayerWeights)

/-- The keys are put together. -/
def Assembles : Prop := m.isMla pfx w ∧ m.mlaQDim pfx w ≠ weightOutDim (m.info pfx "attn_k_b.weight")

/-- `layer_rope_hd` of keys that are not put together. -/
def plainRopeHd : Int := if m.isMla pfx w then m.mlaRopeHd (m.mlaQDim pfx w) else m.file.headDim m.dim

/-- The attributes of `k_pe_rope`. -/
def sharedRopeAttrs (rope : Int) : List (Attribute R) :=
  [⟨"theta", .float (m.file.ropeTheta m.floats)⟩, ⟨"head_dim", .int rope⟩, ⟨"mode", .int m.file.ropeMode⟩]

/-- The widths of a head's two parts. -/
structure Parts (nope rope : Int) : Prop where
  nope_pos : 0 < nope
  rope_pos : 0 < rope
  nope_given : 0 < m.file.qkNopeHeadDim → nope = m.file.qkNopeHeadDim
  rope_given : 0 < m.file.qkRopeHeadDim → rope = m.file.qkRopeHeadDim

/-- The keys of a layer as they are projected. -/
def Keys (g : Graph R) (r : LayerQkv) : Prop :=
  (r.kAssembled = false ∧ ¬ m.Assembles pfx w ∧ r.ropeHd = m.plainRopeHd pfx w) ∨
    (r.kAssembled = true ∧ m.Assembles pfx w ∧ ∃ nope rope, Parts m nope rope ∧ r.ropeHd = nope + rope ∧
      Turned g r.k nope (m.sharedRopeAttrs rope))

end Keys

section Turns

variable [Field R]

theorem mlaAssemble_turns {kvc : TensorId} {qkv r : LayerQkv} (h : (m.mlaAssemble pfx kvc qkv).run b = .ok (r, b')) :
    r.kAssembled = true ∧ ∃ nope rope, Parts m nope rope ∧ r.ropeHd = nope + rope ∧
      Turned b'.graph r.k nope (m.sharedRopeAttrs rope) := by
  obtain ⟨nope, rope, hparts⟩ : ∃ nope rope,
      m.nopeRope qkv.qDim qkv.kvDim (m.kvcFullDim pfx - m.latentDim pfx) = (nope, rope) := ⟨_, _, rfl⟩
  unfold mlaAssemble at h
  dsimp only at h
  rw [hparts] at h
  obtain ⟨_, b₁, h₁, h⟩ := step_ok h
  obtain ⟨hfits, rfl⟩ := refuseIf_ok h₁
  obtain ⟨kPe, b₂, h₂, h⟩ := step_ok h
  obtain ⟨kPeR, b₃, h₃, h⟩ := step_ok h
  obtain ⟨kFull, b₄, h₄, h⟩ := step_ok h
  obtain ⟨rfl, rfl⟩ := pure_ok h
  simp only [not_or, not_le] at hfits
  refine ⟨rfl, nope, rope, ⟨hfits.1, hfits.2.1, fun hgiven => ?_, fun hgiven => ?_⟩, rfl, ?_⟩
  · have hno : ¬ m.file.qkNopeHeadDim ≤ 0 := not_le.mpr hgiven
    have hnope := congrArg Prod.fst hparts
    simpa [nopeRope, hno] using hnope.symm
  · have hno : ¬ m.file.qkRopeHeadDim ≤ 0 := not_le.mpr hgiven
    have hrope := congrArg Prod.snd hparts
    simpa [nopeRope, hgiven, hno] using hrope.symm
  · obtain ⟨n₃, hn₃, hop₃, hin₃, hout₃, hattr₃⟩ := emit_nodes h₃
    obtain ⟨n₄, hn₄, hop₄, hin₄, hout₄, hattr₄⟩ := emit_nodes h₄
    have hrope := Turned.rope (g := b₄.graph) (n := n₃) (by rw [hn₄, hn₃]; simp) hop₃ hin₃ hout₃
    rw [hattr₃] at hrope
    have hall := Turned.expanded (g := b₄.graph) (n := n₄) (by rw [hn₄]; simp) hop₄ hin₄ hout₄ hrope
    rw [hattr₄] at hall
    exact hall

theorem mlaQkv_turns {n1 : TensorId} {r : LayerQkv} (h : (m.mlaQkv pfx w n1).run b = .ok (r, b')) (hmla : m.isMla pfx w) :
    Keys m pfx w b'.graph r := by
  obtain ⟨_, b₁, h₁, h⟩ := step_ok h
  obtain ⟨q, b₂, h₂, h⟩ := step_ok h
  obtain ⟨⟨kvc, latent⟩, b₃, h₃, h⟩ := step_ok h
  obtain ⟨k, b₄, h₄, h⟩ := step_ok h
  obtain ⟨v, b₅, h₅, h⟩ := step_ok h
  obtain ⟨_, b₆, h₆, h⟩ := step_ok h
  obtain ⟨_, b₇, h₇, h⟩ := step_ok h
  split at h
  · next hne =>
    obtain ⟨hassembled, hparts⟩ := mlaAssemble_turns h
    exact .inr ⟨hassembled, ⟨hmla, hne⟩, hparts⟩
  · next heq =>
    obtain ⟨rfl, rfl⟩ := pure_ok h
    refine .inl ⟨rfl, fun hyes => heq hyes.2, ?_⟩
    unfold plainRopeHd
    rw [if_pos hmla]

theorem qkv_turns {n1 : TensorId} {r : LayerQkv}
    (h : (if m.isMla pfx w then m.mlaQkv pfx w n1 else if w.id "attn_qkv.weight" ≠ 0 then m.fusedQkv pfx w n1
      else m.splitQkv pfx w n1).run b = .ok (r, b')) : Keys m pfx w b'.graph r := by
  split at h
  · next hmla => exact mlaQkv_turns h hmla
  · next hmla =>
    have hdense : ∃ q k v, r = m.denseQkv q k v := by
      split at h
      · obtain ⟨proj, b₁, h₁, h⟩ := step_ok h
        obtain ⟨qkv, b₂, h₂, h⟩ := step_ok h
        obtain ⟨q, b₃, h₃, h⟩ := step_ok h
        obtain ⟨k, b₄, h₄, h⟩ := step_ok h
        obtain ⟨v, b₅, h₅, h⟩ := step_ok h
        obtain ⟨_, b₆, h₆, h⟩ := step_ok h
        obtain ⟨_, b₇, h₇, h⟩ := step_ok h
        obtain ⟨_, b₈, h₈, h⟩ := step_ok h
        obtain ⟨rfl, rfl⟩ := pure_ok h
        exact ⟨q, k, v, rfl⟩
      · obtain ⟨qProj, b₁, h₁, h⟩ := step_ok h
        obtain ⟨kProj, b₂, h₂, h⟩ := step_ok h
        obtain ⟨vProj, b₃, h₃, h⟩ := step_ok h
        obtain ⟨_, b₄, h₄, h⟩ := step_ok h
        obtain ⟨_, b₅, h₅, h⟩ := step_ok h
        obtain ⟨_, b₆, h₆, h⟩ := step_ok h
        obtain ⟨q, b₇, h₇, h⟩ := step_ok h
        obtain ⟨k, b₈, h₈, h⟩ := step_ok h
        obtain ⟨v, b₉, h₉, h⟩ := step_ok h
        obtain ⟨rfl, rfl⟩ := pure_ok h
        exact ⟨q, k, v, rfl⟩
    obtain ⟨q, k, v, rfl⟩ := hdense
    refine .inl ⟨rfl, fun hyes => hmla hyes.1, ?_⟩
    unfold plainRopeHd
    rw [if_neg hmla]
    rfl

/-! ## The attention of a layer -/

variable [LinearOrder R]

/-- The queries and the keys of an Attention node. -/
def RopePair (m : GgufImport R) (pfx : String) (w : LayerWeights) (g : Graph R) (n : Node R) : Prop :=
  ∃ q k v, n.inputs = [q, k, v] ∧
    ((¬ m.Assembles pfx w ∧ Turned g q 0 (m.ropeAttrs pfx w (m.plainRopeHd pfx w)) ∧
        Turned g k 0 (m.ropeAttrs pfx w (m.plainRopeHd pfx w))) ∨
      (m.Assembles pfx w ∧ ∃ nope rope, Parts m nope rope ∧ Turned g q 0 (m.ropeAttrs pfx w (nope + rope)) ∧
        (w.id "attn_k_norm.weight" = 0 → Turned g k nope (m.sharedRopeAttrs rope))))

theorem RopePair.mono {g g' : Graph R} {n : Node R} (h : RopePair m pfx w g n) (hsub : g.nodes <+: g'.nodes) :
    RopePair m pfx w g' n := by
  obtain ⟨q, k, v, hin, hor⟩ := h
  refine ⟨q, k, v, hin, ?_⟩
  rcases hor with ⟨hno, hq, hk⟩ | ⟨hyes, nope, rope, hparts, hq, hk⟩
  · exact .inl ⟨hno, hq.mono hsub, hk.mono hsub⟩
  · exact .inr ⟨hyes, nope, rope, hparts, hq.mono hsub, fun h0 => (hk h0).mono hsub⟩

/-- The one Attention node that a layer adds. -/
theorem attention_turns {li : Nat} {features : TensorId} (h : (m.attention li pfx w features).run b = .ok (t, b')) :
    b.graph.nodes <+: b'.graph.nodes ∧ ∀ n ∈ b'.graph.nodes, n.opName = "Attention" →
      n ∈ b.graph.nodes ∨ (layerId n.attributes = some (li : Int) ∧ RopePair m pfx w b'.graph n) := by
  obtain ⟨n1, b₁, h₁, h⟩ := step_ok h
  obtain ⟨_, b₂, h₂, h⟩ := step_ok h
  obtain ⟨qkv, b₃, h₃, h⟩ := step_ok h
  obtain ⟨q, b₄, h₄, h⟩ := step_ok h
  obtain ⟨k, b₅, h₅, h⟩ := step_ok h
  obtain ⟨qRope, b₆, h₆, h⟩ := step_ok h
  obtain ⟨kRope, b₇, h₇, h⟩ := step_ok h
  obtain ⟨_, b₈, h₈, h⟩ := step_ok h
  obtain ⟨_, b₉, h₉, h⟩ := step_ok h
  obtain ⟨attn, b₁₀, h₁₀, h⟩ := step_ok h
  obtain ⟨attnO, b₁₁, h₁₁, h⟩ := step_ok h
  have hquiet₃ : Quiet (if m.isMla pfx w then m.mlaQkv pfx w n1 else if w.id "attn_qkv.weight" ≠ 0 then m.fusedQkv pfx w n1
      else m.splitQkv pfx w n1) := .ite mlaQkv_quiet (.ite fusedQkv_quiet splitQkv_quiet)
  have hkeys : Keys m pfx w b₃.graph qkv := qkv_turns h₃
  have hsub₃ : b₃.graph.nodes <+: b₇.graph.nodes :=
    (headNorm_quiet.sub h₄).trans ((headNorm_quiet.sub h₅).trans ((Quiet.declares.sub h₆).trans (Quiet.declares.sub h₇)))
  have hsub : b.graph.nodes <+: b₇.graph.nodes :=
    (Quiet.declares.sub h₁).trans ((addNorm_quiet.sub h₂).trans ((hquiet₃.sub h₃).trans hsub₃))
  -- the keys that were put together reach `k_rope` as they are if there is no norm
  have hplain : w.id "attn_k_norm.weight" = 0 → k = qkv.k := by
    intro h0
    unfold headNorm at h₅
    rw [if_pos h0] at h₅
    exact (pure_ok h₅).1.symm
  obtain ⟨n₈, hn₈, hop₈, hin₈, hout₈, hattr₈⟩ := node_nodes h₈
  obtain ⟨n₉, hn₉, hop₉, hin₉, hout₉, hattr₉⟩ := node_nodes h₉
  obtain ⟨n₁₀, hn₁₀, hop₁₀, hin₁₀, -, hattr₁₀⟩ := emit_nodes h₁₀
  obtain ⟨n₁₁, hn₁₁, hop₁₁, -⟩ := emit_nodes h₁₁
  obtain ⟨n₁₂, hn₁₂, hop₁₂, -⟩ := emit_nodes h
  have hall : b'.graph.nodes = b₇.graph.nodes ++ [n₈, n₉, n₁₀, n₁₁, n₁₂] := by
    rw [hn₁₂, hn₁₁, hn₁₀, hn₉, hn₈]
    simp
  have hq : Turned b'.graph qRope 0 (m.ropeAttrs pfx w qkv.ropeHd) :=
    hattr₈ ▸ Turned.rope (by rw [hall]; simp) hop₈ hin₈ hout₈
  refine ⟨hsub.trans (hall ▸ List.prefix_append _ _), fun n hn hop => ?_⟩
  rw [hall, List.mem_append] at hn
  rcases hn with hn | hn
  · have hn₃ := headNorm_quiet.old h₄ (headNorm_quiet.old h₅ (Quiet.declares.old h₆ (Quiet.declares.old h₇ hn hop) hop) hop) hop
    exact .inl (Quiet.declares.old h₁ (addNorm_quiet.old h₂ (hquiet₃.old h₃ hn₃ hop) hop) hop)
  · have hself : n = n₁₀ := by
      simp only [List.mem_cons, List.not_mem_nil, or_false] at hn
      rcases hn with rfl | rfl | rfl | rfl | rfl
      · exact absurd (hop₈.symm.trans hop) (by decide)
      · refine absurd (hop₉.symm.trans hop) ?_
        split <;> decide
      · rfl
      · exact absurd (hop₁₁.symm.trans hop) (by decide)
      · exact absurd (hop₁₂.symm.trans hop) (by decide)
    subst hself
    refine .inr ⟨by rw [hattr₁₀, layerId_attnAttrs], qRope, kRope, qkv.v, hin₁₀, ?_⟩
    rcases hkeys with ⟨hfalse, hno, hhd⟩ | ⟨htrue, hyes, nope, rope, hparts, hhd, hturned⟩
    · rw [hfalse] at hop₉ hattr₉
      have hk : Turned b'.graph kRope 0 n₉.attributes := .rope (by rw [hall]; simp) hop₉ hin₉ hout₉
      rw [hattr₉] at hk
      rw [hhd] at hq hk
      exact .inl ⟨hno, hq, hk⟩
    · rw [htrue] at hop₉
      rw [hhd] at hq
      refine .inr ⟨hyes, nope, rope, hparts, hq, fun h0 => ?_⟩
      have hk : Turned b'.graph k nope (m.sharedRopeAttrs rope) := by
        rw [hplain h0]
        exact hturned.mono (hsub₃.trans (hall ▸ List.prefix_append _ _))
      exact .copied (by rw [hall]; simp) hop₉ hin₉ hout₉ hk

/-! ## The layers -/

/-- The Attention nodes are of layers, and their queries and keys are turned as the layers say. -/
def LayersTurn (m : GgufImport R) (g : Graph R) : Prop :=
  ∀ n ∈ g.nodes, n.opName = "Attention" → ∃ (li : Nat) (w : LayerWeights), layerId n.attributes = some (li : Int) ∧
    (∀ rest ∈ firstNames ++ lastNames, w.id rest ≠ 0 ↔ m.file.has ("blk." ++ toText li ++ "." ++ rest)) ∧
    RopePair m ("blk." ++ toText li ++ ".") w g n

theorem LayersTurn.quiet {α : Type} {p : Build R α} {x : α} (h : LayersTurn m b.graph) (hp : Quiet p) (hrun : p.run b = .ok (x, b')) :
    LayersTurn m b'.graph := by
  intro n hn hop
  obtain ⟨li, w, hli, hid, hpair⟩ := h n (hp.old hrun hn hop) hop
  exact ⟨li, w, hli, hid, hpair.mono (hp.sub hrun)⟩

theorem block_turns {li : Nat} {mla : Bool} {features : TensorId} {r : Option (TensorId × Bool)}
    (h : (do
      let resid1 ← m.attention li ("blk." ++ toText li ++ ".") w features
      let features ← m.mlp ("blk." ++ toText li ++ ".") w resid1
      pure (some (features, mla)) : Build R (Option (TensorId × Bool))).run b = .ok (r, b'))
    (hid : ∀ rest ∈ firstNames ++ lastNames, w.id rest ≠ 0 ↔ m.file.has ("blk." ++ toText li ++ "." ++ rest))
    (hturn : LayersTurn m b.graph) : LayersTurn m b'.graph := by
  obtain ⟨resid1, b₁, h₁, h⟩ := step_ok h
  obtain ⟨f, b₂, h₂, h⟩ := step_ok h
  obtain ⟨-, rfl⟩ := pure_ok h
  obtain ⟨hsub, hnew⟩ := attention_turns h₁
  refine LayersTurn.quiet (b := b₁) (fun n hn hop => ?_) mlp_quiet h₂
  rcases hnew n hn hop with hn | ⟨hli, hpair⟩
  · obtain ⟨li', w', hli', hid', hpair'⟩ := hturn n hn hop
    exact ⟨li', w', hli', hid', hpair'.mono hsub⟩
  · exact ⟨li, w, hli, hid, hpair⟩

theorem layer_turns {li : Nat} {features : TensorId} {r : Option (TensorId × Bool)} (h : (m.layer li features).run b = .ok (r, b'))
    (hw : Wired ins b) (hturn : LayersTurn m b.graph) : LayersTurn m b'.graph := by
  obtain ⟨w, b₁, h₁, h⟩ := step_ok h
  obtain ⟨-, -, hid, -⟩ := layerWeights_grows h₁ hw
  have hturn₁ := hturn.quiet layerWeights_quiet h₁
  split at h
  · obtain ⟨rfl, rfl⟩ := pure_ok h
    exact hturn₁
  · split at h
    · obtain ⟨_, b₂, h₂, h⟩ := step_ok h
      obtain ⟨-, rfl⟩ := refuseIf_ok h₂
      obtain ⟨_, b₃, h₃, h⟩ := step_ok h
      obtain ⟨-, rfl⟩ := refuseIf_ok h₃
      exact block_turns h hid hturn₁
    · split at h
      · obtain ⟨rfl, rfl⟩ := pure_ok h
        exact hturn₁
      · exact block_turns h hid hturn₁

theorem layers_turns : ∀ {remaining li : Nat} {features : TensorId} {anyMla : Bool} {b b' : GraphBuilder R} {r : TensorId × Bool},
    (m.layers remaining li features anyMla).run b = .ok (r, b') → Wired ins b → Ready ins b features → LayersTurn m b.graph →
    LayersTurn m b'.graph
  | 0, li, features, anyMla, b, _, r, h, hw, hready, hturn => by
    obtain ⟨rfl, rfl⟩ := pure_ok h
    exact hturn
  | remaining + 1, li, features, anyMla, b, _, r, h, hw, hready, hturn => by
    obtain ⟨o, b₁, h₁, h⟩ := step_ok h
    have hturn₁ := layer_turns h₁ hw hturn
    rcases layer_built h₁ hw hready with ⟨rfl, -, -⟩ | ⟨f, mla, rfl, -, g, hf⟩
    · obtain ⟨rfl, rfl⟩ := pure_ok h
      exact hturn₁
    · exact layers_turns h g.wired hf hturn₁

theorem model_turns {floatText : R → String} {nLayers vocab : Int} {emb lm : GgufTensorInfo}
    (h : (m.model floatText nLayers vocab emb lm).run b = .ok (u, b')) (hw : Wired [] b) (h₀ : b.graph.nodes = []) :
    LayersTurn m b'.graph := by
  obtain ⟨_, b₁, h₁, h⟩ := step_ok h
  obtain ⟨tokens, b₂, h₂, h⟩ := step_ok h
  obtain ⟨_, b₃, h₃, h⟩ := step_ok h
  obtain ⟨-, rfl⟩ := refuseIf_ok h₃
  obtain ⟨embW, b₄, h₄, h⟩ := step_ok h
  obtain ⟨hidden, b₅, h₅, h⟩ := step_ok h
  obtain ⟨⟨features, anyMla⟩, b₆, h₆, h⟩ := step_ok h
  obtain ⟨_, b₇, h₇, h⟩ := step_ok h
  obtain ⟨normed, b₈, h₈, h⟩ := step_ok h
  obtain ⟨_, b₉, h₉, h⟩ := step_ok h
  obtain ⟨-, rfl⟩ := refuseIf_ok h₉
  obtain ⟨lmW, b₁₀, h₁₀, h⟩ := step_ok h
  obtain ⟨logits, b₁₁, h₁₁, h⟩ := step_ok h
  obtain ⟨probs, b₁₂, h₁₂, h⟩ := step_ok h
  obtain ⟨_, b₁₃, h₁₃, h⟩ := step_ok h
  have hempty : b₂.graph.nodes = [] := by
    obtain ⟨-, rfl⟩ := Prod.mk.inj (Except.ok.inj h₂)
    show b₁.graph.nodes = []
    rw [(addMetadata_run h₁).2.2.1]
    exact h₀
  have p₅ := ((Progress.begin (addMetadata_grows h₁ hw ranksMetadata_keys).wired h₂).weight h₄).emit h₅ (by decide) (by simp)
  have hempty : LayersTurn m b.graph := fun n hn => absurd hn (by rw [h₀]; exact List.not_mem_nil)
  have hturn₂ := (hempty.quiet .notes h₁).quiet .declares h₂
  have hturn₅ := (hturn₂.quiet .weighs h₄).quiet (.emits (by decide)) h₅
  have hturn₆ := layers_turns h₆ p₅.wired (p₅.ready hidden (by simp)) hturn₅
  have hturn₈ := (hturn₆.quiet .notes h₇).quiet outNorm_quiet h₈
  have hturn₁₀ := hturn₈.quiet (.ite .ret .weighs) h₁₀
  have hturn₁₂ := (hturn₁₀.quiet (.emits (by decide)) h₁₁).quiet (.emits (by decide)) h₁₂
  exact (hturn₁₂.quiet .ends h₁₃).quiet .notes h

end Turns

end GgufImport

/-- The width of the embedding. -/
def GgufHeader.width (file : GgufHeader) : Int := ((file.emb.map fun t => (dimsToShape t.dims).getD 1 1)).getD 0

/-- The graph of a GGUF file. -/
theorem ggufLoad_turns [Field R] [LinearOrder R] {floats : KvFloats R} {floatText : R → String} {cap : Int} {fs : FileSystem}
    {path : String} {g : Graph R} (h : ggufLoad floats floatText cap fs path = .ok g) :
    ∃ file, ggufReadHeader fs path = .ok file ∧ GgufImport.LayersTurn ⟨file, floats, file.width⟩ g := by
  obtain ⟨file, hfile, h⟩ := bind_ok h
  obtain ⟨_, -, h⟩ := bind_ok h
  obtain ⟨⟨u, b⟩, hb, h⟩ := bind_ok h
  obtain rfl := Except.ok.inj h
  obtain ⟨_, b₁, h₁, hb⟩ := step_ok hb
  obtain ⟨hw, h₀, -⟩ := addMetadata_start h₁
  refine ⟨file, hfile, ?_⟩
  split at hb
  · next emb lm hemb hlm =>
    obtain ⟨vocab, b₂, h₂, hb⟩ := step_ok hb
    have hsame : b₁ = b₂ := by
      split at h₂
      · exact (pure_ok h₂).2
      · exact (pure_ok h₂).2
      · cases h₂
    subst hsame
    have hwidth : file.width = (dimsToShape emb.dims).getD 1 1 := by
      unfold GgufHeader.width
      rw [hemb]
      rfl
    rw [hwidth]
    exact GgufImport.model_turns hb hw h₀
  · obtain ⟨-, hlayers, -⟩ := identityGraph_built hb GgufHeader.allWeights_grows hw h₀
    intro n hn hop
    have hmem : layerId n.attributes ∈ attentionLayers b.graph := by
      unfold attentionLayers
      exact List.mem_map.mpr ⟨n, List.mem_filter.mpr ⟨hn, by simp [hop]⟩, rfl⟩
    rw [hlayers] at hmem
    exact absurd hmem List.not_mem_nil

end Uaii.Loaders
