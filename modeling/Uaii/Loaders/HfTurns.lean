/-
  Uaii.Loaders.HfTurns — how the queries and the keys of a Hugging Face directory's graph
  are turned.

  A layout with rotary embeddings turns the queries and the keys of every layer by two RoPE
  nodes with the attributes that the configuration gives; the other layouts have no RoPE
  node.
-/

import Uaii.Ir.Quiet
import Uaii.Loaders.HfLoad
import Uaii.Loaders.LayerTurns

namespace Uaii.Loaders

open Uaii.Ir Uaii.Ir.Build Uaii.Kernels

namespace HfDirectory

variable {R : Type} {dir : HfDirectory R} {L : DecodedLayout} {li : Nat} {pfx : String}
  {b b' : GraphBuilder R} {t : TensorId} {u : Unit}

/-! ## Parts without Attention nodes -/

section Parts

theorem addWeightRef_quiet {name : String} {force : List Int} : Quiet (dir.addWeightRef name force) :=
  .ite .ret (.bind .attempts fun _ => .weighs)

theorem addNamed_quiet {rest : String} {force : List Int} : Quiet (dir.addNamed L li rest force) := .ite .ret addWeightRef_quiet

theorem maybeBias_quiet {name : String} {x bias : TensorId} {outDim : Int} : Quiet (maybeBias name x bias outDim : Build R TensorId) :=
  .ite .ret (.emits (by decide))

theorem mm_quiet {name : String} {x w y : TensorId} {transB : Bool} : Quiet (mm name x w y transB : Build R Unit) := .adds (by decide)

theorem splitQkv_quiet {n1 wo : TensorId} : Quiet (dir.splitQkv L li pfx n1 wo) :=
  .bind addWeightRef_quiet fun _ => .bind addWeightRef_quiet fun _ => .bind addWeightRef_quiet fun _ => .bind addNamed_quiet fun _ =>
    .bind addNamed_quiet fun _ => .bind addNamed_quiet fun _ => .bind .refuses fun _ => .bind .declares fun _ => .bind .declares fun _ =>
      .bind .declares fun _ => .bind mm_quiet fun _ => .bind mm_quiet fun _ => .bind mm_quiet fun _ => .bind maybeBias_quiet fun _ =>
        .bind maybeBias_quiet fun _ => .bind maybeBias_quiet fun _ => .ret

theorem fusedQkv_quiet {n1 q k v wo : TensorId} : Quiet (dir.fusedQkv L li pfx n1 q k v wo) :=
  .bind addWeightRef_quiet fun _ => .bind addNamed_quiet fun _ => .bind .refuses fun _ => .bind .declares fun _ => .bind mm_quiet fun _ =>
    .bind maybeBias_quiet fun _ => .bind (.adds (by decide)) fun _ => .bind (.adds (by decide)) fun _ => .adds (by decide)

theorem experts_quiet : ∀ remaining e : Nat, Quiet (dir.experts L li remaining e)
  | 0, _ => .ret
  | remaining + 1, e => .bind addWeightRef_quiet fun _ => .bind addWeightRef_quiet fun _ => .bind addWeightRef_quiet fun _ =>
    .bind .refuses fun _ => .bind (experts_quiet remaining (e + 1)) fun _ => .ret

theorem moe_quiet {mlpIn : TensorId} : Quiet (dir.moe L li pfx mlpIn) :=
  .bind addWeightRef_quiet fun _ => .bind .refuses fun _ => .bind .declares fun _ => .bind .declares fun _ =>
    .bind (.adds (by decide)) fun _ => .bind (experts_quiet _ _) fun _ => .emits (by decide)

theorem actOp_other (act : HiddenAct) : act.op ≠ "Attention" := by
  cases act <;> decide

theorem swiGlu_quiet {mlpIn : TensorId} : Quiet (dir.swiGlu L li pfx mlpIn) :=
  .bind addWeightRef_quiet fun _ => .bind addWeightRef_quiet fun _ => .bind addWeightRef_quiet fun _ => .bind .refuses fun _ =>
    .bind .declares fun _ => .bind .declares fun _ => .bind mm_quiet fun _ => .bind mm_quiet fun _ =>
      .bind (.emits (actOp_other _)) fun _ => .bind (.emits (by decide)) fun _ => .emits (by decide)

theorem dense_quiet {mlpIn : TensorId} : Quiet (dir.dense L li pfx mlpIn) := by
  refine .bind addWeightRef_quiet fun _ => .bind addWeightRef_quiet fun _ => .bind (.emits (by decide)) fun _ =>
    .bind (.emits ?_) fun _ => .emits (by decide)
  split
  · decide
  · exact actOp_other _

theorem mlp_quiet {mlpIn : TensorId} : Quiet (dir.mlp L li pfx mlpIn) :=
  .ite moe_quiet (.ite swiGlu_quiet (.ite dense_quiet .ret))

theorem sharedExpert_quiet {mlpIn ffOut : TensorId} : Quiet (dir.sharedExpert L li pfx mlpIn ffOut) :=
  .bind addWeightRef_quiet fun _ => .bind addWeightRef_quiet fun _ => .bind addWeightRef_quiet fun _ => .ite .ret
    (.bind .declares fun _ => .bind .declares fun _ => .bind mm_quiet fun _ => .bind mm_quiet fun _ =>
      .bind (.emits (actOp_other _)) fun _ => .bind (.emits (by decide)) fun _ => .bind (.emits (by decide)) fun _ => .emits (by decide))

theorem residual_quiet {features attnO resid1 ffOut : TensorId} : Quiet (dir.residual pfx features attnO resid1 ffOut) :=
  .ite (.bind .declares fun _ => .ite
      (.bind (.emits (by decide)) fun _ => .bind (.adds (by decide)) fun _ => .ret)
      (.bind (.adds (by decide)) fun _ => .ret))
    (.ite (.emits (by decide)) .ret)

theorem embedding_quiet {tokens embW : TensorId} : Quiet (dir.embedding L tokens embW) :=
  .bind .declares fun _ => .ite (.bind (.adds (by decide)) fun _ => .ret)
    (.bind (.emits (by decide)) fun _ => .bind .attempts fun _ => .bind .weighs fun _ => .bind (.emits (by decide)) fun _ =>
      .bind (.emits (by decide)) fun _ => .bind (.adds (by decide)) fun _ => .ret)

variable [Field R] [LinearOrder R]

theorem addNorm_quiet {name : String} {x w bias y : TensorId} : Quiet (dir.addNorm L name x w bias y) :=
  .ite (.adds (by decide)) (.adds (by decide))

theorem postNorm_quiet {name rms rest : String} {x : TensorId} : Quiet (dir.postNorm L li pfx name rms rest x) :=
  .ite .ret (.bind addWeightRef_quiet fun _ => .ite .ret (.bind .declares fun _ => .bind addNorm_quiet fun _ => .ret))

theorem qkNorm_quiet {q k : TensorId} : Quiet (dir.qkNorm L li pfx q k) :=
  .ite .ret (.bind addWeightRef_quiet fun _ => .bind addWeightRef_quiet fun _ => .bind (.ite (.emits (by decide)) .ret) fun _ =>
    .bind (.ite (.emits (by decide)) .ret) fun _ => .ret)

theorem outNorm_quiet {features : TensorId} : Quiet (dir.outNorm L features) :=
  .ite .ret (.bind .attempts fun _ => .bind .weighs fun _ => .bind (.ite .weighs .ret) fun _ => .bind .declares fun _ =>
    .bind (.ite (.adds (by decide)) (.adds (by decide))) fun _ => .ret)

theorem head_quiet {features lmW tokens : TensorId} : Quiet (dir.head features lmW tokens) :=
  .bind (.emits (by decide)) fun _ => .bind (.ite (.emits (by decide)) .ret) fun _ => .bind (.emits (by decide)) fun _ => .ends

end Parts

/-! ## The layers -/

variable [Field R] [LinearOrder R]

/-- Rotary embeddings. -/
def Rotates (dir : HfDirectory R) (L : DecodedLayout) : Prop := L.rope ∧ 0 ≤ dir.ropeMode L

/-- The queries and the keys of an Attention node. -/
def RopePair (dir : HfDirectory R) (g : Graph R) (n : Node R) : Prop :=
  ∃ q k v, n.inputs = [q, k, v] ∧ Turned g q 0 dir.config.ropeAttrs ∧ Turned g k 0 dir.config.ropeAttrs

theorem RopePair.mono {g g' : Graph R} {n : Node R} (h : RopePair dir g n) (hsub : g.nodes <+: g'.nodes) : RopePair dir g' n := by
  obtain ⟨q, k, v, hin, hq, hk⟩ := h
  exact ⟨q, k, v, hin, hq.mono hsub, hk.mono hsub⟩

/-- All Attention nodes so far. -/
def LayersTurn (dir : HfDirectory R) (g : Graph R) : Prop := ∀ n ∈ g.nodes, n.opName = "Attention" → RopePair dir g n

theorem LayersTurn.quiet {α : Type} {p : Build R α} {x : α} (h : LayersTurn dir b.graph) (hp : Quiet p) (hrun : p.run b = .ok (x, b')) :
    LayersTurn dir b'.graph := fun n hn hop => (h n (hp.old hrun hn hop) hop).mono (hp.sub hrun)

theorem attention_turns (hrot : dir.Rotates L) {features attnNorm attnNormB wo bo : TensorId}
    (h : (dir.attention L li pfx features attnNorm attnNormB wo bo).run b = .ok (t, b')) (hturn : LayersTurn dir b.graph) :
    LayersTurn dir b'.graph := by
  obtain ⟨n1, b₁, h₁, h⟩ := step_ok h
  obtain ⟨_, b₂, h₂, h⟩ := step_ok h
  obtain ⟨_, b₃, h₃, h⟩ := step_ok h
  obtain ⟨q₀, b₄, h₄, h⟩ := step_ok h
  obtain ⟨k₀, b₅, h₅, h⟩ := step_ok h
  obtain ⟨v₀, b₆, h₆, h⟩ := step_ok h
  obtain ⟨⟨q₁, k₁, v⟩, b₇, h₇, h⟩ := step_ok h
  obtain ⟨⟨q₂, k₂⟩, b₈, h₈, h⟩ := step_ok h
  obtain ⟨⟨q, k⟩, b₉, h₉, h⟩ := step_ok h
  obtain ⟨attn, b₁₀, h₁₀, hrest⟩ := step_ok h
  obtain ⟨attnO, b₁₁, h₁₁, hrest⟩ := step_ok hrest
  obtain ⟨attnB, b₁₂, h₁₂, hlast⟩ := step_ok hrest
  clear h hrest
  have hturn₆ := ((((hturn.quiet .declares h₁).quiet .refuses h₂).quiet addNorm_quiet h₃).quiet .declares h₄).quiet .declares h₅
    |>.quiet .declares h₆
  have hturn₈ := (hturn₆.quiet (.ite (.bind fusedQkv_quiet fun _ => .ret) splitQkv_quiet) h₇).quiet qkNorm_quiet h₈
  -- the two RoPE nodes, and the Attention node after them
  unfold rope at h₉
  rw [if_pos (show L.rope = true ∧ 0 ≤ dir.ropeMode L from hrot)] at h₉
  obtain ⟨qRope, c₁, i₁, h₉⟩ := step_ok h₉
  obtain ⟨kRope, c₂, i₂, h₉⟩ := step_ok h₉
  obtain ⟨_, c₃, i₃, h₉⟩ := step_ok h₉
  obtain ⟨_, c₄, i₄, h₉⟩ := step_ok h₉
  obtain ⟨heq, rfl⟩ := pure_ok h₉
  obtain ⟨rfl, rfl⟩ := Prod.mk.inj heq
  have hturn₂ := (hturn₈.quiet .declares i₁).quiet .declares i₂
  obtain ⟨n₃, hn₃, hop₃, hin₃, hout₃, hattr₃⟩ := node_nodes i₃
  obtain ⟨n₄, hn₄, hop₄, hin₄, hout₄, hattr₄⟩ := node_nodes i₄
  obtain ⟨n₅, hn₅, hop₅, hin₅, -, -⟩ := emit_nodes h₁₀
  have hall : b₁₀.graph.nodes = c₂.graph.nodes ++ [n₃, n₄, n₅] := by
    rw [hn₅, hn₄, hn₃]
    simp
  have hpair : RopePair dir b₁₀.graph n₅ :=
    ⟨qRope, kRope, v, hin₅, hattr₃ ▸ Turned.rope (by rw [hall]; simp) hop₃ hin₃ hout₃,
      hattr₄ ▸ Turned.rope (by rw [hall]; simp) hop₄ hin₄ hout₄⟩
  have hturn₁₀ : LayersTurn dir b₁₀.graph := by
    intro n hn hop
    rw [hall, List.mem_append] at hn
    rcases hn with hn | hn
    · exact (hturn₂ n hn hop).mono (hall ▸ List.prefix_append _ _)
    · simp only [List.mem_cons, List.not_mem_nil, or_false] at hn
      rcases hn with rfl | rfl | rfl
      · exact absurd (hop₃.symm.trans hop) (by decide)
      · exact absurd (hop₄.symm.trans hop) (by decide)
      · exact hpair
  exact ((hturn₁₀.quiet (.emits (by decide)) h₁₁).quiet maybeBias_quiet h₁₂).quiet postNorm_quiet hlast

theorem layer_turns (hrot : dir.Rotates L) {features : TensorId} (h : (dir.layer L li features).run b = .ok (t, b'))
    (hturn : LayersTurn dir b.graph) : LayersTurn dir b'.graph := by
  obtain ⟨_, b₁, h₁, h⟩ := step_ok h
  obtain ⟨_, b₂, h₂, h⟩ := step_ok h
  obtain ⟨_, b₃, h₃, h⟩ := step_ok h
  obtain ⟨_, b₄, h₄, h⟩ := step_ok h
  obtain ⟨_, b₅, h₅, h⟩ := step_ok h
  obtain ⟨_, b₆, h₆, h⟩ := step_ok h
  obtain ⟨attnO, b₇, h₇, h⟩ := step_ok h
  have hturn₃ := ((hturn.quiet addWeightRef_quiet h₁).quiet addNamed_quiet h₂).quiet addWeightRef_quiet h₃
  have hturn₆ := ((hturn₃.quiet addNamed_quiet h₄).quiet addWeightRef_quiet h₅).quiet addNamed_quiet h₆
  refine LayersTurn.quiet (attention_turns hrot h₇ hturn₆) ?_ h
  exact .bind (.ite .ret (.emits (by decide))) fun _ =>
    .bind (.ite .ret (.bind .declares fun _ => .bind addNorm_quiet fun _ => .ret)) fun _ =>
      .bind mlp_quiet fun _ => .bind (.ite .ret postNorm_quiet) fun _ => .bind (.ite .ret sharedExpert_quiet) fun _ => residual_quiet

theorem layers_turns (hrot : dir.Rotates L) : ∀ {remaining li : Nat} {features t : TensorId} {b b' : GraphBuilder R},
    (dir.layers L remaining li features).run b = .ok (t, b') → LayersTurn dir b.graph → LayersTurn dir b'.graph
  | 0, _, _, _, _, _, h, hturn => by
    obtain ⟨rfl, rfl⟩ := pure_ok h
    exact hturn
  | remaining + 1, _, _, _, _, _, h, hturn => by
    obtain ⟨_, b₁, h₁, h⟩ := step_ok h
    exact layers_turns hrot h (layer_turns hrot h₁ hturn)

/-- The graph of a directory whose layout has rotary embeddings. -/
theorem load_turns {floatText : R → String} {cap : Int} {g : Graph R} (h : dir.load floatText cap = .ok g)
    (hL : dir.checkedLayout = .ok L) (hrot : dir.Rotates L) : LayersTurn dir g := by
  obtain ⟨L', hL', h⟩ := bind_ok h
  obtain rfl := Except.ok.inj (hL.symm.trans hL')
  obtain ⟨_, -, h⟩ := bind_ok h
  obtain ⟨_, -, h⟩ := bind_ok h
  obtain ⟨⟨u, b⟩, hb, h⟩ := bind_ok h
  obtain rfl := Except.ok.inj h
  obtain ⟨_, b₁, h₁, hb⟩ := step_ok hb
  obtain ⟨_, b₂, h₂, hb⟩ := step_ok hb
  obtain ⟨_, b₃, h₃, hb⟩ := step_ok hb
  obtain ⟨_, b₄, h₄, hb⟩ := step_ok hb
  obtain ⟨_, b₅, h₅, hb⟩ := step_ok hb
  obtain ⟨_, b₆, h₆, hb⟩ := step_ok hb
  have hempty : LayersTurn dir ((GraphBuilder.init "hf_transformer").setProducer "uaii-hf-loader").graph :=
    fun n hn => absurd hn List.not_mem_nil
  have hturn₄ := (((hempty.quiet .notes h₁).quiet .declares h₂).quiet .weighs h₃).quiet embedding_quiet h₄
  have hturn₆ := (layers_turns hrot h₅ hturn₄).quiet outNorm_quiet h₆
  exact hturn₆.quiet (.bind (.ite .ret .weighs) fun _ => .bind head_quiet fun _ => .notes) hb

end HfDirectory

/-! ## Turned alike -/

section Alike

variable {R K : Type} [Field R] [LinearOrder R] [Field K] [LinearOrder K] {math : MathLib K} {num : R → K} {dir : HfDirectory R}
  {g : Graph R} {n : Node R}

/-- The scaling that the configuration describes. -/
def HfConfig.ropeScaling (cfg : HfConfig R) (num : R → K) : RopeParams K := ropeParams num cfg.ropeAttrs

omit [LinearOrder K] in
theorem HfConfig.ropeScaling_headDim (cfg : HfConfig R) (num : R → K) : (cfg.ropeScaling num).headDim = cfg.headDim := by
  simp [HfConfig.ropeScaling, HfConfig.ropeAttrs, ropeParams, attrInt]

theorem HfDirectory.RopePair.alike (hcircle : Rotary.Circle math.cos math.sin) (hpair : dir.RopePair g n) (hpos : 0 < dir.config.headDim)
    {now past prompt : K} (hnow : (dir.config.ropeScaling num).SameScale now prompt)
    (hpast : (dir.config.ropeScaling num).SameScale past prompt) : TurnedAlike math num g n now past := by
  obtain ⟨q, k, v, hin, hq, hk⟩ := hpair
  refine ⟨q, k, v, 0, _, _, hin, hq, hk, fun qDim kDim l l' hl hl' => ?_⟩
  have hparams : ropeParams num dir.config.ropeAttrs = { dir.config.ropeScaling num with headDim := dir.config.headDim } := by
    rw [← dir.config.ropeScaling_headDim num]
    rfl
  obtain ⟨hchunk, hagrees⟩ := same_attributes math hparams hpos hnow hpast hl hl'
  exact ⟨hchunk, hagrees, Turn.score_shift hcircle hagrees⟩

end Alike

end Uaii.Loaders
