/-
  Uaii.Loaders.HfUses — which tensors of a layer the graph of a Hugging Face directory reads.

  The names follow the branches of `HfLoader::load` with the layout of the first layer; the
  weights that the nodes of a layer read are those of the names whose tensor is there, in
  the order of the nodes.
-/

import Uaii.Ir.Reads
import Uaii.Loaders.HfGraphs

namespace Uaii.Loaders

open Uaii.Ir Uaii.Ir.Build

/-! ## The names that are read -/

/-- A name that the layout may lack. -/
def ifNamed (rest : String) : List String := if rest = "" then [] else [rest]

namespace HfDirectory

variable {R : Type}

section Names

variable (dir : HfDirectory R) (L : DecodedLayout) (li : Nat)

def normNames (weight bias : String) : List String := weight :: if L.layernorm then ifNamed bias else []

def qkvNames : List String :=
  if L.fused then L.qkv :: ifNamed L.qkvb else [L.q, L.k, L.v] ++ ifNamed L.qb ++ ifNamed L.kb ++ ifNamed L.vb

def attentionNames : List String :=
  normNames L L.n1 L.n1b ++ qkvNames L ++ (if L.qNorm = "" then [] else [L.qNorm, L.kNorm]) ++ [L.o] ++ ifNamed L.ob ++ ifNamed L.postAttn

def ffnNormNames : List String := if dir.hasTensor (layerName L li L.n2) then normNames L L.n2 L.n2b else []

def expertNames (e : Nat) : List String :=
  let ep := L.expertPrefix ++ toText e ++ "."
  [ep ++ if L.expertWStyle = 0 then "w1.weight" else "gate_proj.weight", ep ++ if L.expertWStyle = 0 then "w3.weight" else "up_proj.weight",
    ep ++ if L.expertWStyle = 0 then "w2.weight" else "down_proj.weight"]

/-- The layout has a feed-forward block. -/
def hasMlp : Prop := (L.mixtral ∧ 0 < dir.nExperts L) ∨ L.gate ≠ "" ∨ L.fc ≠ ""

instance : Decidable (dir.hasMlp L) := inferInstanceAs (Decidable (_ ∨ _))

def mlpNames : List String :=
  if L.mixtral ∧ 0 < dir.nExperts L then L.moeGate :: (List.range (dir.nExperts L).toNat).flatMap (expertNames L)
  else if L.gate ≠ "" then [L.gate, L.up, L.down]
  else if L.fc ≠ "" then [L.fc, L.proj]
  else []

def sharedNames : List String :=
  if L.sharedGate ≠ "" ∧ ∀ rest ∈ [L.sharedGate, L.sharedUp, L.sharedDown], dir.hasTensor (layerName L li rest) then
    [L.sharedGate, L.sharedUp, L.sharedDown]
  else []

/-- The names that the nodes of a layer read, if their tensors are there. -/
def layerNames : List String :=
  attentionNames L ++ dir.ffnNormNames L li ++ dir.mlpNames L ++ if dir.hasMlp L then ifNamed L.postMlp ++ dir.sharedNames L li else []

/-- The label of a tensor, if it is there. -/
def label (name : String) : List Label :=
  if name ≠ "" ∧ dir.hasTensor name then [(name, dir.resolveShard name ++ "#" ++ name)] else []

/-- The label of a tensor of the layer. -/
def opt (rest : String) : List Label := dir.label (layerName L li rest)

/-- The labels of the first layers. -/
def layersLabels (n : Nat) : List Label := (List.range n).flatMap fun i => (dir.layerNames L i).flatMap (dir.opt L i)

end Names

variable {dir : HfDirectory R} {L : DecodedLayout} {li : Nat} {pfx name rest : String} {b₀ b b' : GraphBuilder R}
  {env : List (TensorId × List Label)} {labels : List Label} {t x y : TensorId} {u : Unit}

/-! ## Weights and biases -/

theorem addWeightRef_reads {force : List Int} (p : Traced b₀ b env labels) (h : (dir.addWeightRef name force).run b = .ok (t, b')) :
    Traced b₀ b' ((t, dir.label name) :: env) labels ∧ (t ≠ 0 ↔ name ≠ "" ∧ dir.hasTensor name) := by
  unfold addWeightRef at h
  unfold label
  split at h
  · next hno =>
    obtain ⟨rfl, rfl⟩ := pure_ok h
    have hno' : ¬ (name ≠ "" ∧ dir.hasTensor name) := by tauto
    rw [if_neg hno']
    exact ⟨p.zero, fun hne => absurd rfl hne, fun hyes => absurd hyes hno'⟩
  · next hyes =>
    obtain ⟨shape, b₁, h₁, h⟩ := step_ok h
    obtain ⟨-, rfl⟩ := attempt_ok h₁
    have hyes' : name ≠ "" ∧ dir.hasTensor name := by tauto
    obtain ⟨p', hne⟩ := p.weight h
    rw [if_pos hyes']
    exact ⟨p', iff_of_true hne hyes'⟩

/-- A weight of the layer. -/
theorem weightRef_reads {force : List Int} (p : Traced b₀ b env labels)
    (h : (dir.addWeightRef (layerName L li rest) force).run b = .ok (t, b')) :
    Traced b₀ b' ((t, dir.opt L li rest) :: env) labels ∧ (t ≠ 0 ↔ dir.hasTensor (layerName L li rest)) := by
  obtain ⟨p', hiff⟩ := addWeightRef_reads p h
  rw [and_iff_right (layerName_ne L li rest)] at hiff
  exact ⟨p', hiff⟩

theorem opt_nil (h : ¬ dir.hasTensor (layerName L li rest)) : dir.opt L li rest = [] := by
  unfold opt label
  rw [if_neg fun hyes => h hyes.2]

theorem named_reads {force : List Int} (p : Traced b₀ b env labels) (h : (dir.addNamed L li rest force).run b = .ok (t, b')) :
    Traced b₀ b' ((t, (ifNamed rest).flatMap (dir.opt L li)) :: env) labels ∧ (t = 0 → (ifNamed rest).flatMap (dir.opt L li) = []) := by
  unfold addNamed at h
  unfold ifNamed
  split at h
  · next hempty =>
    obtain ⟨rfl, rfl⟩ := pure_ok h
    rw [if_pos hempty]
    exact ⟨p.zero, fun _ => rfl⟩
  · next hne =>
    obtain ⟨p', hiff⟩ := weightRef_reads p h
    rw [if_neg hne, List.flatMap_singleton]
    exact ⟨p', fun h0 => opt_nil fun hyes => hiff.mpr hyes h0⟩

theorem biased_reads (p : Traced b₀ b env labels) {bias : TensorId} {outDim : Int} {lb : List Label}
    (h : (maybeBias name x bias outDim).run b = .ok (t, b')) (hx : (x, []) ∈ env) (hbias : (bias, lb) ∈ env)
    (hnil : bias = 0 → lb = []) : Traced b₀ b' ((t, []) :: env) (labels ++ lb) := by
  unfold maybeBias at h
  exact p.orEmit h hx hbias hnil

theorem mm_reads (p : Traced b₀ b env labels) {w : TensorId} {lw : List Label} {transB : Bool}
    (h : (mm name x w y transB).run b = .ok (u, b')) (hx : (x, []) ∈ env) (hweight : (w, lw) ∈ env) : Traced b₀ b' env (labels ++ lw) :=
  (p.node [(x, []), (w, lw)] h (by simp [hx, hweight])).relabel (by simp)

/-! ## The query, the keys and the values -/

variable {n1 wo : TensorId}

theorem splitQkv_reads (p : Traced b₀ b env labels) {r : TensorId × TensorId × TensorId}
    (h : (dir.splitQkv L li pfx n1 wo).run b = .ok (r, b')) (hn1 : (n1, []) ∈ env) :
    Traced b₀ b' ((r.1, []) :: (r.2.1, []) :: (r.2.2, []) :: env) (labels ++
      ([L.q, L.k, L.v] ++ ifNamed L.qb ++ ifNamed L.kb ++ ifNamed L.vb).flatMap (dir.opt L li)) := by
  obtain ⟨wq, b₁, h₁, h⟩ := step_ok h
  obtain ⟨wk, b₂, h₂, h⟩ := step_ok h
  obtain ⟨wv, b₃, h₃, h⟩ := step_ok h
  obtain ⟨bq, b₄, h₄, h⟩ := step_ok h
  obtain ⟨bk, b₅, h₅, h⟩ := step_ok h
  obtain ⟨bv, b₆, h₆, h⟩ := step_ok h
  obtain ⟨_, b₇, h₇, h⟩ := step_ok h
  obtain ⟨-, rfl⟩ := refuseIf_ok h₇
  obtain ⟨q0, b₈, h₈, h⟩ := step_ok h
  obtain ⟨k0, b₉, h₉, h⟩ := step_ok h
  obtain ⟨v0, b₁₀, h₁₀, h⟩ := step_ok h
  obtain ⟨_, b₁₁, h₁₁, h⟩ := step_ok h
  obtain ⟨_, b₁₂, h₁₂, h⟩ := step_ok h
  obtain ⟨_, b₁₃, h₁₃, h⟩ := step_ok h
  obtain ⟨q, b₁₄, h₁₄, h⟩ := step_ok h
  obtain ⟨k, b₁₅, h₁₅, h⟩ := step_ok h
  obtain ⟨v, b₁₆, h₁₆, h⟩ := step_ok h
  obtain ⟨rfl, rfl⟩ := pure_ok h
  obtain ⟨p₁, -⟩ := weightRef_reads p h₁
  obtain ⟨p₂, -⟩ := weightRef_reads p₁ h₂
  obtain ⟨p₃, -⟩ := weightRef_reads p₂ h₃
  obtain ⟨p₄, hbq⟩ := named_reads p₃ h₄
  obtain ⟨p₅, hbk⟩ := named_reads p₄ h₅
  obtain ⟨p₆, hbv⟩ := named_reads p₅ h₆
  have p₁₀ := ((p₆.tensor h₈).tensor h₉).tensor h₁₀
  have p₁₁ := mm_reads p₁₀ h₁₁ (by simp [hn1]) (show (wq, dir.opt L li L.q) ∈ _ by simp)
  have p₁₂ := mm_reads p₁₁ h₁₂ (by simp [hn1]) (show (wk, dir.opt L li L.k) ∈ _ by simp)
  have p₁₃ := mm_reads p₁₂ h₁₃ (by simp [hn1]) (show (wv, dir.opt L li L.v) ∈ _ by simp)
  have p₁₄ := biased_reads p₁₃ h₁₄ (by simp) (show (bq, (ifNamed L.qb).flatMap (dir.opt L li)) ∈ _ by simp) hbq
  have p₁₅ := biased_reads p₁₄ h₁₅ (by simp) (show (bk, (ifNamed L.kb).flatMap (dir.opt L li)) ∈ _ by simp) hbk
  have p₁₆ := biased_reads p₁₅ h₁₆ (by simp) (show (bv, (ifNamed L.vb).flatMap (dir.opt L li)) ∈ _ by simp) hbv
  exact (p₁₆.weaken (List.forall_mem_cons.mpr ⟨by simp, List.forall_mem_cons.mpr ⟨by simp, List.forall_mem_cons.mpr
    ⟨by simp, fun e he => by simp [he]⟩⟩⟩)).relabel (by simp)

theorem fusedQkv_reads {q k v : TensorId} (p : Traced b₀ b env labels) (h : (dir.fusedQkv L li pfx n1 q k v wo).run b = .ok (u, b'))
    (hn1 : (n1, []) ∈ env) : Traced b₀ b' env (labels ++ (L.qkv :: ifNamed L.qkvb).flatMap (dir.opt L li)) := by
  obtain ⟨wqkv, b₁, h₁, h⟩ := step_ok h
  obtain ⟨bqkv, b₂, h₂, h⟩ := step_ok h
  obtain ⟨_, b₃, h₃, h⟩ := step_ok h
  obtain ⟨-, rfl⟩ := refuseIf_ok h₃
  obtain ⟨qkv, b₄, h₄, h⟩ := step_ok h
  obtain ⟨_, b₅, h₅, h⟩ := step_ok h
  obtain ⟨qkvB, b₆, h₆, h⟩ := step_ok h
  obtain ⟨_, b₇, h₇, h⟩ := step_ok h
  obtain ⟨_, b₈, h₈, h⟩ := step_ok h
  obtain ⟨p₁, -⟩ := weightRef_reads p h₁
  obtain ⟨p₂, hbqkv⟩ := named_reads p₁ h₂
  have p₄ := p₂.tensor h₄
  have p₅ := mm_reads p₄ h₅ (by simp [hn1]) (show (wqkv, dir.opt L li L.qkv) ∈ _ by simp)
  have p₆ := biased_reads p₅ h₆ (by simp) (show (bqkv, (ifNamed L.qkvb).flatMap (dir.opt L li)) ∈ _ by simp) hbqkv
  have p₇ := p₆.node [(qkvB, [])] h₇ (by simp)
  have p₈ := p₇.node [(qkvB, [])] h₈ (by simp)
  have p₉ := p₈.node [(qkvB, [])] h (by simp)
  exact (p₉.weaken fun e he => by simp [he]).relabel (by simp)

/-! ## The feed-forward block -/

theorem experts_reads : ∀ {remaining e : Nat} {b b' : GraphBuilder R} {env : List (TensorId × List Label)} {r : List TensorId},
    Traced b₀ b env labels → (dir.experts L li remaining e).run b = .ok (r, b') →
    ∃ es : List (TensorId × List Label), r = es.map (·.1) ∧
      es.flatMap (·.2) = ((List.range' e remaining).flatMap (expertNames L)).flatMap (dir.opt L li) ∧ Traced b₀ b' (es ++ env) labels
  | 0, e, b, _, env, r, p, h => by
    obtain ⟨rfl, rfl⟩ := pure_ok h
    exact ⟨[], rfl, rfl, p⟩
  | remaining + 1, e, b, _, env, r, p, h => by
    obtain ⟨ge, b₁, h₁, h⟩ := step_ok h
    obtain ⟨ue, b₂, h₂, h⟩ := step_ok h
    obtain ⟨de, b₃, h₃, h⟩ := step_ok h
    obtain ⟨_, b₄, h₄, h⟩ := step_ok h
    obtain ⟨-, rfl⟩ := refuseIf_ok h₄
    obtain ⟨moeIns, b₅, h₅, h⟩ := step_ok h
    obtain ⟨rfl, rfl⟩ := pure_ok h
    obtain ⟨p₁, -⟩ := weightRef_reads p h₁
    obtain ⟨p₂, -⟩ := weightRef_reads p₁ h₂
    obtain ⟨p₃, -⟩ := weightRef_reads p₂ h₃
    obtain ⟨es, rfl, hes, p₅⟩ := experts_reads p₃ h₅
    let opts (w proj : String) : List Label :=
      dir.opt L li (L.expertPrefix ++ toText e ++ "." ++ if L.expertWStyle = 0 then w else proj)
    refine ⟨(ge, opts "w1.weight" "gate_proj.weight") :: (ue, opts "w3.weight" "up_proj.weight") ::
      (de, opts "w2.weight" "down_proj.weight") :: es, rfl, ?_, p₅.weaken fun x hx => ?_⟩
    · simp only [List.flatMap_cons, hes, List.range'_succ, List.flatMap_append, expertNames, List.flatMap_nil, List.append_assoc,
        List.append_nil, opts]
    · simp only [List.cons_append, List.mem_cons, List.mem_append] at hx ⊢
      tauto

variable {mlpIn : TensorId}

theorem moe_reads (p : Traced b₀ b env labels) (h : (dir.moe L li pfx mlpIn).run b = .ok (t, b')) (hx : (mlpIn, []) ∈ env) :
    Traced b₀ b' ((t, []) :: env) (labels ++
      (L.moeGate :: (List.range (dir.nExperts L).toNat).flatMap (expertNames L)).flatMap (dir.opt L li)) ∧ t ≠ 0 := by
  obtain ⟨gateW, b₁, h₁, h⟩ := step_ok h
  obtain ⟨_, b₂, h₂, h⟩ := step_ok h
  obtain ⟨-, rfl⟩ := refuseIf_ok h₂
  obtain ⟨routerProbs, b₃, h₃, h⟩ := step_ok h
  obtain ⟨routerTop, b₄, h₄, h⟩ := step_ok h
  obtain ⟨_, b₅, h₅, h⟩ := step_ok h
  obtain ⟨moeIns, b₆, h₆, h⟩ := step_ok h
  obtain ⟨p₁, -⟩ := weightRef_reads p h₁
  have p₄ := (p₁.tensor h₃).tensor h₄
  have p₅ := p₄.node [(mlpIn, []), (gateW, dir.opt L li L.moeGate)] h₅ (by simp [hx])
  obtain ⟨es, rfl, hes, p₆⟩ := experts_reads p₅ h₆
  have p₇ := p₆.emit ((mlpIn, []) :: (routerProbs, []) :: es) h (by simp +contextual [hx])
  exact ⟨(p₇.top (by simp +contextual)).relabel (by simp [hes, List.range_eq_range']), p₆.emit_ne_zero h⟩

theorem swiGlu_reads (p : Traced b₀ b env labels) (h : (dir.swiGlu L li pfx mlpIn).run b = .ok (t, b')) (hx : (mlpIn, []) ∈ env) :
    Traced b₀ b' ((t, []) :: env) (labels ++ [L.gate, L.up, L.down].flatMap (dir.opt L li)) ∧ t ≠ 0 := by
  obtain ⟨wGate, b₁, h₁, h⟩ := step_ok h
  obtain ⟨wUp, b₂, h₂, h⟩ := step_ok h
  obtain ⟨wDown, b₃, h₃, h⟩ := step_ok h
  obtain ⟨_, b₄, h₄, h⟩ := step_ok h
  obtain ⟨-, rfl⟩ := refuseIf_ok h₄
  obtain ⟨gate, b₅, h₅, h⟩ := step_ok h
  obtain ⟨up, b₆, h₆, h⟩ := step_ok h
  obtain ⟨_, b₇, h₇, h⟩ := step_ok h
  obtain ⟨_, b₈, h₈, h⟩ := step_ok h
  obtain ⟨gateAct, b₉, h₉, h⟩ := step_ok h
  obtain ⟨ffHid, b₁₀, h₁₀, h⟩ := step_ok h
  obtain ⟨p₁, -⟩ := weightRef_reads p h₁
  obtain ⟨p₂, -⟩ := weightRef_reads p₁ h₂
  obtain ⟨p₃, -⟩ := weightRef_reads p₂ h₃
  have p₆ := (p₃.tensor h₅).tensor h₆
  have p₇ := mm_reads p₆ h₇ (by simp [hx]) (show (wGate, dir.opt L li L.gate) ∈ _ by simp)
  have p₈ := mm_reads p₇ h₈ (by simp [hx]) (show (wUp, dir.opt L li L.up) ∈ _ by simp)
  have p₉ := p₈.emit [(gate, [])] h₉ (by simp)
  have p₁₀ := p₉.emit [(gateAct, []), (up, [])] h₁₀ (by simp)
  have p₁₁ := p₁₀.emit [(ffHid, []), (wDown, dir.opt L li L.down)] h (by simp)
  exact ⟨(p₁₁.top (by simp +contextual)).relabel (by simp), p₁₀.emit_ne_zero h⟩

theorem dense_reads (p : Traced b₀ b env labels) (h : (dir.dense L li pfx mlpIn).run b = .ok (t, b')) (hx : (mlpIn, []) ∈ env) :
    Traced b₀ b' ((t, []) :: env) (labels ++ [L.fc, L.proj].flatMap (dir.opt L li)) ∧ t ≠ 0 := by
  obtain ⟨wFc, b₁, h₁, h⟩ := step_ok h
  obtain ⟨wProj, b₂, h₂, h⟩ := step_ok h
  obtain ⟨up, b₃, h₃, h⟩ := step_ok h
  obtain ⟨upAct, b₄, h₄, h⟩ := step_ok h
  obtain ⟨p₁, -⟩ := weightRef_reads p h₁
  obtain ⟨p₂, -⟩ := weightRef_reads p₁ h₂
  have p₃ := p₂.emit [(mlpIn, []), (wFc, dir.opt L li L.fc)] h₃ (by simp [hx])
  have p₄ := p₃.emit [(up, [])] h₄ (by simp)
  have p₅ := p₄.emit [(upAct, []), (wProj, dir.opt L li L.proj)] h (by simp)
  exact ⟨(p₅.top (by simp +contextual)).relabel (by simp), p₄.emit_ne_zero h⟩

/-- `ff_out` is 0 if the layout has no feed-forward block. -/
theorem mlp_reads (p : Traced b₀ b env labels) (h : (dir.mlp L li pfx mlpIn).run b = .ok (t, b')) (hx : (mlpIn, []) ∈ env) :
    Traced b₀ b' ((t, []) :: env) (labels ++ (dir.mlpNames L).flatMap (dir.opt L li)) ∧ (t ≠ 0 ↔ dir.hasMlp L) := by
  unfold mlp at h
  unfold mlpNames hasMlp
  split at h
  · next hmoe =>
    obtain ⟨p', hne⟩ := moe_reads p h hx
    rw [if_pos hmoe]
    exact ⟨p', iff_of_true hne (.inl hmoe)⟩
  · next hmoe =>
    rw [if_neg hmoe]
    split at h
    · next hgate =>
      obtain ⟨p', hne⟩ := swiGlu_reads p h hx
      rw [if_pos hgate]
      exact ⟨p', iff_of_true hne (.inr (.inl hgate))⟩
    · next hgate =>
      rw [if_neg hgate]
      split at h
      · next hfc =>
        obtain ⟨p', hne⟩ := dense_reads p h hx
        rw [if_pos hfc]
        exact ⟨p', iff_of_true hne (.inr (.inr hfc))⟩
      · next hfc =>
        obtain ⟨rfl, rfl⟩ := pure_ok h
        rw [if_neg hfc]
        exact ⟨p.zero.relabel (by simp), iff_of_false (by simp) (by tauto)⟩

theorem sharedExpert_reads {ffOut : TensorId} (p : Traced b₀ b env labels)
    (h : (dir.sharedExpert L li pfx mlpIn ffOut).run b = .ok (t, b')) (hx : (mlpIn, []) ∈ env) (hff : (ffOut, []) ∈ env)
    (hnamed : L.sharedGate ≠ "") : Traced b₀ b' ((t, []) :: env) (labels ++ (dir.sharedNames L li).flatMap (dir.opt L li)) := by
  obtain ⟨sg, b₁, h₁, h⟩ := step_ok h
  obtain ⟨su, b₂, h₂, h⟩ := step_ok h
  obtain ⟨sd, b₃, h₃, h⟩ := step_ok h
  obtain ⟨p₁, hsg⟩ := weightRef_reads p h₁
  obtain ⟨p₂, hsu⟩ := weightRef_reads p₁ h₂
  obtain ⟨p₃, hsd⟩ := weightRef_reads p₂ h₃
  unfold sharedNames
  simp only [List.forall_mem_cons, List.not_mem_nil, false_implies, implies_true, and_true, ← hsg, ← hsu, ← hsd]
  split at h
  · next hno =>
    obtain ⟨rfl, rfl⟩ := pure_ok h
    rw [if_neg (by tauto)]
    exact (p₃.weaken (List.forall_mem_cons.mpr ⟨by simp [hff], fun e he => by simp [he]⟩)).relabel (by simp)
  · next hall =>
    obtain ⟨shG, b₄, h₄, h⟩ := step_ok h
    obtain ⟨shU, b₅, h₅, h⟩ := step_ok h
    obtain ⟨_, b₆, h₆, h⟩ := step_ok h
    obtain ⟨_, b₇, h₇, h⟩ := step_ok h
    obtain ⟨shGa, b₈, h₈, h⟩ := step_ok h
    obtain ⟨shHid, b₉, h₉, h⟩ := step_ok h
    obtain ⟨shOut, b₁₀, h₁₀, h⟩ := step_ok h
    rw [if_pos (by tauto)]
    have p₅ := (p₃.tensor h₄).tensor h₅
    have p₆ := mm_reads p₅ h₆ (by simp [hx]) (show (sg, dir.opt L li L.sharedGate) ∈ _ by simp)
    have p₇ := mm_reads p₆ h₇ (by simp [hx]) (show (su, dir.opt L li L.sharedUp) ∈ _ by simp)
    have p₈ := p₇.emit [(shG, [])] h₈ (by simp)
    have p₉ := p₈.emit [(shGa, []), (shU, [])] h₉ (by simp)
    have p₁₀ := p₉.emit [(shHid, []), (sd, dir.opt L li L.sharedDown)] h₁₀ (by simp)
    have p₁₁ := p₁₀.emit [(ffOut, []), (shOut, [])] h (by simp [hff])
    exact (p₁₁.top (by simp +contextual)).relabel (by simp)

theorem residual_reads {features attnO resid1 ffOut : TensorId} (p : Traced b₀ b env labels)
    (h : (dir.residual pfx features attnO resid1 ffOut).run b = .ok (t, b')) (hfeatures : (features, []) ∈ env)
    (hattn : (attnO, []) ∈ env) (hresid : (resid1, []) ∈ env) (hff : (ffOut, []) ∈ env) : Traced b₀ b' ((t, []) :: env) labels := by
  unfold residual at h
  split at h
  · obtain ⟨resid2, b₁, h₁, h⟩ := step_ok h
    split at h
    · obtain ⟨mid, b₂, h₂, h⟩ := step_ok h
      obtain ⟨_, b₃, h₃, h⟩ := step_ok h
      obtain ⟨rfl, rfl⟩ := pure_ok h
      have p₂ := (p.tensor h₁).emit [(features, []), (attnO, [])] h₂ (by simp [hfeatures, hattn])
      have p₃ := p₂.node [(mid, []), (ffOut, [])] h₃ (by simp [hff])
      exact (p₃.weaken (List.forall_mem_cons.mpr ⟨by simp, fun e he => by simp [he]⟩)).relabel (by simp)
    · obtain ⟨_, b₂, h₂, h⟩ := step_ok h
      obtain ⟨rfl, rfl⟩ := pure_ok h
      exact ((p.tensor h₁).node [(resid1, []), (ffOut, [])] h₂ (by simp [hff, hresid])).relabel (by simp)
  split at h
  · exact (p.emit [(features, []), (attnO, [])] h (by simp [hfeatures, hattn])).relabel (by simp)
  · obtain ⟨rfl, rfl⟩ := pure_ok h
    exact p.learn hresid

/-! ## The attention -/

/-- The names of a norm that is there. -/
theorem normNames_opts {weight bias : String} : (normNames L weight bias).flatMap (dir.opt L li) =
    dir.opt L li weight ++ if L.layernorm then (ifNamed bias).flatMap (dir.opt L li) else [] := by
  unfold normNames
  split <;> simp

variable [Field R] [LinearOrder R]

theorem normed_reads (p : Traced b₀ b env labels) {w bias : TensorId} {lw lb : List Label}
    (h : (dir.addNorm L name x w bias y).run b = .ok (u, b')) (hx : (x, []) ∈ env) (hweight : (w, lw) ∈ env) (hbias : (bias, lb) ∈ env)
    (hnil : bias = 0 → lb = []) : Traced b₀ b' env (labels ++ (lw ++ if L.layernorm then lb else [])) := by
  unfold addNorm at h
  exact p.eitherNode h hx hweight hbias hnil

theorem postNormed_reads (p : Traced b₀ b env labels) {rms : String} (h : (dir.postNorm L li pfx name rms rest x).run b = .ok (t, b'))
    (hx : (x, []) ∈ env) : Traced b₀ b' ((t, []) :: env) (labels ++ (ifNamed rest).flatMap (dir.opt L li)) ∧ (x ≠ 0 → t ≠ 0) := by
  unfold postNorm at h
  unfold ifNamed
  split at h
  · next hempty =>
    obtain ⟨rfl, rfl⟩ := pure_ok h
    rw [if_pos hempty]
    exact ⟨(p.learn hx).relabel (by simp), id⟩
  · next hne =>
    rw [if_neg hne, List.flatMap_singleton]
    obtain ⟨w, b₁, h₁, h⟩ := step_ok h
    obtain ⟨p₁, hiff⟩ := weightRef_reads p h₁
    split at h
    · next h0 =>
      obtain ⟨rfl, rfl⟩ := pure_ok h
      rw [opt_nil fun hyes => hiff.mpr hyes h0]
      exact ⟨((p₁.learn (List.mem_cons_of_mem _ hx)).top (by simp +contextual)).relabel (by simp), id⟩
    · obtain ⟨z, b₂, h₂, h⟩ := step_ok h
      obtain ⟨_, b₃, h₃, h⟩ := step_ok h
      obtain ⟨rfl, rfl⟩ := pure_ok h
      have p₂ := (p₁.zero).tensor h₂
      have p₃ := normed_reads p₂ h₃ (by simp [hx]) (show (w, dir.opt L li rest) ∈ _ by simp) (show (0, []) ∈ _ by simp) fun _ => rfl
      exact ⟨(p₃.top (by simp +contextual)).relabel (by simp), fun _ => p₁.zero.tensor_ne_zero h₂⟩

theorem qkNorm_reads (p : Traced b₀ b env labels) {q k : TensorId} {r : TensorId × TensorId}
    (h : (dir.qkNorm L li pfx q k).run b = .ok (r, b')) (hq : (q, []) ∈ env) (hk : (k, []) ∈ env) :
    Traced b₀ b' ((r.1, []) :: (r.2, []) :: env)
      (labels ++ (if L.qNorm = "" then [] else [L.qNorm, L.kNorm]).flatMap (dir.opt L li)) := by
  unfold qkNorm at h
  split at h
  · next hempty =>
    obtain ⟨rfl, rfl⟩ := pure_ok h
    rw [if_pos hempty]
    exact ((p.learn hk).learn (List.mem_cons_of_mem _ hq)).relabel (by simp)
  · next hne =>
    rw [if_neg hne]
    obtain ⟨wQn, b₁, h₁, h⟩ := step_ok h
    obtain ⟨wKn, b₂, h₂, h⟩ := step_ok h
    obtain ⟨qIn, b₃, h₃, h⟩ := step_ok h
    obtain ⟨kIn, b₄, h₄, h⟩ := step_ok h
    obtain ⟨rfl, rfl⟩ := pure_ok h
    obtain ⟨p₁, hqn⟩ := weightRef_reads p h₁
    obtain ⟨p₂, hkn⟩ := weightRef_reads p₁ h₂
    have p₃ : Traced b₀ b₃ ((qIn, []) :: (wKn, dir.opt L li L.kNorm) :: env) (labels ++ dir.opt L li L.qNorm) := by
      split at h₃
      · exact ((p₂.emit [(q, []), (wQn, dir.opt L li L.qNorm)] h₃ (by simp [hq])).top (by grind)).relabel (by simp)
      · next h0 =>
        obtain ⟨rfl, rfl⟩ := pure_ok h₃
        rw [opt_nil fun hyes => h0 (hqn.mpr hyes)]
        exact ((p₂.learn (e := (q, [])) (by simp [hq])).top (by grind)).relabel (by simp)
    split at h₄
    · exact ((p₃.emit [(k, []), (wKn, dir.opt L li L.kNorm)] h₄ (by simp [hk])).weaken (by grind)).relabel (by simp)
    · next h0 =>
      obtain ⟨rfl, rfl⟩ := pure_ok h₄
      have hkNil : dir.opt L li L.kNorm = [] := opt_nil fun hyes => h0 (hkn.mpr hyes)
      rw [List.flatMap_cons, List.flatMap_singleton, hkNil]
      exact (p₃.weaken (by grind)).relabel (by simp)

theorem rope_reads (p : Traced b₀ b env labels) {q k : TensorId} {r : TensorId × TensorId}
    (h : (dir.rope L pfx q k).run b = .ok (r, b')) (hq : (q, []) ∈ env) (hk : (k, []) ∈ env) :
    Traced b₀ b' ((r.1, []) :: (r.2, []) :: env) labels := by
  unfold rope at h
  split at h
  · obtain ⟨qRope, b₁, h₁, h⟩ := step_ok h
    obtain ⟨kRope, b₂, h₂, h⟩ := step_ok h
    obtain ⟨_, b₃, h₃, h⟩ := step_ok h
    obtain ⟨_, b₄, h₄, h⟩ := step_ok h
    obtain ⟨rfl, rfl⟩ := pure_ok h
    have p₂ := (p.tensor h₁).tensor h₂
    have p₃ := p₂.node [(q, [])] h₃ (by simp [hq])
    have p₄ := p₃.node [(k, [])] h₄ (by simp [hk])
    exact (p₄.weaken (by simp +contextual)).relabel (by simp)
  · obtain ⟨rfl, rfl⟩ := pure_ok h
    exact (p.learn hk).learn (List.mem_cons_of_mem _ hq)

theorem attention_reads {features attnNorm attnNormB bo : TensorId} (p : Traced b₀ b env labels)
    (h : (dir.attention L li pfx features attnNorm attnNormB wo bo).run b = .ok (t, b')) (hfeatures : (features, []) ∈ env)
    (hnorm : (attnNorm, dir.opt L li L.n1) ∈ env) (hnormB : (attnNormB, (ifNamed L.n1b).flatMap (dir.opt L li)) ∈ env)
    (hnormNil : attnNormB = 0 → (ifNamed L.n1b).flatMap (dir.opt L li) = []) (hwo : (wo, dir.opt L li L.o) ∈ env)
    (hbo : (bo, (ifNamed L.ob).flatMap (dir.opt L li)) ∈ env) (hboNil : bo = 0 → (ifNamed L.ob).flatMap (dir.opt L li) = []) :
    Traced b₀ b' ((t, []) :: env) (labels ++ (attentionNames L).flatMap (dir.opt L li)) := by
  obtain ⟨n1, b₁, h₁, h⟩ := step_ok h
  obtain ⟨_, b₂, h₂, h⟩ := step_ok h
  obtain ⟨-, rfl⟩ := refuseIf_ok h₂
  obtain ⟨_, b₃, h₃, h⟩ := step_ok h
  obtain ⟨q, b₄, h₄, h⟩ := step_ok h
  obtain ⟨k, b₅, h₅, h⟩ := step_ok h
  obtain ⟨v, b₆, h₆, h⟩ := step_ok h
  obtain ⟨⟨q', k', v'⟩, b₇, h₇, h⟩ := step_ok h
  obtain ⟨⟨qN, kN⟩, b₈, h₈, h⟩ := step_ok h
  obtain ⟨⟨qIn, kIn⟩, b₉, h₉, h⟩ := step_ok h
  obtain ⟨attn, b₁₀, h₁₀, h⟩ := step_ok h
  obtain ⟨attnO0, b₁₁, h₁₁, h⟩ := step_ok h
  obtain ⟨attnO, b₁₂, h₁₂, h⟩ := step_ok h
  have p₃ := normed_reads (p.tensor h₁) h₃ (List.mem_cons_of_mem _ hfeatures) (List.mem_cons_of_mem _ hnorm)
    (List.mem_cons_of_mem _ hnormB) hnormNil
  have p₆ := ((p₃.tensor h₄).tensor h₅).tensor h₆
  have p₇ : Traced b₀ b₇ ((q', []) :: (k', []) :: (v', []) :: env)
      (labels ++ (normNames L L.n1 L.n1b).flatMap (dir.opt L li) ++ (qkvNames L).flatMap (dir.opt L li)) := by
    rw [normNames_opts]
    unfold qkvNames
    split at h₇
    · next hfused =>
      obtain ⟨_, b₇', hqkv, h₇⟩ := step_ok h₇
      obtain ⟨he, rfl⟩ := pure_ok h₇
      cases he
      rw [if_pos hfused]
      exact (fusedQkv_reads p₆ hqkv (by simp)).weaken (by grind)
    · next hsplit =>
      rw [if_neg hsplit]
      exact (splitQkv_reads p₆ h₇ (by simp)).weaken (by grind)
  have p₈ := qkNorm_reads p₇ h₈ (by simp) (by simp)
  have p₉ := rope_reads p₈ h₉ (by simp) (by simp)
  have p₁₀ := p₉.emit [(qIn, []), (kIn, []), (v', [])] h₁₀ (by simp)
  have p₁₁ := p₁₀.emit [(attn, []), (wo, dir.opt L li L.o)] h₁₁ (by simp [hwo])
  have p₁₂ := biased_reads p₁₁ h₁₂ (by simp) (show (bo, (ifNamed L.ob).flatMap (dir.opt L li)) ∈ _ by simp [hbo]) hboNil
  obtain ⟨p₁₃, -⟩ := postNormed_reads p₁₂ h (by simp)
  refine (p₁₃.top (by simp +contextual)).relabel ?_
  simp [attentionNames]

/-! ## The layers -/

theorem layer_reads {features : TensorId} (p : Traced b₀ b env labels) (h : (dir.layer L li features).run b = .ok (t, b'))
    (hfeatures : (features, []) ∈ env) :
    Traced b₀ b' ((t, []) :: env) (labels ++ (dir.layerNames L li).flatMap (dir.opt L li)) := by
  obtain ⟨attnNorm, b₁, h₁, h⟩ := step_ok h
  obtain ⟨attnNormB, b₂, h₂, h⟩ := step_ok h
  obtain ⟨ffnNorm, b₃, h₃, h⟩ := step_ok h
  obtain ⟨ffnNormB, b₄, h₄, h⟩ := step_ok h
  obtain ⟨wo, b₅, h₅, h⟩ := step_ok h
  obtain ⟨bo, b₆, h₆, h⟩ := step_ok h
  obtain ⟨attnO, b₇, h₇, h⟩ := step_ok h
  obtain ⟨resid1, b₈, h₈, h⟩ := step_ok h
  obtain ⟨mlpIn, b₉, h₉, h⟩ := step_ok h
  obtain ⟨ffOut, b₁₀, h₁₀, h⟩ := step_ok h
  obtain ⟨ffPost, b₁₁, h₁₁, h⟩ := step_ok h
  obtain ⟨ffShared, b₁₂, h₁₂, h⟩ := step_ok h
  obtain ⟨p₁, -⟩ := weightRef_reads p h₁
  obtain ⟨p₂, hnormB⟩ := named_reads p₁ h₂
  obtain ⟨p₃, hffn⟩ := weightRef_reads p₂ h₃
  obtain ⟨p₄, hffnB⟩ := named_reads p₃ h₄
  obtain ⟨p₅, -⟩ := weightRef_reads p₄ h₅
  obtain ⟨p₆, hbo⟩ := named_reads p₅ h₆
  have p₇ := attention_reads p₆ h₇ (by simp [hfeatures]) (by simp) (by simp) hnormB (by simp) (by simp) hbo
  have p₈ : Traced b₀ b₈ ((resid1, []) :: (attnO, []) :: (ffnNorm, dir.opt L li L.n2) ::
      (ffnNormB, (ifNamed L.n2b).flatMap (dir.opt L li)) :: env) (labels ++ (attentionNames L).flatMap (dir.opt L li)) := by
    split at h₈
    · obtain ⟨rfl, rfl⟩ := pure_ok h₈
      exact p₇.zero.top (by simp +contextual)
    · exact ((p₇.emit [(features, []), (attnO, [])] h₈ (by simp [hfeatures])).top (by simp +contextual)).relabel (by simp)
  have hin : ((if dir.config.useParallelResidual then features else resid1), []) ∈ (resid1, []) :: (attnO, []) ::
      (ffnNorm, dir.opt L li L.n2) :: (ffnNormB, (ifNamed L.n2b).flatMap (dir.opt L li)) :: env := by
    split <;> simp [hfeatures]
  have p₉ : Traced b₀ b₉ ((mlpIn, []) :: (resid1, []) :: (attnO, []) :: env)
      (labels ++ (attentionNames L).flatMap (dir.opt L li) ++ (dir.ffnNormNames L li).flatMap (dir.opt L li)) := by
    unfold ffnNormNames
    split at h₉
    · next h0 =>
      obtain ⟨rfl, rfl⟩ := pure_ok h₉
      rw [if_neg fun hyes => hffn.mpr hyes h0]
      exact ((p₈.learn hin).top (by simp +contextual)).relabel (by simp)
    · next hne =>
      obtain ⟨n2, b₉', hn2, h₉⟩ := step_ok h₉
      obtain ⟨_, b₉'', hnorm, h₉⟩ := step_ok h₉
      obtain ⟨rfl, rfl⟩ := pure_ok h₉
      rw [if_pos (hffn.mp hne), normNames_opts]
      have p' := normed_reads (p₈.tensor hn2) hnorm (List.mem_cons_of_mem _ hin) (show (ffnNorm, dir.opt L li L.n2) ∈ _ by simp)
        (show (ffnNormB, (ifNamed L.n2b).flatMap (dir.opt L li)) ∈ _ by simp) hffnB
      exact p'.top (by simp +contextual)
  obtain ⟨p₁₀, hmlp⟩ := mlp_reads p₉ h₁₀ (by simp)
  have p₁₁ : Traced b₀ b₁₁ ((ffPost, []) :: (mlpIn, []) :: (resid1, []) :: (attnO, []) :: env)
      (labels ++ (attentionNames L).flatMap (dir.opt L li) ++ (dir.ffnNormNames L li).flatMap (dir.opt L li) ++
        (dir.mlpNames L).flatMap (dir.opt L li) ++ (if dir.hasMlp L then ifNamed L.postMlp else []).flatMap (dir.opt L li)) ∧
      (ffPost ≠ 0 ↔ dir.hasMlp L) := by
    split at h₁₁
    · next h0 =>
      obtain ⟨rfl, rfl⟩ := pure_ok h₁₁
      rw [if_neg fun hyes => hmlp.mpr hyes h0]
      exact ⟨p₁₀.relabel (by simp), hmlp⟩
    · next hne =>
      obtain ⟨p', hpost⟩ := postNormed_reads p₁₀ h₁₁ (by simp)
      rw [if_pos (hmlp.mp hne)]
      exact ⟨p'.top (by simp +contextual), iff_of_true (hpost hne) (hmlp.mp hne)⟩
  obtain ⟨p₁₁, hpost⟩ := p₁₁
  have p₁₂ : Traced b₀ b₁₂ ((ffShared, []) :: (resid1, []) :: (attnO, []) :: env)
      (labels ++ (dir.layerNames L li).flatMap (dir.opt L li)) := by
    unfold layerNames
    split at h₁₂
    · next hno =>
      obtain ⟨rfl, rfl⟩ := pure_ok h₁₂
      refine (p₁₁.top (by simp +contextual)).relabel ?_
      rcases hno with h0 | hempty
      · have hnone : ¬ dir.hasMlp L := fun hyes => hpost.mpr hyes h0
        simp [hnone]
      · by_cases hyes : dir.hasMlp L <;> simp [hyes, sharedNames, hempty]
    · next hsome =>
      obtain ⟨hne, hnamed⟩ := not_or.mp hsome
      refine ((sharedExpert_reads p₁₁ h₁₂ (by simp) (by simp) hnamed).top (by simp +contextual)).relabel ?_
      simp [hpost.mp hne]
  exact ((residual_reads p₁₂ h (by simp [hfeatures]) (by simp) (by simp) (by simp)).top (by simp +contextual)).relabel rfl

/-- Every layer is read, or there is no graph. -/
theorem layers_reads : ∀ {remaining li : Nat} {features : TensorId} {b b' : GraphBuilder R} {env : List (TensorId × List Label)}
    {labels : List Label} {t : TensorId}, Traced b₀ b env labels → (dir.layers L remaining li features).run b = .ok (t, b') →
    (features, []) ∈ env →
    Traced b₀ b' ((t, []) :: env) (labels ++ (List.range' li remaining).flatMap fun i => (dir.layerNames L i).flatMap (dir.opt L i))
  | 0, li, features, b, _, env, labels, _, p, h, hin => by
    obtain ⟨rfl, rfl⟩ := pure_ok h
    exact (p.learn hin).relabel (by simp)
  | remaining + 1, li, features, b, _, env, labels, _, p, h, hin => by
    obtain ⟨f, b₁, h₁, h⟩ := step_ok h
    refine ((layers_reads (layer_reads p h₁ hin) h List.mem_cons_self).top (by simp +contextual)).relabel ?_
    rw [List.range'_succ, List.flatMap_cons, List.append_assoc]

/-! ## The graph -/

/-- The tensors outside the layers. -/
def outerNames (L : DecodedLayout) : List String := [L.embed, L.wpe, L.lmHead, L.outNorm, L.outNormBias]

omit [Field R] [LinearOrder R] in
theorem embedding_reads {tokens embW : TensorId} {le : List Label} (p : Traced b₀ b env labels)
    (h : (dir.embedding L tokens embW).run b = .ok (t, b')) (htokens : (tokens, []) ∈ env) (hemb : (embW, le) ∈ env)
    (hle : ∀ l ∈ le, l.1 ∈ outerNames L) :
    ∃ ls, Traced b₀ b' ((t, []) :: env) (labels ++ ls) ∧ ∀ l ∈ ls, l.1 ∈ outerNames L := by
  obtain ⟨hidden, b₁, h₁, h⟩ := step_ok h
  split at h
  · obtain ⟨_, b₂, h₂, h⟩ := step_ok h
    obtain ⟨rfl, rfl⟩ := pure_ok h
    exact ⟨_, (p.tensor h₁).node [(tokens, []), (embW, le)] h₂ (by simp [htokens, hemb]), by simpa using hle⟩
  · obtain ⟨tokEmb, b₂, h₂, h⟩ := step_ok h
    obtain ⟨wpeShape, b₃, h₃, h⟩ := step_ok h
    obtain ⟨-, rfl⟩ := attempt_ok h₃
    obtain ⟨wpeW, b₄, h₄, h⟩ := step_ok h
    obtain ⟨pos, b₅, h₅, h⟩ := step_ok h
    obtain ⟨posEmb, b₆, h₆, h⟩ := step_ok h
    obtain ⟨_, b₇, h₇, h⟩ := step_ok h
    obtain ⟨rfl, rfl⟩ := pure_ok h
    have p₂ := (p.tensor h₁).emit [(tokens, []), (embW, le)] h₂ (by simp [htokens, hemb])
    obtain ⟨p₄, -⟩ := p₂.weight h₄
    have p₅ := p₄.emit [(tokens, [])] h₅ (by simp [htokens])
    have p₆ := p₅.emit [(pos, []), (wpeW, [(L.wpe, dir.resolveShard L.wpe ++ "#" ++ L.wpe)])] h₆ (by simp)
    have p₇ := p₆.node [(tokEmb, []), (posEmb, [])] h₇ (by simp)
    refine ⟨le ++ [(L.wpe, dir.resolveShard L.wpe ++ "#" ++ L.wpe)], (p₇.weaken ?_).relabel (by simp), ?_⟩
    · exact List.forall_mem_cons.mpr ⟨by simp, fun e he => by simp [he]⟩
    · intro l hl
      rcases List.mem_append.mp hl with hl | hl
      · exact hle l hl
      · rw [List.mem_singleton.mp hl]
        simp [outerNames]

theorem outNorm_reads {features : TensorId} (p : Traced b₀ b env labels) (h : (dir.outNorm L features).run b = .ok (t, b'))
    (hfeatures : (features, []) ∈ env) :
    ∃ ls, Traced b₀ b' ((t, []) :: env) (labels ++ ls) ∧ ∀ l ∈ ls, l.1 ∈ outerNames L := by
  unfold outNorm at h
  split at h
  · obtain ⟨rfl, rfl⟩ := pure_ok h
    exact ⟨[], (p.learn hfeatures).relabel (by simp), by simp⟩
  · obtain ⟨nshape, b₁, h₁, h⟩ := step_ok h
    obtain ⟨-, rfl⟩ := attempt_ok h₁
    obtain ⟨nw, b₂, h₂, h⟩ := step_ok h
    obtain ⟨nb, b₃, h₃, h⟩ := step_ok h
    obtain ⟨nout, b₄, h₄, h⟩ := step_ok h
    obtain ⟨_, b₅, h₅, h⟩ := step_ok h
    obtain ⟨rfl, rfl⟩ := pure_ok h
    obtain ⟨p₂, -⟩ := p.weight h₂
    have p₃ : ∃ lb, Traced b₀ b₃ ((nb, lb) :: (nw, [(L.outNorm, dir.resolveShard L.outNorm ++ "#" ++ L.outNorm)]) :: env) labels ∧
        ∀ l ∈ lb, l.1 ∈ outerNames L := by
      split at h₃
      · exact ⟨_, (p₂.weight h₃).1, by simp [outerNames]⟩
      · obtain ⟨rfl, rfl⟩ := pure_ok h₃
        exact ⟨[], p₂.zero, by simp⟩
    obtain ⟨lb, p₃, hlb⟩ := p₃
    have p₄ := p₃.tensor h₄
    have p₅ : ∃ ls, Traced b₀ b₅ ((nout, []) :: (nb, lb) :: (nw, [(L.outNorm, dir.resolveShard L.outNorm ++ "#" ++ L.outNorm)]) :: env)
        (labels ++ ls) ∧ ∀ l ∈ ls, l.1 ∈ outerNames L := by
      split at h₅
      · refine ⟨_, p₄.node [(features, []), (nw, [(L.outNorm, dir.resolveShard L.outNorm ++ "#" ++ L.outNorm)]), (nb, lb)] h₅
          (by simp [hfeatures]), ?_⟩
        simpa [outerNames] using hlb
      · exact ⟨_, p₄.node [(features, []), (nw, [(L.outNorm, dir.resolveShard L.outNorm ++ "#" ++ L.outNorm)])] h₅ (by simp [hfeatures]),
          by simp [outerNames]⟩
    obtain ⟨ls, p₅, hls⟩ := p₅
    exact ⟨ls, p₅.top (by simp +contextual), hls⟩

/-- The weights that the graph reads: those of all layers, and a few from outside them. -/
theorem build_reads {floatText : R → String} {nLayers : Int} {embShape lmShape : List Int}
    (h : (dir.build L floatText nLayers embShape lmShape).run ((GraphBuilder.init "hf_transformer").setProducer "uaii-hf-loader") =
      .ok (u, b')) :
    ∃ before after, b'.graph.weightsRead = before ++ dir.layersLabels L nLayers.toNat ++ after ∧
      ∀ l ∈ before ++ after, l.1 ∈ outerNames L := by
  obtain ⟨_, b₁, h₁, h⟩ := step_ok h
  obtain ⟨tokens, b₂, h₂, h⟩ := step_ok h
  obtain ⟨embW, b₃, h₃, h⟩ := step_ok h
  obtain ⟨hidden, b₄, h₄, h⟩ := step_ok h
  obtain ⟨features, b₅, h₅, h⟩ := step_ok h
  obtain ⟨normed, b₆, h₆, h⟩ := step_ok h
  obtain ⟨lmW, b₇, h₇, h⟩ := step_ok h
  obtain ⟨_, b₈, h₈, h⟩ := step_ok h
  obtain ⟨logits, b₉, h₉, h₈⟩ := step_ok h₈
  obtain ⟨logitsIn, b₁₀, h₁₀, h₈⟩ := step_ok h₈
  obtain ⟨probs, b₁₁, h₁₁, h₈⟩ := step_ok h₈
  let start : GraphBuilder R := (GraphBuilder.init "hf_transformer").setProducer "uaii-hf-loader"
  have p₂ := ((Traced.start (Declared.init _ _)).metadata h₁).tensor h₂
  obtain ⟨p₃, -⟩ := p₂.weight h₃
  obtain ⟨le, p₄, hle⟩ := embedding_reads p₃ h₄ (by simp) List.mem_cons_self (by simp [outerNames])
  have p₅ := layers_reads p₄ h₅ List.mem_cons_self
  obtain ⟨ln, p₆, hln⟩ := outNorm_reads p₅ h₆ List.mem_cons_self
  have p₇ : ∃ ll, Traced start b₇ [(lmW, ll), (normed, [])] (le ++ dir.layersLabels L nLayers.toNat ++ ln) ∧ ∀ l ∈ ll, l.1 ∈ outerNames L := by
    replace p₆ : Traced start b₆ _ (le ++ dir.layersLabels L nLayers.toNat ++ ln) :=
      p₆.relabel (by simp [layersLabels, List.range_eq_range'])
    split at h₇
    · obtain ⟨rfl, rfl⟩ := pure_ok h₇
      refine ⟨[(L.embed, dir.resolveShard L.embed ++ "#" ++ L.embed)], p₆.weaken (by simp), by simp [outerNames]⟩
    · exact ⟨[(L.lmHead, dir.resolveShard L.lmHead ++ "#" ++ L.lmHead)], (p₆.weight h₇).1.weaken (by simp), by simp [outerNames]⟩
  obtain ⟨ll, p₇, hll⟩ := p₇
  have p₉ := p₇.emit [(normed, []), (lmW, ll)] h₉ (by simp)
  have p₁₀ : Traced start b₁₀ [(logitsIn, [])] (le ++ dir.layersLabels L nLayers.toNat ++ ln ++ ll) := by
    split at h₁₀
    · exact ((p₉.emit [(logits, [])] h₁₀ (by simp)).weaken (by simp)).relabel (by simp)
    · obtain ⟨rfl, rfl⟩ := pure_ok h₁₀
      exact (p₉.weaken (by simp)).relabel (by simp)
  have p₁₁ := p₁₀.emit [(logitsIn, [])] h₁₁ (by simp)
  have p := (p₁₁.io h₈).metadata h
  refine ⟨le, ln ++ ll, ?_, ?_⟩
  · rw [p.reads]
    simp [start, Graph.weightsRead, GraphBuilder.init, GraphBuilder.setProducer]
  · intro l hl
    simp only [List.mem_append] at hl
    rcases hl with hl | hl | hl
    · exact hle l hl
    · exact hln l hl
    · exact hll l hl

end HfDirectory

end Uaii.Loaders
