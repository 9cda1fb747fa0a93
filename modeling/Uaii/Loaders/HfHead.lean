/-
  Uaii.Loaders.HfHead — what is sampled from a graph that `HfLoader::load` built.

  When sampling is not greedy, `Session::generate` reads the tensor named `logits`
  (`libs/uaii-runtime/src/session.cpp`), and `sample_token_f32` takes its softmax. Numbers
  are exact; `exp`, `tanh` and the kernels but `softmax_f32` and `softcap_f32` are
  parameters.

  Proved: what is sampled is what the graph's output says exactly when there is no soft
  cap, or it takes one constant off every score (`sampled_from_probs_iff`).

  As built, the output of a graph with `final_logit_softcapping` is the softmax of
  `logits_cap`, and the scores from before the cap are sampled.
-/

import Uaii.Lib.Softmax
import Uaii.Loaders.HfGraphs
import Uaii.Planner.FusionValues
import Mathlib.Analysis.SpecialFunctions.Exp
import Mathlib.Analysis.Complex.Trigonometric

namespace Uaii.Loaders

open Uaii.Ir Uaii.Ir.Build Uaii.Planner Uaii.Runtime

/-! ## A draw without temperature, top-k, top-p and penalty -/

section Draw

variable {K G : Type} [Field K] [LinearOrder K]

structure Plain (p : SampleParams K) : Prop where
  temperature : p.temperature = 1
  topK : p.topK = 0
  topP : p.topP = 1
  repetitionPenalty : p.repetitionPenalty = 1

/-- Scores with their tokens. -/
def tokened (xs : List K) : List (K × Int) := xs.zipIdx.map fun s => (s.1, (s.2 : Int))

/-- A token, with the given probabilities. -/
def drawFrom (lib : SamplerLib K G) (probs : List K) (rng : G) : Int × G :=
  (pick (lib.uniform rng).1 0 (tokened probs), (lib.uniform rng).2)

variable [IsStrictOrderedRing K] {lib : SamplerLib K G} {p : SampleParams K}

theorem Plain.not_greedy (h : Plain p) : p.greedy = false := by
  simp [SampleParams.greedy, h.temperature]

theorem Plain.penalized_eq (h : Plain p) (row : List K) (history : List Int) (i : Nat) :
    penalized row p history i = row.getD i 0 := by
  have hfloor : (1 : K) ≤ penaltyFloor := by
    unfold penaltyFloor
    norm_num
  simp [penalized, applyRepPenalty, h.repetitionPenalty, hfloor]

/-- The sampler's own softmax, whatever it takes off the scores first. -/
theorem shifted_softmax (h : Softmax.ExpLaws lib.exp) (m : K) {row : List K} (hne : row ≠ []) :
    0 < (row.map fun x => lib.exp (x - m)).sum ∧
      (row.map fun x => lib.exp (x - m) / (row.map fun x => lib.exp (x - m)).sum) = Softmax.row lib.exp row := by
  have hsub := (Softmax.row_eq_iff h (fun x => x - m) row).mpr ⟨m, fun _ _ => rfl⟩
  have hne' : (row.map fun x => x - m) ≠ [] := by simpa using hne
  have hpos := h.sum_pos hne'
  rw [Softmax.row_eq h, List.map_map] at hsub
  rw [List.map_map] at hpos
  exact ⟨hpos, by rw [← hsub, List.map_map]; rfl⟩

omit [Field K] [LinearOrder K] [IsStrictOrderedRing K] in
theorem tokened_fst (xs : List K) : (tokened xs).map (·.1) = xs := by
  rw [tokened, List.map_map]
  exact List.zipIdx_map_fst 0 xs

omit [Field K] [LinearOrder K] [IsStrictOrderedRing K] in
theorem tokened_map (f : K → K) (xs : List K) : (tokened xs).map (fun s => (f s.1, s.2)) = tokened (xs.map f) := by
  refine List.ext_getElem (by simp [tokened]) fun i _ _ => ?_
  simp [tokened]

/-- Without options the sampler draws from the softmax of the row. -/
theorem sampleTokenF32_plain (h : Softmax.ExpLaws lib.exp) (hp : Plain p) (history : List Int) (rng : G) {row : List K}
    (hne : row ≠ []) : sampleTokenF32 lib row p history rng = .ok (drawFrom lib (Softmax.row lib.exp row) rng) := by
  have hlen : row.length ≠ 0 := by simpa using hne
  have htemp : 1 / max p.temperature (1 / 100000) = 1 := by
    rw [hp.temperature, max_eq_left (by norm_num), one_div_one]
  have hscored : ((List.range row.length).map fun i => (penalized row p history i * (1 / max p.temperature (1 / 100000)), (i : Int))) =
      tokened row := by
    rw [htemp]
    refine List.ext_getElem (by simp [tokened]) fun i hi _ => ?_
    rw [List.length_map, List.length_range] at hi
    simp [tokened, hp.penalized_eq, List.getD_eq_getElem?_getD, hi]
  have htop : ¬ (0 < p.topP ∧ p.topP < 1 - 1 / 1000000) := by
    rw [hp.topP]
    norm_num
  unfold sampleTokenF32
  rw [if_neg hlen, hp.not_greedy, if_neg Bool.false_ne_true]
  dsimp only
  rw [hscored]
  unfold drawToken
  simp only [hp.topK, lt_irrefl, false_and, if_false, htop]
  generalize (maxElement (tokened row)).1 = m
  obtain ⟨hpos, hsoft⟩ := shifted_softmax h m hne
  rw [tokened_map fun x => lib.exp (x - m), tokened_fst, ← List.sum_eq_foldl, if_neg (not_not.mpr hpos),
    tokened_map fun x => x / _, List.map_map]
  rw [← hsoft]
  rfl

/-- What is sampled from the scores is what the probabilities say. -/
def SampledFrom (exp : K → K) (scores probs : List K) : Prop :=
  Softmax.row exp scores = probs ∧
    ∀ (G : Type) (lib : SamplerLib K G) (p : SampleParams K) (history : List Int) (rng : G), lib.exp = exp → Plain p →
      scores ≠ [] → sampleTokenF32 lib scores p history rng = .ok (drawFrom lib probs rng)

theorem sampledFrom_iff {exp : K → K} (h : Softmax.ExpLaws exp) {scores probs : List K} :
    SampledFrom exp scores probs ↔ Softmax.row exp scores = probs := by
  refine ⟨And.left, fun heq => ⟨heq, ?_⟩⟩
  rintro G lib p history rng rfl hp hne
  rw [← heq]
  exact sampleTokenF32_plain h hp history rng hne

end Draw

/-! ## The kernels of the head -/

section Kernels

variable {R K : Type} [Field K] [LinearOrder K] (exp tanh : K → K) (num : R → K)

/-- `attr_float`. -/
def attrFloat (attributes : List (Attribute R)) (key : String) (default : K) : K :=
  (attributes.findSome? fun a =>
    if a.key = key then match a.value with | .float x => some (num x) | .int i => some (i : K) | _ => none else none).getD default

def softcapF32 (cap : K) (xs : List K) : List K := if 0 < cap then xs.map fun x => cap * tanh (x / cap) else xs

/-- `dispatch` of the two operators of the head, on tensors of one row. -/
def headKernels (rest : Dataflow.Interp (NodeId × OpCall R) (List K)) :
    Dataflow.Interp (NodeId × OpCall R) (List K) := fun op ins i =>
  if op.2.key.name = "Softmax" then Softmax.row exp (ins.headD [])
  else if op.2.key.name = "Softcap" then softcapF32 tanh (attrFloat num op.2.key.attributes "cap" 0) (ins.headD [])
  else rest op ins i

end Kernels

/-! ## What the passes keep -/

section Passes

variable {R : Type} {g : Graph R}

/-- A tensor that no Identity produces. -/
def NoIdentity (g : Graph R) (t : TensorId) : Prop := ∀ n ∈ g.nodes, t ∈ n.outputs → n.opName ≠ "Identity"

theorem NoIdentity.rewire {t : TensorId} (h : NoIdentity g t) : rewire g t = t := by
  have hnone : replaceOf g t = none := by
    rw [replaceOf, Option.map_eq_none_iff, List.find?_eq_none]
    rintro ⟨x, y⟩ he hx
    obtain rfl : x = t := by simpa using hx
    obtain ⟨n, hn, hop, -, hout, -⟩ := mem_replaceEntries.mp he
    exact h n hn (by simp [hout]) hop
  rw [Planner.rewire, hnone]
  rfl

theorem identityPass_node {n : Node R} (hn : n ∈ g.nodes) (hop : n.opName ≠ "Identity") (hin : ∀ x ∈ n.inputs, NoIdentity g x) :
    n ∈ (identityPass g).nodes := by
  have hentry : identityEntry g n = none := by
    rw [Option.eq_none_iff_forall_ne_some]
    rintro ⟨x, y⟩ he
    exact hop (identityEntry_some.mp he).1
  have hself : { n with inputs := n.inputs.map (rewire g) } = n := by
    rw [List.map_congr_left fun x hx => (hin x hx).rewire, List.map_id']
  unfold identityPass
  split
  · exact hn
  · exact List.mem_map.mpr ⟨n, mem_identityKept.mpr ⟨hn, hentry⟩, hself⟩

theorem identityPass_ids (h : (g.nodes.map (·.id)).Nodup) : ((identityPass g).nodes.map (·.id)).Nodup := by
  unfold identityPass
  split
  · exact h
  · rw [List.map_map]
    exact (List.filter_sublist.map _).nodup h

theorem matmulReluPass_node (hids : (g.nodes.map (·.id)).Nodup) {n : Node R} (hn : n ∈ g.nodes) (hmm : n.opName ≠ "MatMul")
    (hrelu : n.opName ≠ "Relu") : n ∈ (matmulReluPass g).nodes := by
  refine mem_matmulReluPass.mpr (.inl ⟨hn, fun hmem => ?_⟩)
  obtain ⟨relu, hr, mm, hf, hid⟩ := mem_fusedIds.mp hmem
  obtain ⟨-, -, hrop, -, -, hm, hmop, -⟩ := fusible_some hf
  rcases hid with hid | hid
  · exact hmm (by rw [List.inj_on_of_nodup_map hids hn hm hid, hmop])
  · exact hrelu (by rw [List.inj_on_of_nodup_map hids hn hr hid, hrop])

theorem find?_filter_of {α : Type} {l : List α} {p q : α → Bool} {a : α} (h : l.find? p = some a) (hq : q a = true) :
    (l.filter q).find? p = some a := by
  obtain ⟨hp, before, after, rfl, hno⟩ := List.find?_eq_some_iff_append.mp h
  refine List.find?_eq_some_iff_append.mpr ⟨hp, before.filter q, after.filter q, ?_, fun x hx => hno x (List.mem_of_mem_filter hx)⟩
  rw [List.filter_append, List.filter_cons_of_pos hq]

/-- A tensor that is read keeps its name. -/
theorem nameToId_live {name : String} {t : TensorId} (h : nameToId g name = some t) {nodes : List (Node R)} {outputs : List TensorId}
    (hlive : ∃ n ∈ nodes, t ∈ n.inputs) :
    nameToId { g with tensors := liveTensors g nodes outputs, nodes := nodes, outputs := outputs } name = some t := by
  unfold nameToId at h ⊢
  split at h
  · cases h
  · next hname =>
    obtain ⟨u, hu, rfl⟩ := Option.map_eq_some_iff.mp h
    obtain ⟨n, hn, hin⟩ := hlive
    rw [if_neg hname]
    dsimp only
    rw [liveTensors, ← List.filter_reverse, find?_filter_of hu, Option.map_some]
    exact decide_eq_true (.inr (.inr (List.any_eq_true.mpr ⟨n, hn, decide_eq_true (.inl hin)⟩)))

theorem noIdentity_of_produced (hproducers : (g.nodes.flatMap (·.outputs)).Nodup) {n : Node R} (hn : n ∈ g.nodes)
    (hop : n.opName ≠ "Identity") {t : TensorId} (ht : n.outputs = [t]) : NoIdentity g t := by
  intro m hm hmt
  rwa [Lists.eq_of_mem_flatMap hproducers hm hn hmt (by simp [ht])]

end Passes

/-! ## The nodes of the head -/

section Head

variable {R : Type}

/-- `logits` are the scores by their name, `probs` the output, and `scores` what the
    softmax reads. -/
structure Head [Zero R] [LT R] (g : Graph R) (softcap : R) (logits scores probs : TensorId) : Prop where
  named : nameToId g "logits" = some logits
  outputs : g.outputs = [probs]
  softmax : ∃ n ∈ g.nodes, n.opName = "Softmax" ∧ n.inputs = [scores] ∧ n.outputs = [probs]
  uncapped : ¬ 0 < softcap → scores = logits
  capped : 0 < softcap → ∃ n ∈ g.nodes, n.opName = "Softcap" ∧ n.attributes = [⟨"cap", .float softcap⟩] ∧
    n.inputs = [logits] ∧ n.outputs = [scores]

variable {g : Graph R}

theorem node_value {K : Type} [Field K] [LinearOrder K] {exp tanh : K → K} {num : R → K}
    {rest : Dataflow.Interp (NodeId × OpCall R) (List K)} {src env : TensorId → List K}
    (hrun : Dataflow.Solves g.calls (headKernels exp tanh num rest) src env) {n : Node R} (hn : n ∈ g.nodes)
    {t : TensorId} (ht : n.outputs = [t]) :
    env t = headKernels exp tanh num rest (n.id, g.callOf n) (n.inputs.map env) 0 := by
  refine hrun.output (g.toCall n) (List.mem_map_of_mem hn) 0 t ?_
  show n.outputs[0]? = some t
  rw [ht]
  rfl

variable [Field R] [LinearOrder R] {softcap : R} {logits scores probs : TensorId}

theorem Head.scoresTensor_eq (h : Head g softcap logits scores probs) : scoresTensor g false = .ok logits := by
  simp [scoresTensor, h.named]

section Values

variable {K : Type} [Field K] [LinearOrder K] {exp tanh : K → K} {num : R → K}
  {rest : Dataflow.Interp (NodeId × OpCall R) (List K)} {src env : TensorId → List K}

/-- The output is the softmax of the scores after the cap. -/
theorem Head.probs_eq (h : Head g softcap logits scores probs) (hrun : Dataflow.Solves g.calls (headKernels exp tanh num rest) src env)
    (hnum : ∀ x, 0 < num x ↔ 0 < x) :
    env probs = Softmax.row exp ((env logits).map fun x => if 0 < softcap then num softcap * tanh (x / num softcap) else x) := by
  obtain ⟨n, hn, hop, hin, hout⟩ := h.softmax
  have hprobs : env probs = Softmax.row exp (env scores) := by
    rw [node_value hrun hn hout, hin]
    exact if_pos hop
  rw [hprobs]
  congr 1
  by_cases hcap : 0 < softcap
  · obtain ⟨m, hm, hop, hattr, hin, hout⟩ := h.capped hcap
    have hvalue : env scores = softcapF32 tanh (attrFloat num m.attributes "cap" 0) (env logits) := by
      rw [node_value hrun hm hout, hin]
      show (if m.opName = "Softmax" then _ else if m.opName = "Softcap" then _ else _) = _
      rw [hop]
      rfl
    have hattr' : attrFloat num m.attributes "cap" 0 = num softcap := by
      rw [hattr]
      rfl
    rw [hvalue, hattr', softcapF32, if_pos ((hnum _).mpr hcap)]
    simp only [hcap, if_true]
  · rw [h.uncapped hcap]
    simp [hcap]

/-- A softmax is sampled from that is the output's, exactly when the cap takes a constant off. -/
theorem Head.sampledFrom_iff [IsStrictOrderedRing K] (h : Head g softcap logits scores probs) (hexp : Softmax.ExpLaws exp)
    (hrun : Dataflow.Solves g.calls (headKernels exp tanh num rest) src env) (hnum : ∀ x, 0 < num x ↔ 0 < x) :
    SampledFrom exp (env logits) (env probs) ↔
      ¬ 0 < softcap ∨ ∃ c, ∀ x ∈ env logits, num softcap * tanh (x / num softcap) = x - c := by
  rw [Loaders.sampledFrom_iff hexp, h.probs_eq hrun hnum, eq_comm, Softmax.row_eq_iff hexp]
  by_cases hcap : 0 < softcap
  · simp only [hcap, if_true, not_true_eq_false, false_or]
  · simp only [hcap, if_false, not_false_eq_true, true_or, iff_true]
    exact ⟨0, fun x _ => (sub_zero x).symm⟩

end Values

/-! ## Fusion leaves the head as it is -/

/-- The node that reads the scores. -/
theorem Head.reader (h : Head g softcap logits scores probs) :
    ∃ n ∈ g.nodes, (n.opName = "Softmax" ∨ n.opName = "Softcap") ∧ n.inputs = [logits] := by
  by_cases hcap : 0 < softcap
  · obtain ⟨n, hn, hop, -, hin, -⟩ := h.capped hcap
    exact ⟨n, hn, .inr hop, hin⟩
  · obtain ⟨n, hn, hop, hin, -⟩ := h.softmax
    exact ⟨n, hn, .inl hop, by rw [hin, h.uncapped hcap]⟩

theorem Head.identityPass (h : Head g softcap logits scores probs) (hno : ∀ t ∈ [logits, scores, probs], NoIdentity g t) :
    Head (identityPass g) softcap logits scores probs := by
  simp only [List.forall_mem_cons, List.not_mem_nil, false_implies, implies_true, and_true] at hno
  obtain ⟨hlogits, hscores, hprobs⟩ := hno
  have hkeep : ∀ n ∈ g.nodes, n.opName = "Softmax" ∨ n.opName = "Softcap" → ∀ x, NoIdentity g x → n.inputs = [x] →
      n ∈ (Planner.identityPass g).nodes := by
    intro n hn hop x hx hin
    refine identityPass_node hn (by rcases hop with hop | hop <;> rw [hop] <;> decide) ?_
    simpa [hin] using hx
  refine ⟨?_, ?_, ?_, h.uncapped, fun hcap => ?_⟩
  · obtain ⟨n, hn, hop, hin⟩ := h.reader
    have hlive := hkeep n hn hop logits hlogits hin
    unfold Planner.identityPass at hlive ⊢
    split at hlive
    · next he => rw [if_pos he]; exact h.named
    · next he => rw [if_neg he]; exact nameToId_live h.named ⟨n, hlive, by simp [hin]⟩
  · unfold Planner.identityPass
    split
    · exact h.outputs
    · simp [h.outputs, hprobs.rewire]
  · obtain ⟨n, hn, hop, hin, hout⟩ := h.softmax
    exact ⟨n, hkeep n hn (.inl hop) scores hscores hin, hop, hin, hout⟩
  · obtain ⟨n, hn, hop, hattr, hin, hout⟩ := h.capped hcap
    exact ⟨n, hkeep n hn (.inr hop) logits hlogits hin, hop, hattr, hin, hout⟩

theorem Head.matmulReluPass (h : Head g softcap logits scores probs) (hids : (g.nodes.map (·.id)).Nodup) :
    Head (matmulReluPass g) softcap logits scores probs := by
  have hkeep : ∀ n ∈ g.nodes, n.opName = "Softmax" ∨ n.opName = "Softcap" → n ∈ (Planner.matmulReluPass g).nodes := by
    intro n hn hop
    exact matmulReluPass_node hids hn (by rcases hop with hop | hop <;> rw [hop] <;> decide)
      (by rcases hop with hop | hop <;> rw [hop] <;> decide)
  refine ⟨?_, ?_, ?_, h.uncapped, fun hcap => ?_⟩
  · obtain ⟨n, hn, hop, hin⟩ := h.reader
    have hlive := hkeep n hn hop
    unfold Planner.matmulReluPass at hlive ⊢
    split at hlive
    · next he => rw [if_pos he]; exact h.named
    · next he => rw [if_neg he]; exact nameToId_live h.named ⟨n, hlive, by simp [hin]⟩
  · unfold Planner.matmulReluPass
    split <;> exact h.outputs
  · obtain ⟨n, hn, hop, hin, hout⟩ := h.softmax
    exact ⟨n, hkeep n hn (.inl hop), hop, hin, hout⟩
  · obtain ⟨n, hn, hop, hrest⟩ := h.capped hcap
    exact ⟨n, hkeep n hn (.inr hop), hop, hrest⟩

/-- The graph that a session plans has the head of the graph that was loaded. -/
theorem Head.optimized (h : Head g softcap logits scores probs) (hids : (g.nodes.map (·.id)).Nodup)
    (hno : ∀ t ∈ [logits, scores, probs], NoIdentity g t) (o : SessionOptions) : Head (optimized o g) softcap logits scores probs := by
  unfold Runtime.optimized
  split
  · exact (h.identityPass hno).matmulReluPass (identityPass_ids hids)
  · exact h

end Head

/-! ## The head that `load` builds -/

section Loaded

variable {R : Type} {dir : HfDirectory R} {g : Graph R}

/-- What `emit` appends. -/
theorem emit_ok {b b' : GraphBuilder R} {t : TensorId} {name nodeName opName : String} {shape : List Int} {inputs : List TensorId}
    {attributes : List (Attribute R)} (h : (emit name shape nodeName opName inputs attributes).run b = .ok (t, b')) :
    b'.graph.tensors = b.graph.tensors ++ [⟨t, name, .f32, shape, .unspecified, false, "", .f32⟩] ∧ b.graph.nodes ⊆ b'.graph.nodes ∧
      ∃ n ∈ b'.graph.nodes, n.opName = opName ∧ n.attributes = attributes ∧ n.inputs = inputs ∧ n.outputs = [t] := by
  obtain ⟨rfl, rfl⟩ := Prod.mk.inj (Except.ok.inj h)
  exact ⟨rfl, List.subset_append_left _ _, _, List.mem_concat_self, rfl, rfl, rfl, rfl⟩

variable [Field R] [LinearOrder R]

/-- What is known of the head of a loaded graph. -/
structure LoadedHead (g : Graph R) (softcap : R) (logits scores probs : TensorId) : Prop
    extends Head g softcap logits scores probs where
  nodeIds : (g.nodes.map (·.id)).Nodup
  producers : (g.nodes.flatMap (·.outputs)).Nodup
  lmHead : ∃ n ∈ g.nodes, n.opName = "MatMul" ∧ n.outputs = [logits]

theorem LoadedHead.noIdentity {softcap : R} {logits scores probs : TensorId} (h : LoadedHead g softcap logits scores probs) :
    ∀ t ∈ [logits, scores, probs], NoIdentity g t := by
  obtain ⟨m, hm, hmop, hmout⟩ := h.lmHead
  obtain ⟨n, hn, hop, -, hout⟩ := h.softmax
  have hlogits := noIdentity_of_produced h.producers hm (by rw [hmop]; decide) hmout
  have hprobs := noIdentity_of_produced h.producers hn (by rw [hop]; decide) hout
  have hscores : NoIdentity g scores := by
    by_cases hcap : 0 < softcap
    · obtain ⟨k, hk, hkop, -, -, hkout⟩ := h.capped hcap
      exact noIdentity_of_produced h.producers hk (by rw [hkop]; decide) hkout
    · rwa [h.uncapped hcap]
  simp [hlogits, hscores, hprobs]

theorem HfDirectory.load_head {floatText : R → String} {cap : Int} (h : dir.load floatText cap = .ok g) :
    ∃ logits scores probs, LoadedHead g dir.config.finalLogitSoftcapping logits scores probs := by
  obtain ⟨L, -, h⟩ := bind_ok h
  obtain ⟨embShape, -, h⟩ := bind_ok h
  obtain ⟨lmShape, -, h⟩ := bind_ok h
  obtain ⟨⟨u, b⟩, hb, h⟩ := bind_ok h
  obtain rfl := Except.ok.inj h
  obtain ⟨tokens, features, lmW, b₂, b₇, b₈, ms, -, p₇, -, -, h₈, hmeta⟩ := build_features hb
  obtain ⟨logits, b₉, h₉, h₈⟩ := step_ok h₈
  obtain ⟨scores, b₁₀, h₁₀, h₈⟩ := step_ok h₈
  obtain ⟨probs, b₁₁, h₁₁, h₈⟩ := step_ok h₈
  have hgraph := (addMetadata_run hmeta).2.2.1
  obtain ⟨-, rfl⟩ := Prod.mk.inj (Except.ok.inj h₈)
  have hnodes : b.build.nodes = b₁₁.graph.nodes := (congrArg Graph.nodes hgraph :)
  have htensors : b.build.tensors = b₁₁.graph.tensors := (congrArg Graph.tensors hgraph :)
  have houtputs : b.build.outputs = [probs] := (congrArg Graph.outputs hgraph :)
  obtain ⟨ht₉, -, lmHead, hlm, hlmOp, -, -, hlmOut⟩ := emit_ok h₉
  obtain ⟨ht₁₁, hkeep, softmax, hsoft, hsoftOp, -, hsoftIn, hsoftOut⟩ := emit_ok h₁₁
  have p₉ := p₇.emit h₉ (by decide) (by simp)
  refine ⟨logits, scores, probs, ?_⟩
  split at h₁₀
  · next hcap =>
    obtain ⟨ht₁₀, hkeep₁₀, softcap, hsc, hscOp, hscAttr, hscIn, hscOut⟩ := emit_ok h₁₀
    have hw := ((p₉.emit h₁₀ (by decide) (by simp)).emit h₁₁ (by decide) (by simp)).wired
    rw [ht₁₀, ht₉] at ht₁₁
    refine ⟨⟨?_, houtputs, ⟨softmax, hnodes ▸ hsoft, hsoftOp, hsoftIn, hsoftOut⟩, fun hno => absurd hcap hno,
      fun _ => ⟨softcap, hnodes ▸ hkeep hsc, hscOp, hscAttr, hscIn, hscOut⟩⟩, hnodes ▸ hw.nodesNodup, hnodes ▸ hw.producers,
      lmHead, hnodes ▸ hkeep (hkeep₁₀ hlm), hlmOp, hlmOut⟩
    simp [nameToId, htensors, ht₁₁]
  · next hcap =>
    obtain ⟨rfl, rfl⟩ := pure_ok h₁₀
    have hw := (p₉.emit h₁₁ (by decide) (by simp)).wired
    rw [ht₉] at ht₁₁
    refine ⟨⟨?_, houtputs, ⟨softmax, hnodes ▸ hsoft, hsoftOp, hsoftIn, hsoftOut⟩, fun _ => rfl, fun hyes => absurd hyes hcap⟩,
      hnodes ▸ hw.nodesNodup, hnodes ▸ hw.producers, lmHead, hnodes ▸ hkeep hlm, hlmOp, hlmOut⟩
    simp [nameToId, htensors, ht₁₁]

/-- What `generate` samples from, in every run of the graph that the session plans: the
    probabilities of the graph's output, exactly when there is no soft cap or it takes one
    constant off all scores of the run. -/
theorem sampled_from_probs_iff {K : Type} [Field K] [LinearOrder K] [IsStrictOrderedRing K] {exp : K → K} (tanh : K → K)
    (hexp : Softmax.ExpLaws exp) {num : R → K} (hnum : ∀ x, 0 < num x ↔ 0 < x) {floatText : R → String} {cap : Int}
    (h : dir.load floatText cap = .ok g) (o : SessionOptions) (rest : Dataflow.Interp (NodeId × OpCall R) (List K)) :
    ∃ scores probs, scoresTensor (optimized o g) false = .ok scores ∧ (optimized o g).outputs = [probs] ∧
      ∀ src env, Dataflow.Solves (optimized o g).calls (headKernels exp tanh num rest) src env →
        (SampledFrom exp (env scores) (env probs) ↔ ¬ 0 < dir.config.finalLogitSoftcapping ∨ ∃ c, ∀ x ∈ env scores,
          num dir.config.finalLogitSoftcapping * tanh (x / num dir.config.finalLogitSoftcapping) = x - c) := by
  obtain ⟨logits, scores, probs, hhead⟩ := HfDirectory.load_head h
  have hkept := hhead.toHead.optimized hhead.nodeIds hhead.noIdentity o
  exact ⟨logits, probs, hkept.scoresTensor_eq, hkept.outputs, fun src env hrun => hkept.sampledFrom_iff hexp hrun hnum⟩

end Loaded

/-! ## A model of one layer -/

section Small

open Codec

/-- The tensors and where their data is. -/
def smallTensors : List Planned :=
  [⟨⟨"model.embed_tokens.weight", [2, 1], [0, 0]⟩, 0, 8⟩, ⟨⟨"model.layers.0.input_layernorm.weight", [1], [0]⟩, 8, 12⟩,
    ⟨⟨"model.layers.0.self_attn.q_proj.weight", [1, 1], [0]⟩, 12, 16⟩,
    ⟨⟨"model.layers.0.self_attn.k_proj.weight", [1, 1], [0]⟩, 16, 20⟩,
    ⟨⟨"model.layers.0.self_attn.v_proj.weight", [1, 1], [0]⟩, 20, 24⟩,
    ⟨⟨"model.layers.0.self_attn.o_proj.weight", [1, 1], [0]⟩, 24, 28⟩]

def smallShard : List UInt8 :=
  let header := bytesOf (headerText "F32" [] smallTensors)
  leBytes 8 header.length ++ header ++ List.replicate 28 0

def smallConfig (softcap : ℚ) : HfConfig ℚ where
  architecture := "LlamaForCausalLM"
  modelType := "llama"
  hiddenSize := 1
  numHiddenLayers := 1
  numAttentionHeads := 1
  numKeyValueHeads := 1
  intermediateSize := 4
  vocabSize := 2
  maxPositionEmbeddings := 8
  headDim := 1
  rmsNormEps := 1
  ropeTheta := 10000
  ropeMode := 0
  tieWordEmbeddings := false
  numExperts := 0
  numExpertsPerTok := 0
  hiddenActOp := .silu
  chatTemplate := ""
  ropeScalingType := ""
  ropeScaleFactor := 1
  ropeLowFreqFactor := 1
  ropeHighFreqFactor := 1
  ropeOriginalMaxPos := 0
  ropeAttnFactor := 1
  ropeShortFactor := []
  ropeLongFactor := []
  quantMethod := ""
  mxfp4 := false
  rmsOffset := 0
  slidingWindow := 0
  layerSlidingWindow := []
  attnLogitSoftcapping := 0
  finalLogitSoftcapping := softcap
  rotaryDim := 0
  useParallelResidual := false

def smallModel (softcap : ℚ) : HfDirectory ℚ where
  path := "m"
  config := smallConfig softcap
  weightMap := smallTensors.map fun p => (p.tensor.name, "model.safetensors")
  fs path := if path = "m/model.safetensors" then some smallShard else none
  order := .inserted

/-- The ids of the tensors go up along the nodes. -/
def idsGoUp (g : Graph ℚ) : Bool := g.nodes.all fun n => n.inputs.all fun x => n.outputs.all fun o => (x : Nat) < o

def loadsUp (dir : HfDirectory ℚ) : Bool := (dir.load (fun _ => "") 0).toOption.any idsGoUp

theorem loadsUp_ok (dir : HfDirectory ℚ) (h : loadsUp dir = true) : ∃ g, dir.load (fun _ => "") 0 = .ok g ∧ idsGoUp g = true := by
  unfold loadsUp at h
  cases hload : dir.load (fun _ => "") 0 with
  | error e =>
    rw [hload] at h
    cases h
  | ok g =>
    rw [hload] at h
    exact ⟨g, rfl, h⟩

theorem exp_laws : Softmax.ExpLaws Real.exp := ⟨Real.exp_pos, Real.exp_add, Real.exp_injective⟩

/-- Without a soft cap every run samples from the output. -/
theorem uncapped_sampled : ∃ g, (smallModel 0).load (fun _ => "") 0 = .ok g ∧ ∀ o rest, ∃ scores probs,
    scoresTensor (optimized o g) false = .ok scores ∧ (optimized o g).outputs = [probs] ∧
      ∀ src env, Dataflow.Solves (optimized o g).calls (headKernels Real.exp Real.tanh (fun x : ℚ => (x : ℝ)) rest) src env →
        SampledFrom Real.exp (env scores) (env probs) := by
  obtain ⟨g, hload, -⟩ := loadsUp_ok (smallModel 0) (by decide +kernel)
  refine ⟨g, hload, fun o rest => ?_⟩
  obtain ⟨scores, probs, hscores, hprobs, hiff⟩ := sampled_from_probs_iff Real.tanh exp_laws (fun _ => Rat.cast_pos) hload o rest
  exact ⟨scores, probs, hscores, hprobs, fun src env hrun => (hiff src env hrun).mpr (.inl (lt_irrefl 0))⟩

/-- With a soft cap of 1 and the scores 0 and 1. -/
theorem capped_not_sampled : ∃ g scores probs src env, (smallModel 1).load (fun _ => "") 0 = .ok g ∧
    scoresTensor g false = .ok scores ∧ g.outputs = [probs] ∧
      Dataflow.Solves g.calls (headKernels Real.exp Real.tanh (fun x : ℚ => (x : ℝ)) fun _ _ _ => [0, 1]) src env ∧
        ¬ SampledFrom Real.exp (env scores) (env probs) := by
  obtain ⟨g, hload, hup⟩ := loadsUp_ok (smallModel 1) (by decide +kernel)
  obtain ⟨logits, scores, probs, hhead⟩ := HfDirectory.load_head hload
  have hrank : Dataflow.Ranked g.calls fun t => t := Graph.calls_ranked (by simpa [idsGoUp] using hup)
  obtain ⟨env, hrun⟩ := Dataflow.exists_solves hrank (Graph.calls_single hhead.producers)
    (headKernels Real.exp Real.tanh (fun x : ℚ => (x : ℝ)) fun _ _ _ => [0, 1]) fun _ => []
  refine ⟨g, logits, probs, _, env, hload, hhead.scoresTensor_eq, hhead.outputs, hrun, fun hsampled => ?_⟩
  have hscores : env logits = [0, 1] := by
    obtain ⟨n, hn, hop, hout⟩ := hhead.lmHead
    rw [node_value hrun hn hout]
    show (if n.opName = "Softmax" then _ else if n.opName = "Softcap" then _ else _) = _
    rw [hop]
    rfl
  rcases (hhead.sampledFrom_iff exp_laws hrun fun _ => Rat.cast_pos).mp hsampled with hno | ⟨c, hc⟩
  · exact hno (show (0 : ℚ) < 1 by decide)
  · have hcap : (((smallModel 1).config.finalLogitSoftcapping : ℚ) : ℝ) = 1 := Rat.cast_one
    simp only [hscores, hcap, one_mul, div_one, List.forall_mem_cons, Real.tanh_zero] at hc
    have hlt := Real.tanh_lt_one 1
    linarith [hc.1, hc.2.1]

end Small

end Uaii.Loaders
