/-
  Uaii.Planner.PlanCache — `optimize_graph` (`libs/uaii-planner/src/optimize.cpp`) and
  the in-process `PlanCache` (`cache.cpp`), with no cache directory.

  `hash` is `std::hash<std::string>`, of which nothing is assumed. `fingerprintInput` is
  the text that is hashed: it separates its fields by characters that names may contain,
  and holds no tensor name, no node name, and neither the inputs nor the outputs of the
  graph, all of which a plan copies.

  Proved: between two calls with the same text the cached plan survives any other calls
  (`Calls.get_stays`), so the second call hits; what it returns is the plan of its own
  graph exactly when the two graphs agree on what a plan is made of (`cached_plan_iff`).
-/

import Uaii.Ir.PlanOrder
import Uaii.Planner.Fusion
import Uaii.Planner.MemoryPlan
import Uaii.Planner.StoragePlan

namespace Uaii.Planner

open Uaii.Ir

variable {R : Type}

/-! ## The key -/

def nodeText (n : Node R) : String :=
  ";n" ++ Nat.repr n.id ++ ":" ++ n.opName ++ "@" ++ n.opVersion ++
    String.join (n.inputs.map fun id => "<" ++ Nat.repr id) ++ String.join (n.outputs.map fun id => ">" ++ Nat.repr id) ++
    String.join (n.attributes.map fun a => "|a" ++ a.key ++ "=" ++ Nat.repr (attributeTypeCode a.value))

def tensorText (t : Tensor) : String :=
  "|t" ++ Nat.repr t.id ++ ":" ++ Nat.repr (dtypeCode t.dtype) ++ ":w" ++ (if t.isWeight then "1" else "0") ++
    String.join (t.shape.map fun d => "x" ++ Int.repr d) ++ (if t.weightRef = "" then "" else "#ref:" ++ t.weightRef)

/-- `raw`. -/
def fingerprintInput (g : Graph R) (fusionEnabled : Bool) : String :=
  "v2|" ++ g.name ++ "|" ++ Nat.repr g.nodes.length ++ "|" ++ Nat.repr g.tensors.length ++ "|f=" ++
    (if fusionEnabled then "1" else "0") ++ "|ver=" ++ g.version.toString ++
    String.join (g.nodes.map nodeText) ++ String.join (g.tensors.map tensorText)

/-- `std::hex`. -/
def hex (n : Nat) : String := String.ofList (Nat.toDigits 16 n)

def fingerprint (hash : String → Nat) (g : Graph R) (fusionEnabled : Bool) : String :=
  let raw := fingerprintInput g fusionEnabled
  hex (hash raw) ++ hex (hash (raw ++ "#salt")) ++ "_" ++ hex raw.utf8ByteSize

theorem fingerprint_congr (hash : String → Nat) {g g' : Graph R} {fusionEnabled : Bool}
    (hraw : fingerprintInput g fusionEnabled = fingerprintInput g' fusionEnabled) :
    fingerprint hash g fusionEnabled = fingerprint hash g' fusionEnabled := by
  unfold fingerprint
  rw [hraw]

/-! ## The cache -/

/-- `entries_`. -/
abbrev PlanCache := List (String × ExecutionPlan)

namespace PlanCache

def get (c : PlanCache) (key : String) : Option ExecutionPlan := (c.find? (·.1 == key)).map (·.2)

def put (c : PlanCache) (key : String) (plan : ExecutionPlan) : PlanCache := (key, plan) :: c.filter (·.1 != key)

theorem get_put_self (c : PlanCache) (key : String) (plan : ExecutionPlan) : (c.put key plan).get key = some plan := by
  simp [get, put]

theorem get_put_of_ne (c : PlanCache) {key key' : String} (h : key ≠ key') (plan : ExecutionPlan) :
    (c.put key plan).get key' = c.get key' := by
  unfold get put
  rw [List.find?_cons_of_neg (by simpa using h), List.find?_filter]
  congr 2
  funext e
  by_cases he : e.1 = key'
  · simp [he, Ne.symm h]
  · simp [he]

end PlanCache

/-! ## `optimize_graph` -/

structure OptimizeOptions where
  enableFusion : Bool
  enableMemoryReuse : Bool
  enableStoragePlan : Bool
  enablePlanCache : Bool
  storage : StoragePlanOptions
  deriving DecidableEq, Repr

structure OptimizeResult (R : Type) where
  graph : Graph R
  plan : ExecutionPlan
  fusion : FusionStats
  memory : MemoryReusePlan
  storage : StoragePlan
  cacheHit : Bool
  deriving DecidableEq, Repr

def fused (options : OptimizeOptions) (g : Graph R) : Graph R × FusionStats :=
  if options.enableFusion then applyFusionPasses g else (g, ⟨g.nodes.length, g.nodes.length, 0, 0⟩)

/-- The plan, whether the cache had it, and the cache afterwards. -/
def planThrough (hash : String → Nat) (h : HashOrder) (options : OptimizeOptions) (cache : PlanCache) (g : Graph R) :
    Result (ExecutionPlan × Bool) × PlanCache :=
  let key := fingerprint hash g options.enableFusion
  match if options.enablePlanCache then cache.get key else none with
  | some plan => (.ok (plan, true), cache)
  | none =>
    match buildExecutionPlan h g with
    | .error e => (.error e, cache)
    | .ok plan => (.ok (plan, false), if options.enablePlanCache then cache.put key plan else cache)

/-- The result, and the cache afterwards: a plan stays in it when the storage plan fails. -/
def optimizeGraph (hash : String → Nat) (h : HashOrder) (options : OptimizeOptions) (cache : PlanCache) (g : Graph R) :
    Result (OptimizeResult R) × PlanCache :=
  let (graph, fusion) := fused options g
  let (planned, cache) := planThrough hash h options cache graph
  let storagePlan : Result StoragePlan :=
    if options.enableStoragePlan then buildStoragePlan graph options.storage else .ok ⟨[], [], 0, 0, 0, 2, 0, 0, false⟩
  let result : Result (OptimizeResult R) := do
    let (plan, cacheHit) ← planned
    let memory := if options.enableMemoryReuse then buildMemoryReusePlan h graph plan.ops else ⟨[], [], [], 0, 0, 0⟩
    let storage ← storagePlan
    .ok ⟨graph, plan, fusion, memory, storage, cacheHit⟩
  (result, cache)

/-- What any number of calls make of the cache. -/
inductive Calls (R : Type) (hash : String → Nat) : PlanCache → PlanCache → Prop
  | none (c : PlanCache) : Calls R hash c c
  | call {c c' : PlanCache} (h : HashOrder) (options : OptimizeOptions) (g : Graph R) :
      Calls R hash c c' → Calls R hash c (optimizeGraph hash h options c' g).2

section Cache

variable {hash : String → Nat} {h : HashOrder} {options : OptimizeOptions} {cache : PlanCache} {g : Graph R}

theorem optimizeGraph_ok {r : OptimizeResult R} (hok : (optimizeGraph hash h options cache g).1 = .ok r) :
    r.graph = (fused options g).1 ∧ (planThrough hash h options cache r.graph).1 = .ok (r.plan, r.cacheHit) := by
  simp only [optimizeGraph] at hok
  obtain ⟨⟨plan, hit⟩, hplan, hrest⟩ := bind_ok hok
  obtain ⟨storage, -, hlast⟩ := bind_ok hrest
  cases hlast
  exact ⟨rfl, hplan⟩

theorem optimizeGraph_cache :
    (optimizeGraph hash h options cache g).2 = (planThrough hash h options cache (fused options g).1).2 := rfl

/-- A call leaves the cache alone or adds an entry that was missing. -/
theorem planThrough_cache : (planThrough hash h options cache g).2 = cache ∨
    ∃ plan, cache.get (fingerprint hash g options.enableFusion) = none ∧
      (planThrough hash h options cache g).2 = cache.put (fingerprint hash g options.enableFusion) plan := by
  unfold planThrough
  dsimp only
  split
  · exact .inl rfl
  rename_i hmiss
  split
  · exact .inl rfl
  rename_i plan hplan
  by_cases hcache : options.enablePlanCache
  · refine .inr ⟨plan, ?_, if_pos hcache⟩
    rwa [if_pos hcache] at hmiss
  · exact .inl (if_neg hcache)

theorem planThrough_hit {plan : ExecutionPlan} (hcache : options.enablePlanCache = true)
    (hget : cache.get (fingerprint hash g options.enableFusion) = some plan) :
    planThrough hash h options cache g = (.ok (plan, true), cache) := by
  simp only [planThrough, hcache, if_true, hget]

/-- A plan that was not in the cache has been built, and is in it. -/
theorem planThrough_miss {plan : ExecutionPlan} (hcache : options.enablePlanCache = true)
    (hok : (planThrough hash h options cache g).1 = .ok (plan, false)) : buildExecutionPlan h g = .ok plan ∧
      (planThrough hash h options cache g).2.get (fingerprint hash g options.enableFusion) = some plan := by
  unfold planThrough at hok ⊢
  dsimp only at hok ⊢
  split at hok
  · cases hok
  split at hok
  · cases hok
  rename_i hbuild
  cases hok
  rw [hbuild]
  refine ⟨rfl, ?_⟩
  simp only [hcache, if_true]
  exact cache.get_put_self _ _

/-- An entry stays. -/
theorem Calls.get_stays {later : PlanCache} {key : String} {plan : ExecutionPlan} (hcalls : Calls R hash cache later)
    (hget : cache.get key = some plan) : later.get key = some plan := by
  induction hcalls with
  | none => exact hget
  | call h options g _ ih =>
    rw [optimizeGraph_cache]
    rcases @planThrough_cache _ hash h options _ (fused options g).1 with hsame | hput
    · rw [hsame]
      exact ih
    · obtain ⟨new, hmiss, hput⟩ := hput
      rw [hput, PlanCache.get_put_of_ne]
      · exact ih
      · intro he
        rw [he, ih] at hmiss
        cases hmiss

end Cache

/-! ## What a plan is made of -/

/-- An operator without the nodes it waits for. -/
def bare (op : PlannedOp) : PlannedOp := { op with dependencies := [] }

/-- Equal up to the order of the operators, and of each one's dependencies. -/
structure SamePlan (p q : ExecutionPlan) : Prop where
  irVersion : p.irVersion = q.irVersion
  graphName : p.graphName = q.graphName
  memoryHints : p.memoryHints = q.memoryHints
  graphInputs : p.graphInputs = q.graphInputs
  graphOutputs : p.graphOutputs = q.graphOutputs
  ops : (p.ops.map bare).Perm (q.ops.map bare)
  dependencies : ∀ e ∈ p.ops, ∀ f ∈ q.ops, e.nodeId = f.nodeId → e.dependencies.Perm f.dependencies

/-- What the plan takes from a node. -/
def nodeFields (n : Node R) : NodeId × String × String × String × List TensorId × List TensorId :=
  (n.id, n.name, n.opName, n.opVersion, n.inputs, n.outputs)

/-- What the plan takes from a tensor. -/
def tensorFields (t : Tensor) : TensorId × String × Nat × Bool := (t.id, t.name, estimateTensorBytes t, t.isWeight)

/-- The two graphs agree on all that a plan copies. -/
structure SamePlanned (g g' : Graph R) : Prop where
  version : g.version = g'.version
  name : g.name = g'.name
  tensors : g.tensors.map tensorFields = g'.tensors.map tensorFields
  inputs : g.inputs = g'.inputs
  outputs : g.outputs = g'.outputs
  nodes : (g.nodes.map nodeFields).Perm (g'.nodes.map nodeFields)
  feeds : ∀ n ∈ g.nodes, ∀ n' ∈ g'.nodes, n.id = n'.id → ∀ p, Feeds g p n ↔ Feeds g' p n'

section Same

variable {g g' : Graph R} {h h' : HashOrder} {p q : ExecutionPlan}

/-- The dependencies of a planned node, when ids are distinct. -/
theorem planDeps_perm (hids : (g.nodes.map (·.id)).Nodup) {n : Node R} (hn : n ∈ g.nodes) :
    (planDeps h g n.id).Perm (uniqueDeps g n) := by
  have hone : g.nodes.filter (·.id == n.id) = [n] := by
    have hnd : (g.nodes.filter (·.id == n.id)).Nodup := (List.Nodup.of_map _ hids).filter _
    refine List.perm_singleton.mp ((List.perm_ext_iff_of_nodup hnd (List.nodup_singleton n)).mpr fun m => ?_)
    simp only [List.mem_filter, beq_iff_eq, List.mem_singleton]
    apply Iff.intro
    · intro hm
      exact List.inj_on_of_nodup_map hids hm.1 hn hm.2
    · intro hm
      exact ⟨hm ▸ hn, congrArg (·.id) hm⟩
  unfold planDeps
  rw [hone, List.flatMap_singleton]
  exact h.perm _

theorem uniqueDeps_perm {n n' : Node R} : (uniqueDeps g n).Perm (uniqueDeps g' n') ↔ ∀ p, Feeds g p n ↔ Feeds g' p n' := by
  have hnd : ∀ (k : Graph R) (m : Node R), (uniqueDeps k m).Nodup := fun k m => List.nodup_dedup _
  rw [List.perm_ext_iff_of_nodup (hnd g n) (hnd g' n')]
  simp only [mem_uniqueDeps]

theorem memoryHints_eq_iff (hin : g.inputs = g'.inputs) (hout : g.outputs = g'.outputs) :
    memoryHints g = memoryHints g' ↔ g.tensors.map tensorFields = g'.tensors.map tensorFields := by
  let hint : TensorId × String × Nat × Bool → MemoryPlanHint := fun f =>
    ⟨f.1, f.2.1, f.2.2.1, f.1 ∈ g.inputs, f.1 ∈ g.outputs, f.2.2.2⟩
  let fields : MemoryPlanHint → TensorId × String × Nat × Bool := fun m => (m.tensorId, m.name, m.estimatedBytes, m.isWeight)
  have hhint : ∀ ts : List Tensor, (ts.map tensorFields).map hint =
      ts.map fun t => ⟨t.id, t.name, estimateTensorBytes t, t.id ∈ g.inputs, t.id ∈ g.outputs, t.isWeight⟩ :=
    fun ts => List.map_map
  have hfields : ∀ k : Graph R, (memoryHints k).map fields = k.tensors.map tensorFields := fun k => List.map_map
  apply Iff.intro
  · intro hsame
    rw [← hfields g, ← hfields g', hsame]
  · intro hsame
    unfold memoryHints
    rw [← hin, ← hout, ← hhint, ← hhint, hsame]

/-- Graphs that agree on their nodes and edges are planned together. -/
theorem SamePlanned.edges (hs : SamePlanned g g') {a b : NodeId} (he : (a, b) ∈ planEdges g') : (a, b) ∈ planEdges g := by
  obtain ⟨n', hn', rfl, hfeeds⟩ := mem_planEdges.mp he
  obtain ⟨n, hn, hsame⟩ := List.mem_map.mp (hs.nodes.mem_iff.mpr (List.mem_map_of_mem hn'))
  have hid : n.id = n'.id := congrArg Prod.fst hsame
  exact mem_planEdges.mpr ⟨n, hn, hid, (hs.feeds n hn n' hn' hid a).mpr hfeeds⟩

theorem SamePlanned.ids (hs : SamePlanned g g') : (g.nodes.map (·.id)).Perm (g'.nodes.map (·.id)) := by
  have hperm := hs.nodes.map Prod.fst
  rwa [List.map_map, List.map_map] at hperm

/-- A plan's operators without dependencies are the fields of its graph's nodes. -/
theorem bare_ops {order : List (Node R)} (horder : order.Perm g.nodes) :
    ((order.map (plannedOp h g)).map bare).Perm
      ((g.nodes.map nodeFields).map fun f => ⟨f.1, f.2.1, f.2.2.1, f.2.2.2.1, [], f.2.2.2.2.1, f.2.2.2.2.2⟩) := by
  rw [List.map_map, List.map_map]
  exact horder.map _

/-- A plan is also another graph's plan exactly when the graphs agree on all that a plan copies. -/
theorem samePlan_iff (hp : buildExecutionPlan h g = .ok p) :
    (∃ q, buildExecutionPlan h' g' = .ok q ∧ SamePlan p q) ↔ SamePlanned g g' := by
  obtain ⟨hids, order, horder, -, rfl⟩ := buildExecutionPlan_nodes hp
  apply Iff.intro
  · intro hsame
    obtain ⟨q, hq, hs⟩ := hsame
    obtain ⟨hids', order', horder', -, rfl⟩ := buildExecutionPlan_nodes hq
    refine ⟨hs.irVersion, hs.graphName, (memoryHints_eq_iff hs.graphInputs hs.graphOutputs).mp hs.memoryHints,
      hs.graphInputs, hs.graphOutputs, ?_, ?_⟩
    · have hops := ((bare_ops horder).symm.trans hs.ops).trans (bare_ops horder')
      have hback := hops.map fun op => (op.nodeId, op.nodeName, op.opName, op.opVersion, op.inputs, op.outputs)
      rw [List.map_map, List.map_map] at hback
      simpa [Function.comp_def] using hback
    · intro n hn n' hn' hid
      refine uniqueDeps_perm.mp ?_
      have hdeps := hs.dependencies _ (List.mem_map_of_mem (horder.mem_iff.mpr hn)) _
        (List.mem_map_of_mem (horder'.mem_iff.mpr hn')) hid
      exact ((planDeps_perm hids hn).symm.trans hdeps).trans (planDeps_perm hids' hn')
  · intro hs
    obtain ⟨-, rank, hrank⟩ := (planned_iff h).mp ⟨_, hp⟩
    have hids' : (g'.nodes.map (·.id)).Nodup := hs.ids.nodup_iff.mp hids
    obtain ⟨q, hq⟩ := (planned_iff h').mpr ⟨hids', rank, fun a b he => hrank a b (hs.edges he)⟩
    obtain ⟨-, order', horder', -, rfl⟩ := buildExecutionPlan_nodes hq
    refine ⟨_, hq, hs.version, hs.name, (memoryHints_eq_iff hs.inputs hs.outputs).mpr hs.tensors, hs.inputs, hs.outputs, ?_, ?_⟩
    · exact ((bare_ops horder).trans (hs.nodes.map _)).trans (bare_ops horder').symm
    · intro e he f hf hid
      obtain ⟨n, hn, rfl⟩ := List.mem_map.mp he
      obtain ⟨n', hn', rfl⟩ := List.mem_map.mp hf
      have hmem := horder.mem_iff.mp hn
      have hmem' := horder'.mem_iff.mp hn'
      have hdeps := uniqueDeps_perm.mpr (hs.feeds n hmem n' hmem' hid)
      exact ((planDeps_perm hids hmem).trans hdeps).trans (planDeps_perm hids' hmem').symm

end Same

theorem cached_plan_iff (hash : String → Nat) {h h' : HashOrder} {options options' : OptimizeOptions}
    {cache later : PlanCache} {g g' : Graph R} {r r' : OptimizeResult R}
    (hcache : options.enablePlanCache = true) (hcache' : options'.enablePlanCache = true)
    (hfusion : options.enableFusion = options'.enableFusion)
    (hraw : fingerprintInput (fused options g).1 options.enableFusion =
      fingerprintInput (fused options' g').1 options.enableFusion)
    (hfirst : (optimizeGraph hash h options cache g).1 = .ok r) (hmiss : r.cacheHit = false)
    (hcalls : Calls R hash (optimizeGraph hash h options cache g).2 later)
    (hsecond : (optimizeGraph hash h' options' later g').1 = .ok r') :
    r'.cacheHit = true ∧ r'.plan = r.plan ∧
      ((∃ q, buildExecutionPlan h' r'.graph = .ok q ∧ SamePlan r'.plan q) ↔ SamePlanned r.graph r'.graph) := by
  obtain ⟨hgraph, hplan⟩ := optimizeGraph_ok hfirst
  obtain ⟨hgraph', hplan'⟩ := optimizeGraph_ok hsecond
  rw [hmiss] at hplan
  obtain ⟨hbuild, hput⟩ := planThrough_miss hcache hplan
  have hkey : fingerprint hash r.graph options.enableFusion = fingerprint hash r'.graph options'.enableFusion := by
    rw [hgraph, hgraph', ← hfusion]
    exact fingerprint_congr hash hraw
  rw [optimizeGraph_cache, ← hgraph] at hcalls
  have hget := hcalls.get_stays (hkey ▸ hput)
  rw [planThrough_hit hcache' hget] at hplan'
  obtain ⟨hsame, hhit⟩ := Prod.mk.inj (Except.ok.inj hplan')
  refine ⟨hhit.symm, hsame.symm, ?_⟩
  rw [← hsame]
  exact samePlan_iff hbuild

/-- `h = Relu(x)`, `y = Neg(h)`, with one attribute. -/
def reluNegGraph (alpha : Int) (output : TensorId) : Graph Unit :=
  ⟨kCurrentIrVersion, "chain", "", "",
    [⟨1, "x", .f32, [4], .unspecified, false, "", .f32⟩, ⟨2, "h", .f32, [4], .unspecified, false, "", .f32⟩,
      ⟨3, "y", .f32, [4], .unspecified, false, "", .f32⟩],
    [⟨1, "relu", "Relu", "1", [1], [2], [⟨"alpha", .int alpha⟩]⟩, ⟨2, "neg", "Neg", "1", [2], [3], []⟩], [1], [output], []⟩

def planOnly : OptimizeOptions := ⟨false, false, false, true, ⟨0, true, false, 0, 0, 2⟩⟩

/-- The second of two calls with the same text. -/
theorem planOnly_hits {hash : String → Nat} {g g' : Graph R} {plan : ExecutionPlan}
    (hraw : fingerprintInput g false = fingerprintInput g' false) (hbuild : buildExecutionPlan .inserted g = .ok plan) :
    (optimizeGraph hash .inserted planOnly (optimizeGraph hash .inserted planOnly [] g).2 g').1 =
      .ok ⟨g', plan, ⟨g'.nodes.length, g'.nodes.length, 0, 0⟩, ⟨[], [], [], 0, 0, 0⟩, ⟨[], [], 0, 0, 0, 2, 0, 0, false⟩, true⟩ := by
  have hmiss : (planThrough hash .inserted planOnly [] g).1 = .ok (plan, false) := by
    show (match buildExecutionPlan .inserted g with
      | .error e => (Except.error e, ([] : PlanCache))
      | .ok p => (.ok (p, false), _)).1 = _
    rw [hbuild]
  have hget := (planThrough_miss (show planOnly.enablePlanCache = true from rfl) hmiss).2
  have hkey : fingerprint hash g planOnly.enableFusion = fingerprint hash g' planOnly.enableFusion := fingerprint_congr hash hraw
  have hhit := planThrough_hit (h := .inserted) (show planOnly.enablePlanCache = true from rfl) (hkey ▸ hget)
  show (planThrough hash .inserted planOnly (planThrough hash .inserted planOnly [] g).2 g').1 >>= _ = _
  rw [hhit]
  rfl

/-- Attribute values are not in the text, nor in the plan. -/
theorem other_attribute_cached : ∃ r r' : OptimizeResult Unit,
    (optimizeGraph String.length .inserted planOnly [] (reluNegGraph 1 3)).1 = .ok r ∧
      (optimizeGraph String.length .inserted planOnly
        (optimizeGraph String.length .inserted planOnly [] (reluNegGraph 1 3)).2 (reluNegGraph 2 3)).1 = .ok r' ∧
      r'.cacheHit = true ∧ r'.plan = r.plan ∧
      ((∃ q, buildExecutionPlan .inserted r'.graph = .ok q ∧ SamePlan r'.plan q) ↔ SamePlanned r.graph r'.graph) := by
  have hraw : fingerprintInput (fused planOnly (reluNegGraph 1 3)).1 planOnly.enableFusion =
      fingerprintInput (fused planOnly (reluNegGraph 2 3)).1 planOnly.enableFusion := rfl
  refine ⟨_, _, rfl, planOnly_hits hraw rfl, ?_⟩
  exact cached_plan_iff String.length rfl rfl rfl hraw rfl rfl (.none _) (planOnly_hits hraw rfl)

/-- Nor are the outputs of the graph, which the plan does hold: the second graph gets the first one's. -/
theorem other_outputs_cached : Accepted .builtin (reluNegGraph 1 3) ∧ Accepted .builtin (reluNegGraph 1 2) ∧
    fingerprintInput (reluNegGraph 1 3) false = fingerprintInput (reluNegGraph 1 2) false ∧
    ∀ hash : String → Nat, ∃ r r' : OptimizeResult Unit,
      (optimizeGraph hash .inserted planOnly [] (reluNegGraph 1 3)).1 = .ok r ∧
      (optimizeGraph hash .inserted planOnly
        (optimizeGraph hash .inserted planOnly [] (reluNegGraph 1 3)).2 (reluNegGraph 1 2)).1 = .ok r' ∧
      r'.cacheHit = true ∧ r'.plan = r.plan ∧
      ∃ q, buildExecutionPlan .inserted (reluNegGraph 1 2) = .ok q ∧ q.graphOutputs = [2] ∧ r'.plan.graphOutputs = [3] ∧
        ¬ SamePlan r'.plan q := by
  refine ⟨by decide, by decide, rfl, fun hash => ?_⟩
  refine ⟨_, _, rfl, planOnly_hits rfl rfl, rfl, rfl, _, rfl, rfl, rfl, fun h => ?_⟩
  have hout : [3] = [2] := h.graphOutputs
  cases hout

end Uaii.Planner
