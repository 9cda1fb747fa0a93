/-
  Uaii.Ir.PlanExact — exactly which graphs `build_execution_plan` plans, and what it
  plans for them.

  The planner and the validator sort topologically each on its own. The planner's
  `producer` map keeps the last node that lists a tensor, the validator's the first, and
  the validator refuses a tensor with two. The planner does not: of a tensor's producers
  it sees the last.

  Proved, for every order of the maps: a graph has a plan exactly when its node ids are
  distinct and no node is supplied by itself through others, counting last producers; the
  plan has every node once, after its suppliers, with these as its dependencies; a graph
  without errors has one, where cycles are looked for (`planned_iff_acyclic`). With two
  producers of a tensor a graph with a cycle is planned (`two_producers_planned`).
-/

import Uaii.Ir.PlanOrder

namespace Uaii.Ir

variable {R : Type} {g : Graph R}

/-- `p` produces what `q` reads. -/
def Graph.Precedes (g : Graph R) (p q : NodeId) : Prop :=
  ∃ m ∈ g.nodes, m.id = p ∧ ∃ n ∈ g.nodes, n.id = q ∧ ∃ x ∈ n.inputs, x ∈ m.outputs

/-- `p` produces what another node `q` reads. -/
def Supplies (g : Graph R) (p q : NodeId) : Prop := p ≠ q ∧ g.Precedes p q

/-- `p` is the last to produce what another node `q` reads. -/
def LastSupplies (g : Graph R) (p q : NodeId) : Prop := ∃ n ∈ g.nodes, n.id = q ∧ Feeds g p n

/-- Every node once, after what supplies it, and with it as its dependencies. -/
structure TopologicalPlan (g : Graph R) (p : ExecutionPlan) : Prop where
  nodes : ∃ order : List (Node R), order.Perm g.nodes ∧
    p.ops.map (fun op => (op.nodeId, op.nodeName, op.opName, op.opVersion, op.inputs, op.outputs)) =
      order.map fun n => (n.id, n.name, n.opName, n.opVersion, n.inputs, n.outputs)
  before : ∀ pre op post, p.ops = pre ++ op :: post → ∀ q, LastSupplies g q op.nodeId → q ∈ pre.map (·.nodeId)
  dependencies : ∀ op ∈ p.ops, op.dependencies.Nodup ∧ ∀ q, q ∈ op.dependencies ↔ LastSupplies g q op.nodeId

theorem lastProducer_mem {x : TensorId} {p : NodeId} (h : lastProducer g x = some p) :
    ∃ m ∈ g.nodes, m.id = p ∧ x ∈ m.outputs := by
  obtain ⟨m, hfind, rfl⟩ := Option.map_eq_some_iff.mp h
  exact ⟨m, List.mem_reverse.mp (List.mem_of_find?_eq_some hfind), rfl, by simpa using List.find?_some hfind⟩

theorem lastProducer_isSome {m : Node R} (hm : m ∈ g.nodes) {x : TensorId} (hx : x ∈ m.outputs) :
    ∃ p, lastProducer g x = some p := by
  cases hfind : g.nodes.reverse.find? (x ∈ ·.outputs) with
  | some k => exact ⟨k.id, by rw [lastProducer, hfind]; rfl⟩
  | none =>
    have hno := List.find?_eq_none.mp hfind m (List.mem_reverse.mpr hm)
    simp [hx] at hno

/-- Where a tensor has one producer, it is the last one. -/
theorem lastSupplies_iff
    (hsingle : ∀ m ∈ g.nodes, ∀ n ∈ g.nodes, ∀ x ∈ m.outputs, x ∈ n.outputs → m.id = n.id) (p q : NodeId) :
    LastSupplies g p q ↔ Supplies g p q := by
  constructor
  · rintro ⟨n, hn, rfl, hne, x, hx, hlast⟩
    obtain ⟨m, hm, rfl, hout⟩ := lastProducer_mem hlast
    exact ⟨hne, m, hm, rfl, n, hn, rfl, x, hx, hout⟩
  · rintro ⟨hne, m, hm, rfl, n, hn, rfl, x, hx, hout⟩
    obtain ⟨p, hlast⟩ := lastProducer_isSome hm hout
    obtain ⟨k, hk, rfl, hkout⟩ := lastProducer_mem hlast
    exact ⟨n, hn, rfl, hne, x, hx, hsingle m hm k hk x hout hkout ▸ hlast⟩

/-- `deps` of a node whose id no other node has. -/
theorem planDeps_eq (h : HashOrder) (hids : (g.nodes.map (·.id)).Nodup) {n : Node R} (hn : n ∈ g.nodes) :
    planDeps h g n.id = h.walk (uniqueDeps g n) := by
  have hfilter : g.nodes.filter (·.id == n.id) = [n] := by
    have hnd : (g.nodes.filter (·.id == n.id)).Nodup := hids.of_map.filter _
    have hall : ∀ m ∈ g.nodes.filter (·.id == n.id), m = n := by
      intro m hm
      obtain ⟨hm, hid⟩ := List.mem_filter.mp hm
      exact List.inj_on_of_nodup_map hids hm hn (by simpa using hid)
    exact List.perm_singleton.mp ((List.perm_ext_iff_of_nodup hnd (List.nodup_singleton n)).mpr fun m =>
      ⟨fun hm => List.mem_singleton.mpr (hall m hm), fun hm => by
        rw [List.mem_singleton.mp hm]
        exact List.mem_filter.mpr ⟨hn, by simp⟩⟩)
  rw [planDeps, hfilter, List.flatMap_singleton]

theorem topologicalPlan {h : HashOrder} {p : ExecutionPlan} (hok : buildExecutionPlan h g = .ok p) : TopologicalPlan g p := by
  obtain ⟨hids, order, hperm, hord, rfl⟩ := buildExecutionPlan_nodes hok
  refine ⟨⟨order, hperm, ?_⟩, fun pre op post hsplit q hq => ?_, fun op hop => ?_⟩
  · rw [List.map_map]
    rfl
  · obtain ⟨pre', rest, rfl, rfl, hrest⟩ := List.map_eq_append_iff.mp hsplit
    obtain ⟨n, post', rfl, rfl, rfl⟩ := List.map_eq_cons_iff.mp hrest
    rw [List.map_append, List.map_cons] at hord
    rw [List.map_map]
    exact Kahn.order_sorted ((h.perm _).nodup_iff.mpr (List.nodup_dedup _)) (fun e he => (planEdges_ends h he).2) hord.symm
      (mem_planEdges.mpr hq)
  · obtain ⟨n, hn, rfl⟩ := List.mem_map.mp hop
    have hnode := hperm.mem_iff.mp hn
    show (planDeps h g n.id).Nodup ∧ ∀ q, q ∈ planDeps h g n.id ↔ LastSupplies g q n.id
    rw [planDeps_eq h hids hnode]
    refine ⟨(h.perm _).nodup_iff.mpr (List.nodup_dedup _), fun q => ?_⟩
    rw [(h.perm _).mem_iff, mem_uniqueDeps]
    constructor
    · intro hq
      exact ⟨n, hnode, rfl, hq⟩
    · rintro ⟨m, hm, hid, hq⟩
      exact List.inj_on_of_nodup_map hids hm hnode hid ▸ hq

/-- Where no node precedes itself, tensors can be ranked along the nodes. -/
theorem ranked_of_acyclic (hprod : (g.nodes.flatMap (·.outputs)).Nodup) (hacyclic : Kahn.Acyclic g.Precedes) :
    ∃ rank : TensorId → Nat, ∀ n ∈ g.nodes, ∀ x ∈ n.inputs, ∀ o ∈ n.outputs, rank x < rank o := by
  let edges : List (NodeId × NodeId) := g.nodes.flatMap fun n => n.inputs.flatMap fun x =>
    (g.nodes.filter (x ∈ ·.outputs)).map fun m => (m.id, n.id)
  have hedges : (fun p q => (p, q) ∈ edges) = g.Precedes := by
    funext p q
    simp only [edges, Graph.Precedes, List.mem_flatMap, List.mem_map, List.mem_filter, Prod.mk.injEq, decide_eq_true_eq,
      eq_iff_iff]
    constructor
    · rintro ⟨n, hn, x, hx, m, ⟨hm, hout⟩, rfl, rfl⟩
      exact ⟨m, hm, rfl, n, hn, rfl, x, hx, hout⟩
    · rintro ⟨m, hm, rfl, n, hn, rfl, x, hx, hout⟩
      exact ⟨n, hn, x, hx, m, ⟨hm, hout⟩, rfl, rfl⟩
  obtain ⟨rank, hrank⟩ := (Kahn.ranked_iff_acyclic edges).mpr (hedges ▸ hacyclic)
  have hup : ∀ p q, g.Precedes p q → rank p < rank q := fun p q hpq => hrank p q (show (fun p q => (p, q) ∈ edges) p q by
    rw [hedges]; exact hpq)
  -- a tensor ranks just above the node that produces it
  let rankT : TensorId → Nat := fun t => (lastProducer g t).elim 0 (rank · + 1)
  have hrankT : ∀ n ∈ g.nodes, ∀ o ∈ n.outputs, rankT o = rank n.id + 1 := by
    intro n hn o ho
    simp only [rankT, lastProducer_eq hprod hn ho, Option.elim_some]
  refine ⟨rankT, fun n hn x hx o ho => ?_⟩
  rw [hrankT n hn o ho]
  cases hlast : lastProducer g x with
  | none => simp only [rankT, hlast, Option.elim_none]; omega
  | some p =>
    obtain ⟨m, hm, rfl, hout⟩ := lastProducer_mem hlast
    rw [hrankT m hm x hout]
    have hlt := hup m.id n.id ⟨m, hm, rfl, n, hn, rfl, x, hx, hout⟩
    omega

/-- And the other way. -/
theorem acyclic_of_ranked (hids : (g.nodes.map (·.id)).Nodup) (rank : TensorId → Nat)
    (hrank : ∀ n ∈ g.nodes, ∀ x ∈ n.inputs, ∀ o ∈ n.outputs, rank x < rank o) : Kahn.Acyclic g.Precedes := by
  -- some output of a node ranks below every output of what comes after it
  have hbelow : ∀ p q, Relation.TransGen g.Precedes p q →
      ∃ m ∈ g.nodes, m.id = p ∧ ∃ x ∈ m.outputs, ∀ n ∈ g.nodes, n.id = q → ∀ o ∈ n.outputs, rank x < rank o := by
    intro p q hpq
    induction hpq with
    | single h =>
      obtain ⟨m, hm, hmid, k, hk, rfl, x, hx, hout⟩ := h
      refine ⟨m, hm, hmid, x, hout, fun n hn hid o ho => hrank n hn x ?_ o ho⟩
      rwa [List.inj_on_of_nodup_map hids hn hk hid]
    | tail _ h ih =>
      obtain ⟨m, hm, hmid, x, hx, hlt⟩ := ih
      obtain ⟨b, hb, rfl, k, hk, rfl, y, hy, hout⟩ := h
      refine ⟨m, hm, hmid, x, hx, fun n hn hid o ho => ?_⟩
      have hxy := hlt b hb rfl y hout
      rw [List.inj_on_of_nodup_map hids hn hk hid] at ho
      exact Nat.lt_trans hxy (hrank k hk y hy o ho)
  intro p hp
  obtain ⟨m, hm, hmid, x, hx, hlt⟩ := hbelow p p hp
  exact Nat.lt_irrefl _ (hlt m hm hmid x hx)

theorem planned_iff_acyclic (h : HashOrder) (g : Graph R) :
    ((∃ p, buildExecutionPlan h g = .ok p) ↔ (g.nodes.map (·.id)).Nodup ∧ Kahn.Acyclic (LastSupplies g)) ∧
      (∀ p, buildExecutionPlan h g = .ok p → TopologicalPlan g p) ∧
      ((∀ m ∈ g.nodes, ∀ n ∈ g.nodes, ∀ x ∈ m.outputs, x ∈ n.outputs → m.id = n.id) →
        ∀ p q, LastSupplies g p q ↔ Supplies g p q) ∧
      ∀ (registry : OperatorRegistry) (options : ValidationOptions), options.checkCycles = true →
        issuesOk (validateGraph g registry options) = true → ∃ p, buildExecutionPlan h g = .ok p := by
  refine ⟨?_, fun p hok => topologicalPlan hok, fun hsingle p q => lastSupplies_iff hsingle p q, ?_⟩
  · have hedges : (fun p q => (p, q) ∈ planEdges g) = LastSupplies g :=
      funext fun p => funext fun q => propext mem_planEdges
    rw [planned_iff h, Kahn.ranked_iff_acyclic, hedges]
  · intro registry options hcycles hissues
    exact buildExecutionPlan_total (valid_of_issuesOk hcycles hissues) h

/-- The first node and the second write what the third reads, and the third writes what
    the first reads. -/
def twoProducers : Graph Unit :=
  ⟨kCurrentIrVersion, "", "", "", [],
    [⟨1, "a", "Relu", "1", [2], [1], []⟩, ⟨2, "b", "Relu", "1", [3], [1], []⟩, ⟨3, "c", "Relu", "1", [1], [2], []⟩],
    [3], [2], []⟩

/-- Two nodes that read each other's outputs. -/
def twoInCycle : Graph Unit :=
  ⟨kCurrentIrVersion, "cycle", "", "",
    [⟨1, "x", .f32, [1], .unspecified, false, "", .f32⟩, ⟨2, "y", .f32, [1], .unspecified, false, "", .f32⟩],
    [⟨1, "a", "Relu", "1", [2], [1], []⟩, ⟨2, "b", "Relu", "1", [1], [2], []⟩], [], [1], []⟩

/-- The cycle through the first producer is planned: the first node comes after the third,
    which reads its output. A validator that is told not to look for cycles finds no error
    where there is no plan. -/
theorem two_producers_planned :
    ((twoProducers.nodes.map (·.id)).Nodup ∧ ¬ Kahn.Acyclic (Supplies twoProducers) ∧ Supplies twoProducers 1 3 ∧
      ∃ p, buildExecutionPlan .inserted twoProducers = .ok p ∧ p.ops.map (·.nodeId) = [2, 3, 1]) ∧
    issuesOk (validateGraph twoInCycle .builtin ⟨false, true, true, false⟩) = true ∧
      ¬ ∃ p, buildExecutionPlan .inserted twoInCycle = .ok p := by
  have hfirst : Supplies twoProducers 1 3 := by unfold Supplies Graph.Precedes; decide
  have hthird : Supplies twoProducers 3 1 := by unfold Supplies Graph.Precedes; decide
  refine ⟨⟨by decide, fun hacyclic => hacyclic 1 (.tail (.single hfirst) hthird), hfirst, _, rfl, rfl⟩, by decide, ?_⟩
  rintro ⟨p, hp⟩
  cases hp

end Uaii.Ir
