/-
  Uaii.Ir.PlanOrder — the order of an execution plan.

  Proved: the operators of a plan are the nodes of the graph, each once, and no operator
  reads what it or a later one produces (`buildExecutionPlan_ok`), for every order in
  which the code's maps are walked. An accepted graph has a plan (`buildExecutionPlan_total`),
  and running it reads defined values only exactly when every tensor the graph reads has a
  source (`plan_reads_defined_iff`), which nothing checks.
-/

import Uaii.Ir.Plan
import Uaii.Ir.Semantics

namespace Uaii.Ir

variable {R : Type}

/-- What planning and running a graph need of it. -/
structure WellFormed (g : Graph R) : Prop where
  tensor_ids : (g.tensors.map (·.id)).Nodup
  node_ids : (g.nodes.map (·.id)).Nodup
  producers : (g.nodes.flatMap (·.outputs)).Nodup
  declared : ∀ n ∈ g.nodes, (∀ t ∈ n.inputs, t ∈ g.tensors.map (·.id)) ∧ ∀ t ∈ n.outputs, t ∈ g.tensors.map (·.id)
  ranked : ∃ rank : TensorId → Nat, ∀ n ∈ g.nodes, ∀ x ∈ n.inputs, ∀ o ∈ n.outputs, rank x < rank o

/-- The order of a plan: every node once, and what a node reads is not produced from there on. -/
structure Planned (h : HashOrder) (g : Graph R) (p : ExecutionPlan) (order : List (Node R)) : Prop where
  perm : order.Perm g.nodes
  ops : p.ops = order.map (plannedOp h g)
  sorted : ∀ pre n post, order = pre ++ n :: post → ∀ x ∈ n.inputs, ∀ m ∈ n :: post, x ∉ m.outputs

section Order

variable {g : Graph R}

theorem lastNode_eq (hids : (g.nodes.map (·.id)).Nodup) {n : Node R} (hn : n ∈ g.nodes) : lastNode g n.id = some n :=
  Lists.find?_reverse_of_nodup hids hn

theorem lastProducer_eq (hprod : (g.nodes.flatMap (·.outputs)).Nodup) {m : Node R} (hm : m ∈ g.nodes) {x : TensorId}
    (hx : x ∈ m.outputs) : lastProducer g x = some m.id := by
  have hrev : (g.nodes.reverse.flatMap (·.outputs)).Nodup :=
    ((List.reverse_perm g.nodes).flatMap_right _).nodup_iff.mpr hprod
  unfold lastProducer
  rw [Lists.find?_of_disjoint hrev (List.mem_reverse.mpr hm) hx]
  rfl

/-- `n` reads what another node, `p`, is the last to produce. -/
def Feeds (g : Graph R) (p : NodeId) (n : Node R) : Prop := p ≠ n.id ∧ ∃ x ∈ n.inputs, lastProducer g x = some p

theorem mem_uniqueDeps {p : NodeId} {n : Node R} : p ∈ uniqueDeps g n ↔ Feeds g p n := by
  simp only [uniqueDeps, List.mem_dedup, List.mem_filterMap, Feeds]
  apply Iff.intro
  · intro h
    obtain ⟨x, hx, hp⟩ := h
    obtain ⟨hlast, hne⟩ := Option.filter_eq_some_iff.mp hp
    exact ⟨by simpa using hne, x, hx, hlast⟩
  · intro h
    obtain ⟨hne, x, hx, hlast⟩ := h
    exact ⟨x, hx, Option.filter_eq_some_iff.mpr ⟨hlast, by simpa using hne⟩⟩

theorem mem_planEdges {p q : NodeId} : (p, q) ∈ planEdges g ↔ ∃ n ∈ g.nodes, n.id = q ∧ Feeds g p n := by
  simp only [planEdges, List.mem_flatMap, List.mem_map]
  apply Iff.intro
  · intro h
    obtain ⟨n, hn, p', hp, he⟩ := h
    obtain ⟨rfl, rfl⟩ := Prod.mk.inj he
    exact ⟨n, hn, rfl, mem_uniqueDeps.mp hp⟩
  · intro h
    obtain ⟨n, hn, rfl, hp⟩ := h
    exact ⟨n, hn, p, mem_uniqueDeps.mpr hp, rfl⟩

/-- Both ends of an edge are nodes. -/
theorem planEdges_ends (h : HashOrder) {e : NodeId × NodeId} (he : e ∈ planEdges g) :
    e.1 ∈ h.walk (g.nodes.map (·.id)).dedup ∧ e.2 ∈ h.walk (g.nodes.map (·.id)).dedup := by
  obtain ⟨p, q⟩ := e
  obtain ⟨n, hn, rfl, -, x, -, hlast⟩ := mem_planEdges.mp he
  obtain ⟨m, hfind, rfl⟩ := Option.map_eq_some_iff.mp hlast
  have hm : m ∈ g.nodes := List.mem_reverse.mp (List.mem_of_find?_eq_some hfind)
  have hwalk : ∀ k ∈ g.nodes, k.id ∈ h.walk (g.nodes.map (·.id)).dedup := fun k hk =>
    (h.perm _).mem_iff.mpr (List.mem_dedup.mpr (List.mem_map_of_mem hk))
  exact ⟨hwalk m hm, hwalk n hn⟩

/-- Kahn's order of a graph that is planned: its ids are distinct, and all of them are in it. -/
theorem order_full {h : HashOrder}
    (hlen : (Kahn.order (h.walk (g.nodes.map (·.id)).dedup) (planEdges g)).length = g.nodes.length) :
    (g.nodes.map (·.id)).Nodup ∧
      (Kahn.order (h.walk (g.nodes.map (·.id)).dedup) (planEdges g)).Perm (g.nodes.map (·.id)) := by
  have hwalk := h.perm (g.nodes.map (·.id)).dedup
  have hnd : (h.walk (g.nodes.map (·.id)).dedup).Nodup := hwalk.nodup_iff.mpr (List.nodup_dedup _)
  have hE : ∀ e ∈ planEdges g, e.2 ∈ h.walk (g.nodes.map (·.id)).dedup := fun e he => (planEdges_ends h he).2
  have hsub := List.subperm_of_subset (Kahn.order_nodup hnd hE) (Kahn.order_subset hnd hE)
  have hle : (g.nodes.map (·.id)).length ≤ (g.nodes.map (·.id)).dedup.length := by
    rw [List.length_map, ← hlen, ← hwalk.length_eq]
    exact hsub.length_le
  have hdedup : (g.nodes.map (·.id)).dedup = g.nodes.map (·.id) := (List.dedup_sublist _).eq_of_length_le hle
  have hlong : (h.walk (g.nodes.map (·.id)).dedup).length = g.nodes.length := by
    rw [hwalk.length_eq, hdedup, List.length_map]
  have hfull := (hsub.perm_of_length_le (Nat.le_of_eq (hlong.trans hlen.symm))).trans hwalk
  exact ⟨List.dedup_eq_self.mp hdedup, hfull.trans (.of_eq hdedup)⟩

theorem filterMap_lastNode (hids : (g.nodes.map (·.id)).Nodup) : (g.nodes.map (·.id)).filterMap (lastNode g) = g.nodes := by
  rw [List.filterMap_map]
  have hsome : ∀ n ∈ g.nodes, (lastNode g ∘ (·.id)) n = some n := fun n hn => lastNode_eq hids hn
  rw [List.filterMap_congr hsome, List.filterMap_some]

/-- What a plan is, whatever the graph. -/
theorem buildExecutionPlan_nodes {h : HashOrder} {p : ExecutionPlan} (hok : buildExecutionPlan h g = .ok p) :
    (g.nodes.map (·.id)).Nodup ∧ ∃ order : List (Node R), order.Perm g.nodes ∧
      order.map (·.id) = Kahn.order (h.walk (g.nodes.map (·.id)).dedup) (planEdges g) ∧
      p = ⟨g.version, g.name, order.map (plannedOp h g), memoryHints g, g.inputs, g.outputs⟩ := by
  unfold buildExecutionPlan at hok
  dsimp only at hok
  split at hok
  · exact absurd hok (fail_ne_ok _ _ _)
  rename_i hlen
  cases hok
  obtain ⟨hids, hfull⟩ := order_full (not_not.mp hlen)
  refine ⟨hids, _, (hfull.filterMap (lastNode g)).trans (.of_eq (filterMap_lastNode hids)), ?_, rfl⟩
  rw [List.map_filterMap]
  have hsome : ∀ id ∈ Kahn.order (h.walk (g.nodes.map (·.id)).dedup) (planEdges g),
      (lastNode g id).map (·.id) = some id := by
    intro id hid
    obtain ⟨n, hn, rfl⟩ := List.mem_map.mp (hfull.mem_iff.mp hid)
    rw [lastNode_eq hids hn]
    rfl
  rw [List.filterMap_congr hsome, List.filterMap_some]

/-- A graph is planned exactly when its node ids are distinct and the nodes can be ranked. -/
theorem planned_iff (h : HashOrder) : (∃ p, buildExecutionPlan h g = .ok p) ↔
    (g.nodes.map (·.id)).Nodup ∧ ∃ rank : NodeId → Nat, ∀ p q, (p, q) ∈ planEdges g → rank p < rank q := by
  have hwalk := h.perm (g.nodes.map (·.id)).dedup
  have hall := Kahn.all_popped_iff (hwalk.nodup_iff.mpr (List.nodup_dedup _)) (fun e he => (planEdges_ends h he).2)
    (fun e he => (planEdges_ends h he).1)
  apply Iff.intro
  · intro hp
    obtain ⟨p, hok⟩ := hp
    obtain ⟨hids, order, hperm, hord, -⟩ := buildExecutionPlan_nodes hok
    refine ⟨hids, hall.mp ?_⟩
    rw [← hord, hwalk.length_eq, hids.dedup, List.length_map, List.length_map, hperm.length_eq]
  · intro hg
    have hlen : (Kahn.order (h.walk (g.nodes.map (·.id)).dedup) (planEdges g)).length = g.nodes.length := by
      rw [hall.mpr hg.2, hwalk.length_eq, hg.1.dedup, List.length_map]
    unfold buildExecutionPlan
    dsimp only
    rw [if_neg (not_not.mpr hlen)]
    exact ⟨_, rfl⟩

/-- A plan that is built has such an order. -/
theorem buildExecutionPlan_ok {h : HashOrder} {p : ExecutionPlan} (hg : WellFormed g) (hok : buildExecutionPlan h g = .ok p) :
    ∃ order : List (Node R), Planned h g p order := by
  obtain ⟨hids, order, hperm, hord, rfl⟩ := buildExecutionPlan_nodes hok
  refine ⟨order, hperm, rfl, ?_⟩
  intro pre n post hsplit x hx m hm hout
  have hmem : ∀ k ∈ n :: post, k ∈ g.nodes := fun k hk =>
    hperm.mem_iff.mp (by rw [hsplit]; exact List.mem_append_right _ hk)
  have hne : m.id ≠ n.id := by
    intro he
    have hmn : m = n := List.inj_on_of_nodup_map hids (hmem m hm) (hmem n List.mem_cons_self) he
    obtain ⟨rank, hrank⟩ := hg.ranked
    exact Nat.lt_irrefl _ (hrank n (hmem n List.mem_cons_self) x hx x (hmn ▸ hout))
  have hedge : (m.id, n.id) ∈ planEdges g :=
    mem_planEdges.mpr ⟨n, hmem n List.mem_cons_self, rfl, hne, x, hx, lastProducer_eq hg.producers (hmem m hm) hout⟩
  -- so `m` has been popped before `n`
  rw [hsplit, List.map_append, List.map_cons] at hord
  have hpre : m.id ∈ pre.map (·.id) :=
    Kahn.order_sorted ((h.perm _).nodup_iff.mpr (List.nodup_dedup _)) (fun e he => (planEdges_ends h he).2) hord.symm hedge
  have hndo : (order.map (·.id)).Nodup := (hperm.map _).nodup_iff.mpr hids
  rw [hsplit, List.map_append, List.map_cons] at hndo
  exact (List.nodup_append.mp hndo).2.2 m.id hpre m.id (List.mem_map_of_mem hm) rfl

end Order

theorem Valid.wellFormed {g : Graph R} (h : Valid g) : WellFormed g :=
  ⟨h.tensor_ids, h.node_ids, h.producers, h.nodes_declared, h.ranked⟩

/-! ## What running the plan reads -/

/-- An accepted graph has a plan. -/
theorem buildExecutionPlan_total {g : Graph R} (hv : Valid g) (h : HashOrder) : ∃ p, buildExecutionPlan h g = .ok p := by
  obtain ⟨rank, hrank⟩ := hv.acyclic
  refine (planned_iff h).mpr ⟨hv.node_ids, rank, fun p q he => ?_⟩
  obtain ⟨n, hn, rfl, -, x, hx, hlast⟩ := mem_planEdges.mp he
  obtain ⟨m, hfind, rfl⟩ := Option.map_eq_some_iff.mp hlast
  have hm : m ∈ g.nodes := List.mem_reverse.mp (List.mem_of_find?_eq_some hfind)
  exact hrank m hm n hn x (by simpa using List.find?_some hfind) hx

/-- Running the operators in order reads no tensor that nothing has defined, and leaves no output undefined. -/
structure ReadsDefined (g : Graph R) (p : ExecutionPlan) : Prop where
  ops : ∀ pre op post, p.ops = pre ++ op :: post → ∀ t ∈ op.inputs,
    t ∈ g.inputs ∨ g.IsWeight t ∨ ∃ e ∈ pre, t ∈ e.outputs
  outputs : ∀ t ∈ g.outputs, t ∈ g.inputs ∨ g.IsWeight t ∨ ∃ e ∈ p.ops, t ∈ e.outputs

/-- Every tensor a node or the caller reads is a graph input, a weight or some node's output. -/
def Sourced (g : Graph R) : Prop := (∀ n ∈ g.nodes, ∀ t ∈ n.inputs, g.Defined t) ∧ ∀ t ∈ g.outputs, g.Defined t

instance (g : Graph R) : Decidable (Sourced g) := inferInstanceAs (Decidable (_ ∧ _))

theorem Planned.produced_iff {h : HashOrder} {g : Graph R} {p : ExecutionPlan} {order : List (Node R)}
    (hp : Planned h g p order) {t : TensorId} : (∃ e ∈ p.ops, t ∈ e.outputs) ↔ g.Produced t := by
  rw [hp.ops]
  apply Iff.intro
  · intro he
    obtain ⟨e, he, ht⟩ := he
    obtain ⟨n, hn, rfl⟩ := List.mem_map.mp he
    exact ⟨n, hp.perm.mem_iff.mp hn, ht⟩
  · intro hn
    obtain ⟨n, hn, ht⟩ := hn
    exact ⟨plannedOp h g n, List.mem_map_of_mem (hp.perm.mem_iff.mpr hn), ht⟩

/-- What some node produces is produced before it is read. -/
theorem Planned.produced_before {h : HashOrder} {g : Graph R} {p : ExecutionPlan} {order pre post : List (Node R)}
    {n : Node R} (hp : Planned h g p order) (hsplit : order = pre ++ n :: post) {t : TensorId} (ht : t ∈ n.inputs)
    (hprod : g.Produced t) : ∃ m ∈ pre, t ∈ m.outputs := by
  obtain ⟨m, hm, hout⟩ := hprod
  have hmem : m ∈ pre ++ n :: post := hsplit ▸ hp.perm.mem_iff.mpr hm
  apply (List.mem_append.mp hmem).elim
  · intro hpre
    exact ⟨m, hpre, hout⟩
  · intro hpost
    exact absurd hout (hp.sorted pre n post hsplit t ht m hpost)

theorem plan_reads_defined_iff {registry : OperatorRegistry} {g : Graph R} (hacc : Accepted registry g) (h : HashOrder) :
    ∃ p, buildExecutionPlan h g = .ok p ∧ (ReadsDefined g p ↔ Sourced g) := by
  have hv := accepted_valid hacc
  obtain ⟨p, hok⟩ := buildExecutionPlan_total hv h
  obtain ⟨order, hp⟩ := buildExecutionPlan_ok hv.wellFormed hok
  refine ⟨p, hok, ?_⟩
  apply Iff.intro
  · intro hreads
    refine ⟨fun n hn t ht => ?_, fun t ht => ?_⟩
    · obtain ⟨pre, post, hsplit⟩ := List.append_of_mem (hp.perm.mem_iff.mpr hn)
      have hops : p.ops = pre.map (plannedOp h g) ++ plannedOp h g n :: post.map (plannedOp h g) := by
        rw [hp.ops, hsplit, List.map_append, List.map_cons]
      refine (hreads.ops _ _ _ hops t ht).imp_right (Or.imp_right fun hpre => ?_)
      obtain ⟨e, he, hout⟩ := hpre
      exact hp.produced_iff.mp ⟨e, by rw [hops]; exact List.mem_append_left _ he, hout⟩
    · exact (hreads.outputs t ht).imp_right (Or.imp_right hp.produced_iff.mp)
  · intro hsrc
    refine ⟨fun pre op post hsplit t ht => ?_, fun t ht => ?_⟩
    · rw [hp.ops] at hsplit
      obtain ⟨pre', rest, horder, rfl, hrest⟩ := List.map_eq_append_iff.mp hsplit
      obtain ⟨n, post', rfl, rfl, rfl⟩ := List.map_eq_cons_iff.mp hrest
      have hn : n ∈ g.nodes := hp.perm.mem_iff.mp (horder ▸ List.mem_append_right _ List.mem_cons_self)
      refine (hsrc.1 n hn t ht).imp_right (Or.imp_right fun hprod => ?_)
      obtain ⟨m, hm, hout⟩ := hp.produced_before horder ht hprod
      exact ⟨plannedOp h g m, List.mem_map_of_mem hm, hout⟩
    · exact (hsrc.2 t ht).imp_right (Or.imp_right hp.produced_iff.mpr)

/-- `y = x + z`, where no one gives `z` a value unless it is a weight. -/
def addGraph (weight : Bool) : Graph Unit :=
  ⟨kCurrentIrVersion, "add", "", "",
    [⟨1, "x", .f32, [1], .unspecified, false, "", .f32⟩, ⟨2, "z", .f32, [1], .unspecified, weight, "", .f32⟩,
      ⟨3, "y", .f32, [1], .unspecified, false, "", .f32⟩],
    [⟨1, "add", "Add", "1", [1, 2], [3], []⟩], [1], [3], []⟩

theorem plan_reads_weight : Accepted .builtin (addGraph true) ∧ Sourced (addGraph true) ∧
    ∃ p, buildExecutionPlan .inserted (addGraph true) = .ok p ∧ (ReadsDefined (addGraph true) p ↔ Sourced (addGraph true)) :=
  ⟨by decide, by decide, plan_reads_defined_iff (show Accepted .builtin (addGraph true) by decide) .inserted⟩

/-- The dangling operand passes the validator and is read. -/
theorem plan_reads_dangling : Accepted .builtin (addGraph false) ∧
    ∃ p, buildExecutionPlan .inserted (addGraph false) = .ok p ∧ ¬ ReadsDefined (addGraph false) p := by
  refine ⟨by decide, _, rfl, fun h => ?_⟩
  have hread := h.ops [] _ [] rfl 2 (by decide)
  simp only [List.not_mem_nil, false_and, exists_false, or_false] at hread
  exact absurd hread (by decide)

end Uaii.Ir
