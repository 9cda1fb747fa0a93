/-
  Uaii.Runtime.SessionHistory — what a call of `generate` owes to the calls before it
  (`Session::create`, `Session::generate` in `libs/uaii-runtime/src/session.cpp`).

  `Session::create` places the tensors: each in an allocation of its own, or several in a
  slot of the memory plan. What kernels compute is a parameter (`SessionKernels`), with
  how much of their outputs they fill: `Attention` on the cache fills the first alone. A
  view that leaves its allocation is an undefined access, and a packed weight is read as
  the floats it decodes to.

  Proved: where what a node reads was written earlier in the same run, or by no node, a
  call answers the same whatever was called before (`history_forgotten`); so it is without
  memory reuse, and with it where nodes read graph inputs, weights, and tensors that the
  nodes that produce them fill (`created_reads`).

  As built, the validator lets a node read what nothing produces, and such a tensor may
  share its slot: it holds what another operator left there in the run before, so that a
  second call answers otherwise than the first (`second_call_differs`).
-/

import Uaii.Planner.FusionValues
import Uaii.Planner.MemoryRun
import Uaii.Runtime.RunValues
import Uaii.Runtime.SharedSession

namespace Uaii.Runtime

open Uaii.Ir Uaii.Planner Uaii.Kernels

variable {R K G : Type}

/-! ## A created session -/

namespace Session

variable (s : Session R)

/-- `view_of` the tensor's buffer, but for the floats. -/
def view (t : TensorId) : TensorView K :=
  match s.buffers.find t with
  | none => .null
  | some b => ⟨b.dtype, b.shape, b.data.map fun _ => [], b.quantFormat⟩

def sizeOf (t : TensorId) : Nat := ((s.buffers.find t).map floatsIn).getD 0

/-- The tensor's view goes past its allocation. -/
def leaves (t : TensorId) : Bool :=
  match s.buffers.find t with
  | none => false
  | some b =>
    match bufferMemory s b with
    | .error _ => true
    | .ok _ => false

end Session

/-- What the kernels of a session's nodes compute, and how many floats of an output they fill. -/
structure SessionKernels (s : Session R) (K : Type) where
  layer : Node R → Option Nat
  kernel : Node R → List (TensorView K) → Committed K → Result Unit × (TensorId → List K)
  filled : NodeId → TensorId → Nat
  fills : ∀ n ∈ s.graph.nodes, ∀ floats c, (kernel n (n.inputs.map (viewOf s.view floats)) c).1 = .ok () →
    ∀ t ∈ n.outputs, ((kernel n (n.inputs.map (viewOf s.view floats)) c).2 t).length = filled n.id t
  stops : ∀ n ∈ s.graph.nodes, ∀ floats c, ∀ t ∈ n.outputs,
    ((kernel n (n.inputs.map (viewOf s.view floats)) c).2 t).length ≤ filled n.id t

namespace SessionKernels

variable {s : Session R} (κ : SessionKernels s K)

def opOf (n : Node R) : KvOp K :=
  ⟨n.opName, n.id, n.inputs, n.outputs, κ.layer n, fun ins c =>
    if (n.inputs ++ n.outputs).any s.leaves then (.error (.undefined "access past the allocation"), fun _ => [])
    else κ.kernel n ins c⟩

/-- The operators of the plan. -/
def ops : List (KvOp K) := s.plan.ops.filterMap fun op => (s.graph.findNode op.nodeId).map κ.opOf

theorem mem_ops {op : KvOp K} (h : op ∈ κ.ops) : ∃ n ∈ s.graph.nodes, op = κ.opOf n := by
  obtain ⟨planned, -, hop⟩ := List.mem_filterMap.mp h
  obtain ⟨n, hn, rfl⟩ := Option.map_eq_some_iff.mp hop
  exact ⟨n, List.mem_of_find?_eq_some hn, rfl⟩

/-- A session with these kernels. -/
def shared (o : SessionOptions) (kvSink : Int) : SharedSession R K where
  options := o
  kvSink := kvSink
  ready := true
  graph := s.graph
  buffers := s.view
  ops := κ.ops
  map := ⟨cellOf s, s.sizeOf⟩
  filled := κ.filled
  fills op hop floats c hok t ht := by
    obtain ⟨n, hn, rfl⟩ := κ.mem_ops hop
    unfold KvOp.outcome opOf at hok ⊢
    dsimp only at hok ⊢
    split at hok
    · cases hok
    · rename_i hin
      rw [if_neg hin]
      exact κ.fills n hn floats _ hok t ht
  stops op hop floats c t ht := by
    obtain ⟨n, hn, rfl⟩ := κ.mem_ops hop
    unfold KvOp.outcome opOf
    dsimp only
    split
    · exact Nat.zero_le _
    · exact κ.stops n hn floats _ t ht

/-- A node fills the tensor. -/
def Filled (t : TensorId) : Prop := ∃ m ∈ s.graph.nodes, t ∈ m.outputs ∧ s.sizeOf t ≤ κ.filled m.id t

end SessionKernels

/-! ## What a run reads -/

theorem SharedSession.covered_of {s : SharedSession R K} : ∀ {ops : List (KvOp K)} {P : Nat → Nat → Prop},
    (∀ pre op post, ops = pre ++ op :: post → ∀ t ∈ op.inputs, ∀ j < s.map.size t,
      (P (s.map.cell t) j ∨ ∃ q ∈ pre, s.Fills q (s.map.cell t) j) ∨ ¬ s.Dirty (s.map.cell t) j) → s.Covered P ops := by
  intro ops
  induction ops with
  | nil => exact fun _ => trivial
  | cons op rest ih =>
    intro P h
    refine ⟨fun t ht j hj => ?_, ih fun pre q post hsplit t ht j hj => ?_⟩
    · simpa using h [] op rest rfl t ht j hj
    · rcases h (op :: pre) q post (by rw [hsplit, List.cons_append]) t ht j hj with (hP | ⟨p, hp, hfills⟩) | hclean
      · exact .inl (.inl (.inl hP))
      · rcases List.mem_cons.mp hp with rfl | hp
        · exact .inl (.inl (.inr hfills))
        · exact .inl (.inr ⟨p, hp, hfills⟩)
      · exact .inr hclean

/-- No other tensor has the allocation. -/
def Apart (s : Session R) (t : TensorId) : Prop := ∀ u ∈ s.graph.tensors.map (·.id), u ≠ t → cellOf s u ≠ cellOf s t

section Reads

variable {s : Session R} {κ : SessionKernels s K} {h : HashOrder} {order : List (Node R)}

theorem ops_order (hwf : WellFormed s.graph) (hplan : Planned h s.graph s.plan order) : κ.ops = order.map κ.opOf := by
  unfold SessionKernels.ops
  rw [hplan.ops, List.filterMap_map, ← List.filterMap_eq_map]
  refine List.filterMap_congr fun n hn => ?_
  have hfind : s.graph.findNode n.id = some n := Lists.find?_of_nodup hwf.node_ids (hplan.perm.mem_iff.mp hn)
  show (s.graph.findNode n.id).map κ.opOf = _
  rw [hfind]
  rfl

/-- In the order of the plan, a tensor's producer has filled it, or no one else writes there. -/
theorem readsWritten (hwf : WellFormed s.graph) (hplan : Planned h s.graph s.plan order) (o : SessionOptions) (kvSink : Int)
    (hread : ∀ n ∈ s.graph.nodes, ∀ t ∈ n.inputs, Apart s t ∨ κ.Filled t) : (κ.shared o kvSink).ReadsWritten := by
  refine SharedSession.covered_of fun pre' op post' hsplit t ht j hj => ?_
  obtain ⟨pre, rest, hord, rfl, hrest⟩ := List.map_eq_append_iff.mp ((ops_order hwf hplan).symm.trans hsplit)
  obtain ⟨n, post, rfl, rfl, rfl⟩ := List.map_eq_cons_iff.mp hrest
  have hn : n ∈ s.graph.nodes := hplan.perm.mem_iff.mp (hord ▸ List.mem_append_right _ List.mem_cons_self)
  -- the one producer of a tensor that is read comes before
  have hbefore : ∀ m ∈ s.graph.nodes, t ∈ m.outputs → j < κ.filled m.id t →
      ∃ q ∈ pre.map κ.opOf, (κ.shared o kvSink).Fills q (cellOf s t) j := by
    intro m hm hout hfilled
    obtain ⟨m', hm', hout'⟩ := hplan.produced_before hord ht ⟨m, hm, hout⟩
    have hnode : m' ∈ s.graph.nodes := hplan.perm.mem_iff.mp (hord ▸ List.mem_append_left _ hm')
    obtain rfl : m' = m := Lists.eq_of_mem_flatMap hwf.producers hnode hm hout' hout
    exact ⟨κ.opOf m', List.mem_map_of_mem hm', t, hout', rfl, hj, hfilled⟩
  rcases hread n hn t ht with hapart | ⟨m, hm, hout, hfilled⟩
  · refine Classical.or_iff_not_imp_right.mpr fun hdirty => ?_
    rcases Classical.not_not.mp hdirty with htokens | ⟨q, hq, u, hu, hcell, -, hfilled⟩
    · exact .inl htokens
    · obtain ⟨m, hm, rfl⟩ := κ.mem_ops hq
      have hut : u = t := by
        by_contra hne
        exact hapart u ((hwf.declared m hm).2 u hu) hne hcell.symm
      subst hut
      exact .inr (hbefore m hm hu hfilled)
  · exact .inl (.inr (hbefore m hm hout (lt_of_lt_of_le hj hfilled)))

end Reads

/-! ## Placing -/

section Created

variable {h : HashOrder} {registry : OperatorRegistry} {o : SessionOptions} {a : Allocator} {g : Graph R} {s : Session R}

/-- What `create` leaves. -/
theorem created (hs : createSession h registry o a g = .ok s) : s.graph = optimized o g ∧ buildExecutionPlan h s.graph = .ok s.plan ∧
    allocateAllTensors o (fun _ => false) s.graph (memoryPlan h o s.graph s.plan) a = .ok (s.buffers, s.owned) := by
  unfold createSession at hs
  obtain ⟨plan, hplan, hs⟩ := bind_ok hs
  have hplace : ((checkKernels (optimized o g).nodes) >>= fun _ =>
      allocateAllTensors o (fun _ => false) (optimized o g) (memoryPlan h o (optimized o g) plan) a >>= fun placed =>
        (.ok ⟨optimized o g, plan, placed.1, placed.2⟩ : Result (Session R))) = .ok s := by
    dsimp only at hs
    split at hs
    · exact (bind_ok hs).choose_spec.2
    · exact hs
  obtain ⟨u, -, hs⟩ := bind_ok hplace
  obtain ⟨placed, hplaced, hs⟩ := bind_ok hs
  obtain ⟨buffers, owned⟩ := placed
  cases hs
  exact ⟨rfl, hplan, hplaced⟩

theorem weight_pinned {g : Graph R} (hids : (g.tensors.map (·.id)).Nodup) {t : TensorId} (hweight : g.IsWeight t) : ¬ Activation g t := by
  intro hact
  obtain ⟨u, hu, huid, huw, -, -⟩ := hact
  obtain ⟨w, hw, hwid, hww⟩ := hweight
  obtain rfl : u = w := List.inj_on_of_nodup_map hids hu hw (huid.trans hwid.symm)
  rw [huw] at hww
  cases hww

/-- Only the slots of memory reuse give two tensors one allocation. -/
theorem created_shared (hs : createSession h registry o a g = .ok s) (hids : (s.graph.tensors.map (·.id)).Nodup) {t u : TensorId}
    (ht : t ∈ s.graph.tensors.map (·.id)) (hu : u ∈ s.graph.tensors.map (·.id)) (hne : u ≠ t) (hcell : cellOf s u = cellOf s t) :
    o.enableMemoryReuse = true ∧ ∃ sid, (buildMemoryReusePlan h s.graph s.plan.ops).slotOf u = some sid ∧
      (buildMemoryReusePlan h s.graph s.plan.ops).slotOf t = some sid := by
  obtain ⟨-, -, hplaced⟩ := created hs
  obtain ⟨tt, htt, rfl⟩ := List.mem_map.mp ht
  obtain ⟨uu, huu, rfl⟩ := List.mem_map.mp hu
  obtain ⟨bt, pt, hbt, hpt, -⟩ := allocated hids hplaced htt rfl
  obtain ⟨bu, pu, hbu, hpu, -⟩ := allocated hids hplaced huu rfl
  have hptr : (s.buffers.find uu.id).map (·.data) = (s.buffers.find tt.id).map (·.data) := by
    unfold cellOf at hcell
    rw [hbt, hbu] at hcell
    rw [hbt, hbu, Option.map_some, Option.map_some, hpt, hpu]
    simpa [hpt, hpu] using hcell
  by_cases hreuse : reuses o (memoryPlan h o s.graph s.plan) = true
  · have hon : o.enableMemoryReuse = true := by
      unfold reuses at hreuse
      exact (Bool.and_eq_true_iff.mp hreuse).1
    unfold memoryPlan at hplaced hreuse
    rw [if_pos hon] at hplaced hreuse
    exact ⟨hon, slotOf_of_data hreuse hplaced (findTensor_of_nodup hids huu) (findTensor_of_nodup hids htt) rfl rfl hptr⟩
  · rw [allocateAllTensors, if_neg hreuse] at hplaced
    obtain ⟨buffers, hnaive, hplaced⟩ := bind_ok hplaced
    rw [← (Prod.mk.inj (Except.ok.inj hplaced)).1] at hptr
    exact absurd hptr ((allocateNaive_ok _ _ _ _ hnaive hids fun _ _ => rfl).2 uu huu tt htt hne rfl rfl)

/-- A tensor that is not an activation, or any where memory is not reused. -/
theorem created_apart (hs : createSession h registry o a g = .ok s) (hids : (s.graph.tensors.map (·.id)).Nodup) {t : TensorId}
    (ht : t ∈ s.graph.tensors.map (·.id)) (hpin : o.enableMemoryReuse = false ∨ ¬ Activation s.graph t) : Apart s t := by
  intro u hu hne hcell
  obtain ⟨hon, sid, hsu, hst⟩ := created_shared hs hids ht hu hne hcell
  rcases hpin with hoff | hpin
  · rw [hon] at hoff
    cases hoff
  · exact hpin (shared_activations hne hsu hst).2

/-- The graph that is planned. -/
theorem created_wellFormed (hacc : Accepted registry g) (hs : createSession h registry o a g = .ok s) : WellFormed s.graph := by
  rw [(created hs).1]
  unfold optimized
  split
  · exact fusion_wellFormed (accepted_valid hacc)
  · exact (accepted_valid hacc).wellFormed

/-- Without memory reuse, or where nodes read graph inputs, weights, and what other nodes fill. -/
theorem created_reads (hacc : Accepted registry g) (hs : createSession h registry o a g = .ok s) (κ : SessionKernels s K) (kvSink : Int)
    (hread : o.enableMemoryReuse = false ∨
      ∀ n ∈ s.graph.nodes, ∀ t ∈ n.inputs, t ∈ s.graph.inputs ∨ s.graph.IsWeight t ∨ κ.Filled t) :
    (κ.shared o kvSink).ReadsWritten := by
  have hwf := created_wellFormed hacc hs
  obtain ⟨order, hplan⟩ := buildExecutionPlan_ok hwf (created hs).2.1
  refine readsWritten hwf hplan o kvSink fun n hn t ht => ?_
  have hdecl := (hwf.declared n hn).1 t ht
  rcases hread with hoff | hread
  · exact .inl (created_apart hs hwf.tensor_ids hdecl (.inl hoff))
  · rcases hread n hn t ht with hin | hweight | hfilled
    · refine .inl (created_apart hs hwf.tensor_ids hdecl (.inr ?_))
      rintro ⟨u, -, -, -, hno, -⟩
      exact hno hin
    · exact .inl (created_apart hs hwf.tensor_ids hdecl (.inr (weight_pinned hwf.tensor_ids hweight)))
    · exact .inr hfilled

end Created

/-! ## Histories -/

/-- `create`d, with nothing called yet. -/
def LiveSession.fresh (mem : Nat → Nat → K) : LiveSession K := ⟨mem, none, false⟩

/-- A call answers the same after any two histories, where no operator reads what another left in an earlier run. -/
theorem history_forgotten [Field K] [LinearOrder K] {h : HashOrder} {registry : OperatorRegistry} {o : SessionOptions}
    {a : Allocator} {g : Graph R} {s : Session R} (hacc : Accepted registry g) (hs : createSession h registry o a g = .ok s)
    (κ : SessionKernels s K) (kvSink : Int) (hreads : o.enableMemoryReuse = false ∨ (κ.shared o kvSink).ReadsWritten)
    (lib : SamplerLib K G) (mem : Nat → Nat → K) (es es' : List (SessionEvent K G)) {call : GenerateCall K}
    (hseed : call.sample.greedy = true ∨ call.sample.hasSeed = true) (env : GenerateEnv G) (device : G) (requested requested' : Bool) :
    (κ.shared o kvSink).answer lib ((κ.shared o kvSink).runEvents lib (.fresh mem) es)
        ⟨call, { env with device := device }, requested⟩ =
      (κ.shared o kvSink).answer lib ((κ.shared o kvSink).runEvents lib (.fresh mem) es') ⟨call, env, requested'⟩ := by
  have hwritten : (κ.shared o kvSink).ReadsWritten := by
    rcases hreads with hoff | hreads
    · exact created_reads hacc hs κ kvSink (.inl hoff)
    · exact hreads
  exact SharedSession.answer_same hwritten _ es es' hseed device requested requested'

/-! ## A tensor that nothing produces -/

/-- `s = tokens + d`, `n = -s`, `probs = -n`; nothing produces `d`. -/
def danglingGraph : Graph Unit where
  version := kCurrentIrVersion
  name := "dangling"
  producer := ""
  domain := ""
  tensors := [(1, "tokens"), (2, "d"), (3, "s"), (4, "n"), (5, "probs")].map fun t =>
    ⟨t.1, t.2, .f32, [1, 2], .unspecified, false, "", .f32⟩
  nodes := [⟨1, "", "Add", "1", [1, 2], [3], []⟩, ⟨2, "", "Neg", "1", [3], [4], []⟩, ⟨3, "", "Neg", "1", [4], [5], []⟩]
  inputs := [1]
  outputs := [5]
  metadata := []

def danglingOptions (reuse : Bool) : SessionOptions := { reuseOptions with enableMemoryReuse := reuse }

/-- With memory reuse `d` and `n` have one allocation. -/
def danglingSession (reuse : Bool) : Session Unit where
  graph := danglingGraph
  plan := ⟨kCurrentIrVersion, "dangling", [⟨1, "", "Add", "1", [], [1, 2], [3]⟩, ⟨2, "", "Neg", "1", [1], [3], [4]⟩,
    ⟨3, "", "Neg", "1", [2], [4], [5]⟩], memoryHints danglingGraph, [1], [5]⟩
  buffers := (if reuse then [(1, 0), (2, 2), (3, 3), (4, 2), (5, 1)] else [(1, 0), (2, 1), (3, 2), (4, 3), (5, 4)]).map fun t =>
    (t.1, ⟨t.1, .f32, [1, 2], some t.2, 8, !reuse, .f32, 0, 0⟩)
  owned := if reuse then (List.range 4).map fun i => ⟨i, i, 8⟩ else []

theorem dangling_created (reuse : Bool) :
    createSession .inserted .builtin (danglingOptions reuse) freeAllocator danglingGraph = .ok (danglingSession reuse) := by
  cases reuse <;> rfl

/-- `add_f32` and `neg`, on two floats. -/
def danglingKernels (reuse : Bool) : SessionKernels (danglingSession reuse) Rat where
  layer _ := none
  kernel n ins _ := (.ok (), fun _ => (List.range 2).map fun j =>
    let x := (ins.getD 0 .null).f32.getD j 0
    if n.opName = "Add" then x + (ins.getD 1 .null).f32.getD j 0 else -x)
  filled _ _ := 2
  fills _ _ _ _ _ _ _ := by simp
  stops _ _ _ _ _ _ := by simp

/-- One token in, one out. -/
def danglingCall : CallEvent Rat Unit := ⟨⟨[1], 1, [], none, ⟨0, 1, 0, 1, 0, false⟩⟩, quietEnv, false⟩

/-- What the call answers after some calls like it. -/
def danglingAnswer (reuse : Bool) (calls : Nat) : Exit × List Int :=
  let s := (danglingKernels reuse).shared (danglingOptions reuse) 4
  s.answer fixedLib (s.runEvents fixedLib (.fresh fun _ _ => 0) (List.replicate calls (.generate danglingCall))) danglingCall

theorem naive_forgets : danglingAnswer false 0 = (.done, [1, 1]) ∧ danglingAnswer false 1 = danglingAnswer false 0 :=
  ⟨by decide +kernel, history_forgotten (show Accepted .builtin danglingGraph by decide +kernel) (dangling_created false)
    (danglingKernels false) 4 (.inl rfl) fixedLib _ _ _ (.inl (by decide +kernel)) quietEnv () false false⟩

/-- The second call finds `n` of the first where it reads `d`. -/
theorem second_call_differs : Accepted .builtin danglingGraph ∧
    createSession .inserted .builtin (danglingOptions true) freeAllocator danglingGraph = .ok (danglingSession true) ∧
    danglingAnswer true 0 = (.done, [1, 1]) ∧ danglingAnswer true 1 = (.done, [1, 0]) :=
  ⟨by decide +kernel, dangling_created true, by decide +kernel, by decide +kernel⟩

end Uaii.Runtime
