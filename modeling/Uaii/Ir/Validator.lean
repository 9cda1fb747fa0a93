/-
  Uaii.Ir.Validator — `validate_graph` (`libs/uaii-ir/src/validator.cpp`).

  The checks run in the source's order and each contributes its issues; a graph is
  accepted when none of them is an error. The hash maps the code iterates over are only
  counted or looked up, so their order does not show.

  Proved: what acceptance means (`accepted_valid`): ids are unique, a tensor has at most
  one producer and a graph input none, every id is declared, and the producer-consumer
  relation between nodes is acyclic.
-/

import Mathlib.Data.List.Dedup
import Uaii.Ir.Graph
import Uaii.Ir.Registry
import Uaii.Lib.Kahn
import Uaii.Lib.Lists

namespace Uaii.Ir

inductive ValidationSeverity where
  | error
  | warning
  deriving DecidableEq, Repr

structure ValidationIssue where
  severity : ValidationSeverity
  code : String
  message : String
  nodeId : NodeId
  tensorId : TensorId
  deriving DecidableEq, Repr

structure ValidationOptions where
  allowUnknownOps : Bool
  requireShapes : Bool
  requireDtypes : Bool
  checkCycles : Bool
  deriving DecidableEq, Repr

/-- `ValidationOptions{}`. -/
def ValidationOptions.default : ValidationOptions := ⟨false, true, true, true⟩

/-- `ValidationResult::ok`. -/
def issuesOk (issues : List ValidationIssue) : Bool := !issues.any (·.severity == .error)

def errorIssue (code message : String) (nodeId : NodeId) (tensorId : TensorId) : ValidationIssue :=
  ⟨.error, code, message, nodeId, tensorId⟩

def warningIssue (code message : String) (nodeId : NodeId) : ValidationIssue := ⟨.warning, code, message, nodeId, 0⟩

def issueIf (c : Prop) [Decidable c] (issue : ValidationIssue) : List ValidationIssue := if c then [issue] else []

def arityOk (count minV maxV : Int) : Bool := !(0 ≤ minV ∧ count < minV) && !(0 ≤ maxV ∧ maxV < count)

variable {R : Type}

/-! ## Tensors -/

/-- The tensor loop, with the ids and names it has inserted. -/
def tensorIssues (options : ValidationOptions) : List Tensor → List TensorId → List String → List ValidationIssue
  | [], _, _ => []
  | t :: ts, ids, names =>
    if t.id = 0 then errorIssue "tensor.id" "tensor id must be non-zero" 0 t.id :: tensorIssues options ts ids names
    else
      issueIf (t.id ∈ ids) (errorIssue "tensor.duplicate_id" ("duplicate tensor id " ++ Nat.repr t.id) 0 t.id) ++
      issueIf (t.name ≠ "" ∧ t.name ∈ names)
        (errorIssue "tensor.duplicate_name" ("duplicate tensor name '" ++ t.name ++ "'") 0 t.id) ++
      issueIf (options.requireDtypes ∧ t.dtype = .unknown)
        (errorIssue "tensor.dtype" ("tensor '" ++ t.name ++ "' has unknown dtype") 0 t.id) ++
      issueIf (options.requireShapes ∧ t.shape = [])
        (errorIssue "tensor.shape" ("tensor '" ++ t.name ++ "' has empty shape") 0 t.id) ++
      tensorIssues options ts (t.id :: ids) (if t.name = "" then names else t.name :: names)

/-- `tensor_ids`. -/
def tensorIds (g : Graph R) : List TensorId := (g.tensors.map (·.id)).filter (· ≠ 0)

def requireTensor (ids : List TensorId) (id : TensorId) (loc : String) (nodeId : NodeId) : List ValidationIssue :=
  issueIf (id ∉ ids) (errorIssue "tensor.missing" (loc ++ " references missing tensor id " ++ Nat.repr id) nodeId id)

def graphIoIssues (g : Graph R) : List ValidationIssue :=
  (g.inputs.flatMap fun id => requireTensor (tensorIds g) id "graph.inputs" 0) ++
  (g.outputs.flatMap fun id => requireTensor (tensorIds g) id "graph.outputs" 0) ++
  issueIf (g.outputs = []) (errorIssue "graph.outputs" "graph must declare at least one output" 0 0)

/-! ## Nodes -/

def schemaIssues (registry : OperatorRegistry) (options : ValidationOptions) (n : Node R) : List ValidationIssue :=
  match registry.findSchema n.opName n.opVersion with
  | none =>
    let message := "unknown operator " ++ n.opName ++ "@" ++ n.opVersion
    [if options.allowUnknownOps then warningIssue "op.unknown" message n.id else errorIssue "op.unknown" message n.id 0]
  | some schema =>
    issueIf (arityOk n.inputs.length schema.minInputs schema.maxInputs = false)
      (errorIssue "op.arity_inputs" ("operator " ++ n.opName ++ " input arity mismatch") n.id 0) ++
    issueIf (arityOk n.outputs.length schema.minOutputs schema.maxOutputs = false)
      (errorIssue "op.arity_outputs" ("operator " ++ n.opName ++ " output arity mismatch") n.id 0)

/-- A node's outputs, with the tensors that have a producer already. -/
def outputIssues (ids : List TensorId) (nodeId : NodeId) : List TensorId → List TensorId → List ValidationIssue
  | [], _ => []
  | id :: outs, produced =>
    requireTensor ids id "node.outputs" nodeId ++
    issueIf (id ∈ produced)
      (errorIssue "tensor.multi_producer" ("tensor id " ++ Nat.repr id ++ " produced by multiple nodes") nodeId id) ++
    outputIssues ids nodeId outs (id :: produced)

/-- The node loop, with the ids and produced tensors it has inserted. -/
def nodeIssues (registry : OperatorRegistry) (options : ValidationOptions) (ids : List TensorId) :
    List (Node R) → List NodeId → List TensorId → List ValidationIssue
  | [], _, _ => []
  | n :: ns, nodeIds, produced =>
    if n.id = 0 then
      errorIssue "node.id" "node id must be non-zero" n.id 0 :: nodeIssues registry options ids ns nodeIds produced
    else
      issueIf (n.id ∈ nodeIds) (errorIssue "node.duplicate_id" ("duplicate node id " ++ Nat.repr n.id) n.id 0) ++
      issueIf (n.opName = "") (errorIssue "node.op" "node missing op_name" n.id 0) ++
      schemaIssues registry options n ++
      (n.inputs.flatMap fun id => requireTensor ids id "node.inputs" n.id) ++
      outputIssues ids n.id n.outputs produced ++
      nodeIssues registry options ids ns (n.id :: nodeIds) (n.outputs.reverse ++ produced)

/-- `tensor_producer`: the first node to produce a tensor. -/
def tensorProducer (g : Graph R) (t : TensorId) : Option NodeId :=
  ((g.nodes.filter (·.id ≠ 0)).find? (t ∈ ·.outputs)).map (·.id)

def inputProducedIssues (g : Graph R) : List ValidationIssue :=
  g.inputs.flatMap fun id =>
    issueIf (tensorProducer g id ≠ none)
      (errorIssue "graph.input_produced" ("graph input tensor " ++ Nat.repr id ++ " is also produced by a node") 0 id)

/-! ## Cycles -/

/-- `adj`: an edge for every input another node produces. -/
def consumerEdges (g : Graph R) : List (NodeId × NodeId) :=
  g.nodes.flatMap fun n => n.inputs.flatMap fun t =>
    match tensorProducer g t with
    | some p => if p = n.id then [] else [(p, n.id)]
    | none => []

def cycleIssues (g : Graph R) : List ValidationIssue :=
  (g.nodes.flatMap fun n => n.inputs.flatMap fun t =>
    issueIf (tensorProducer g t = some n.id)
      (errorIssue "graph.self_cycle" ("node " ++ Nat.repr n.id ++ " consumes its own output") n.id 0)) ++
  issueIf ((Kahn.order (g.nodes.map (·.id)).dedup (consumerEdges g)).length ≠ g.nodes.length)
    (errorIssue "graph.cycle" "graph contains a cycle" 0 0)

/-! ## Shapes -/

def boolAttr (n : Node R) (key : String) : Bool :=
  n.attributes.foldl (fun b a => if a.key = key then (match a.value with | .bool x => x | _ => b) else b) false

def intAttr (n : Node R) (key : String) : Int :=
  n.attributes.foldl (fun i a => if a.key = key then (match a.value with | .int x => x | _ => i) else i) 0

def matmulIssues (g : Graph R) (n : Node R) : List ValidationIssue :=
  match n.inputs, n.outputs with
  | [ia, ib], [ic] =>
    match g.byId ia, g.byId ib, g.byId ic with
    | some a, some b, some c =>
      match a.shape, b.shape, c.shape with
      | [x, y], [z, w], [c0, c1] =>
        let ta := boolAttr n "transpose_a"
        let tb := boolAttr n "transpose_b"
        let a0 := if ta then y else x
        let a1 := if ta then x else y
        let b0 := if tb then w else z
        let b1 := if tb then z else w
        issueIf (a1 ≠ b0) (errorIssue "shape.matmul"
          ("MatMul inner dims mismatch: A" ++ toString x ++ "x" ++ toString y ++ (if ta then " transposed" else "") ++
            " B" ++ toString z ++ "x" ++ toString w ++ (if tb then " transposed" else "")) n.id 0) ++
        issueIf (c0 ≠ a0 ∨ c1 ≠ b1) (errorIssue "shape.matmul_out"
          ("MatMul output shape mismatch: expected " ++ toString a0 ++ "x" ++ toString b1 ++ " got " ++ toString c0 ++ "x" ++
            toString c1 ++ " (A=[" ++ toString x ++ "," ++ toString y ++ "]" ++ (if ta then " ta" else "") ++ " B=[" ++
            toString z ++ "," ++ toString w ++ "]" ++ (if tb then " tb" else "") ++ ")" ++ " node='" ++ n.name ++ "'") n.id 0)
      | _, _, _ => []
    | _, _, _ => []
  | _, _ => []

def attentionIssues (g : Graph R) (n : Node R) : List ValidationIssue :=
  let heads := intAttr n "num_heads"
  match n.inputs with
  | iq :: _ :: _ :: _ =>
    match g.byId iq with
    | some q =>
      match q.shape.getLast? with
      | some dim =>
        issueIf (0 < heads ∧ dim.tmod heads ≠ 0)
          (errorIssue "shape.attention_heads" "Attention dim not divisible by num_heads" n.id 0)
      | none => []
    | none => []
  | _ => []

def elementwiseIssues (g : Graph R) (n : Node R) : List ValidationIssue :=
  match n.inputs, n.outputs with
  | [ia, ib], [ic] =>
    match g.byId ia, g.byId ib, g.byId ic with
    | some a, some b, some c =>
      issueIf (a.shape = b.shape ∧ a.shape ≠ c.shape)
        (errorIssue "shape.elementwise" (n.opName ++ " output shape mismatch") n.id 0)
    | _, _, _ => []
  | _, _ => []

def shapeIssues (g : Graph R) (n : Node R) : List ValidationIssue :=
  if n.opName = "MatMul" ∨ n.opName = "MatMulRelu" then matmulIssues g n
  else if n.opName = "Attention" then attentionIssues g n
  else if n.opName = "Add" ∨ n.opName = "Mul" then elementwiseIssues g n
  else []

/-! ## The whole check -/

def versionIssues (g : Graph R) : List ValidationIssue :=
  match checkCompatible g.version with
  | .error (.error _ message) => [errorIssue "ir.version" message 0 0]
  | _ => []

def validateGraph (g : Graph R) (registry : OperatorRegistry) (options : ValidationOptions) : List ValidationIssue :=
  versionIssues g ++
  (if g.name = "" then [warningIssue "graph.name" "graph name is empty" 0] else []) ++
  tensorIssues options g.tensors [] [] ++
  graphIoIssues g ++
  nodeIssues registry options (tensorIds g) g.nodes [] [] ++
  inputProducedIssues g ++
  (if options.checkCycles ∧ g.nodes ≠ [] then cycleIssues g else []) ++
  (if options.requireShapes then g.nodes.flatMap (shapeIssues g) else [])

/-- No error under the default options. -/
def Accepted (registry : OperatorRegistry) (g : Graph R) : Prop :=
  issuesOk (validateGraph g registry .default) = true

instance (registry : OperatorRegistry) (g : Graph R) : Decidable (Accepted registry g) :=
  inferInstanceAs (Decidable (_ = _))

/-! ## What acceptance means -/

@[simp] theorem issuesOk_nil : issuesOk [] = true := rfl

@[simp] theorem issuesOk_append (a b : List ValidationIssue) : issuesOk (a ++ b) = (issuesOk a && issuesOk b) := by
  simp [issuesOk, List.any_append, Bool.not_or]

@[simp] theorem issuesOk_cons_error (code message : String) (n t : Nat) (rest : List ValidationIssue) :
    issuesOk (errorIssue code message n t :: rest) = false := by
  simp [issuesOk, errorIssue]

@[simp] theorem issuesOk_issueIf_error (c : Prop) [Decidable c] (code message : String) (n t : Nat) :
    issuesOk (issueIf c (errorIssue code message n t)) = true ↔ ¬ c := by
  unfold issueIf
  by_cases h : c <;> simp [h]

theorem issuesOk_flatMap {α : Type} (f : α → List ValidationIssue) (l : List α) :
    issuesOk (l.flatMap f) = true ↔ ∀ a ∈ l, issuesOk (f a) = true := by
  induction l with
  | nil => simp
  | cons a l ih => simp [List.flatMap_cons, ih]

theorem issuesOk_requireTensor (ids : List TensorId) (id : TensorId) (loc : String) (nodeId : NodeId) :
    issuesOk (requireTensor ids id loc nodeId) = true ↔ id ∈ ids := by
  rw [requireTensor, issuesOk_issueIf_error, not_not]

theorem tensorIssues_ok {options : ValidationOptions} : ∀ (ts : List Tensor) (ids : List TensorId) (names : List String),
    issuesOk (tensorIssues options ts ids names) = true →
      (∀ t ∈ ts, t.id ≠ 0 ∧ t.id ∉ ids) ∧ (ts.map (·.id)).Nodup := by
  intro ts
  induction ts with
  | nil => intro ids names _; simp
  | cons t ts ih =>
    intro ids names h
    unfold tensorIssues at h
    split at h
    · simp at h
    · next hid =>
      simp only [issuesOk_append, Bool.and_eq_true, issuesOk_issueIf_error] at h
      obtain ⟨⟨⟨⟨hfresh, -⟩, -⟩, -⟩, hrest⟩ := h
      obtain ⟨hids, hnd⟩ := ih _ _ hrest
      constructor
      · intro t' ht'
        rcases List.mem_cons.mp ht' with rfl | ht'
        · exact ⟨hid, hfresh⟩
        · exact ⟨(hids t' ht').1, fun h => (hids t' ht').2 (List.mem_cons_of_mem _ h)⟩
      · rw [List.map_cons, List.nodup_cons]
        refine ⟨fun hmem => ?_, hnd⟩
        obtain ⟨t', ht', heq⟩ := List.mem_map.mp hmem
        exact (hids t' ht').2 (by rw [heq]; exact List.mem_cons_self)

theorem tensorIssues_shapes {options : ValidationOptions} (hshapes : options.requireShapes = true) :
    ∀ (ts : List Tensor) (ids : List TensorId) (names : List String),
      issuesOk (tensorIssues options ts ids names) = true → ∀ t ∈ ts, t.shape ≠ [] := by
  intro ts
  induction ts with
  | nil => intro ids names _ t ht; cases ht
  | cons t ts ih =>
    intro ids names h t' ht'
    unfold tensorIssues at h
    split at h
    · simp at h
    · simp only [issuesOk_append, Bool.and_eq_true, issuesOk_issueIf_error] at h
      obtain ⟨⟨-, hshape⟩, hrest⟩ := h
      rcases List.mem_cons.mp ht' with rfl | ht'
      · exact fun hnil => hshape ⟨hshapes, hnil⟩
      · exact ih _ _ hrest t' ht'

theorem outputIssues_ok {ids : List TensorId} {nodeId : NodeId} : ∀ (outs produced : List TensorId),
    issuesOk (outputIssues ids nodeId outs produced) = true →
      (∀ t ∈ outs, t ∈ ids ∧ t ∉ produced) ∧ outs.Nodup := by
  intro outs
  induction outs with
  | nil => intro produced _; simp
  | cons t outs ih =>
    intro produced h
    unfold outputIssues at h
    simp only [issuesOk_append, Bool.and_eq_true, issuesOk_issueIf_error, issuesOk_requireTensor] at h
    obtain ⟨⟨hdecl, hfresh⟩, hrest⟩ := h
    obtain ⟨houts, hnd⟩ := ih _ hrest
    constructor
    · intro t' ht'
      rcases List.mem_cons.mp ht' with rfl | ht'
      · exact ⟨hdecl, hfresh⟩
      · exact ⟨(houts t' ht').1, fun h => (houts t' ht').2 (List.mem_cons_of_mem _ h)⟩
    · exact List.nodup_cons.mpr ⟨fun hmem => (houts t hmem).2 List.mem_cons_self, hnd⟩

/-- What the node loop has checked of the nodes it has left. -/
structure NodesOk (ids : List TensorId) (nodeIds : List NodeId) (produced : List TensorId) (ns : List (Node R)) :
    Prop where
  fresh : ∀ n ∈ ns, n.id ≠ 0 ∧ n.id ∉ nodeIds
  nodup : (ns.map (·.id)).Nodup
  declared : ∀ n ∈ ns, (∀ t ∈ n.inputs, t ∈ ids) ∧ ∀ t ∈ n.outputs, t ∈ ids
  unproduced : ∀ t ∈ ns.flatMap (·.outputs), t ∉ produced
  producers : (ns.flatMap (·.outputs)).Nodup

theorem nodeIssues_ok {registry : OperatorRegistry} {options : ValidationOptions} {ids : List TensorId} :
    ∀ (ns : List (Node R)) (nodeIds : List NodeId) (produced : List TensorId),
      issuesOk (nodeIssues registry options ids ns nodeIds produced) = true → NodesOk ids nodeIds produced ns := by
  intro ns
  induction ns with
  | nil => intro nodeIds produced _; exact ⟨by simp, by simp, by simp, by simp, by simp⟩
  | cons n ns ih =>
    intro nodeIds produced h
    unfold nodeIssues at h
    split at h
    · simp at h
    · next hid =>
      simp only [issuesOk_append, Bool.and_eq_true, issuesOk_issueIf_error, issuesOk_flatMap,
        issuesOk_requireTensor] at h
      obtain ⟨⟨⟨⟨⟨hfresh, -⟩, -⟩, hins⟩, houts⟩, hrest⟩ := h
      obtain ⟨houts, hnd⟩ := outputIssues_ok _ _ houts
      have hok := ih _ _ hrest
      refine ⟨?_, ?_, ?_, ?_, ?_⟩
      · intro m hm
        rcases List.mem_cons.mp hm with rfl | hm
        · exact ⟨hid, hfresh⟩
        · exact ⟨(hok.fresh m hm).1, fun h => (hok.fresh m hm).2 (List.mem_cons_of_mem _ h)⟩
      · rw [List.map_cons, List.nodup_cons]
        refine ⟨fun hmem => ?_, hok.nodup⟩
        obtain ⟨m, hm, heq⟩ := List.mem_map.mp hmem
        exact (hok.fresh m hm).2 (by rw [heq]; exact List.mem_cons_self)
      · intro m hm
        rcases List.mem_cons.mp hm with rfl | hm
        · exact ⟨hins, fun t ht => (houts t ht).1⟩
        · exact hok.declared m hm
      · intro t ht
        rw [List.flatMap_cons] at ht
        rcases List.mem_append.mp ht with ht | ht
        · exact (houts t ht).2
        · exact fun hp => hok.unproduced t ht (List.mem_append_right _ hp)
      · rw [List.flatMap_cons, List.nodup_append]
        refine ⟨hnd, hok.producers, fun a ha b hb hab => ?_⟩
        subst hab
        exact hok.unproduced a hb (List.mem_append_left _ (List.mem_reverse.mpr ha))

/-- An accepted graph. -/
structure Valid (g : Graph R) : Prop where
  tensor_ids : (g.tensors.map (·.id)).Nodup
  node_ids : (g.nodes.map (·.id)).Nodup
  node_id_ne : ∀ n ∈ g.nodes, n.id ≠ 0
  producers : (g.nodes.flatMap (·.outputs)).Nodup
  inputs_unproduced : ∀ t ∈ g.inputs, ∀ n ∈ g.nodes, t ∉ n.outputs
  inputs_declared : ∀ t ∈ g.inputs, t ∈ g.tensors.map (·.id)
  outputs_declared : ∀ t ∈ g.outputs, t ∈ g.tensors.map (·.id)
  nodes_declared : ∀ n ∈ g.nodes, (∀ t ∈ n.inputs, t ∈ g.tensors.map (·.id)) ∧
    ∀ t ∈ n.outputs, t ∈ g.tensors.map (·.id)
  outputs_ne : g.outputs ≠ []
  acyclic : ∃ rank : NodeId → Nat, ∀ m ∈ g.nodes, ∀ n ∈ g.nodes, ∀ t ∈ m.outputs, t ∈ n.inputs →
    rank m.id < rank n.id

/-- The producer found is the producer there is. -/
theorem tensorProducer_eq {g : Graph R} (hid : ∀ n ∈ g.nodes, n.id ≠ 0) (hprod : (g.nodes.flatMap (·.outputs)).Nodup)
    {n : Node R} (hn : n ∈ g.nodes) {t : TensorId} (ht : t ∈ n.outputs) : tensorProducer g t = some n.id := by
  have hfilter : g.nodes.filter (·.id ≠ 0) = g.nodes := List.filter_eq_self.mpr fun m hm => by simpa using hid m hm
  unfold tensorProducer
  rw [hfilter, Lists.find?_of_disjoint hprod hn ht]
  rfl

theorem tensorProducer_mem {g : Graph R} {t : TensorId} {p : NodeId} (h : tensorProducer g t = some p) :
    ∃ n ∈ g.nodes, n.id = p ∧ t ∈ n.outputs := by
  obtain ⟨n, hn, rfl⟩ := Option.map_eq_some_iff.mp h
  exact ⟨n, (List.mem_filter.mp (List.mem_of_find?_eq_some hn)).1, rfl, by simpa using List.find?_some hn⟩

theorem mem_consumerEdges {g : Graph R} {p q : NodeId} :
    (p, q) ∈ consumerEdges g ↔ ∃ n ∈ g.nodes, n.id = q ∧ p ≠ q ∧ ∃ t ∈ n.inputs, tensorProducer g t = some p := by
  simp only [consumerEdges, List.mem_flatMap]
  constructor
  · rintro ⟨n, hn, t, ht, hmem⟩
    split at hmem
    · next p' hp =>
      split at hmem
      · cases hmem
      · next hne =>
        obtain ⟨rfl, rfl⟩ : p = p' ∧ q = n.id := by simpa using hmem
        exact ⟨n, hn, rfl, hne, t, ht, hp⟩
    · cases hmem
  · rintro ⟨n, hn, rfl, hne, t, ht, hp⟩
    refine ⟨n, hn, t, ht, ?_⟩
    rw [hp]
    simp [hne]

/-- Kahn's count is the number of nodes, and no node reads its own output: acyclic. -/
theorem cycleIssues_ok {g : Graph R} (hid : ∀ n ∈ g.nodes, n.id ≠ 0) (hnd : (g.nodes.map (·.id)).Nodup)
    (hprod : (g.nodes.flatMap (·.outputs)).Nodup) (h : issuesOk (cycleIssues g) = true) :
    ∃ rank : NodeId → Nat, ∀ m ∈ g.nodes, ∀ n ∈ g.nodes, ∀ t ∈ m.outputs, t ∈ n.inputs → rank m.id < rank n.id := by
  simp only [cycleIssues, issuesOk_append, Bool.and_eq_true, issuesOk_flatMap, issuesOk_issueIf_error, not_not,
    hnd.dedup] at h
  obtain ⟨hself, hcount⟩ := h
  have hedge : ∀ e ∈ consumerEdges g, e.1 ∈ g.nodes.map (·.id) ∧ e.2 ∈ g.nodes.map (·.id) := by
    rintro ⟨p, q⟩ he
    obtain ⟨n, hn, rfl, -, t, -, hp⟩ := mem_consumerEdges.mp he
    obtain ⟨m, hm, rfl, -⟩ := tensorProducer_mem hp
    exact ⟨List.mem_map_of_mem hm, List.mem_map_of_mem hn⟩
  obtain ⟨rank, hrank⟩ := (Kahn.all_popped_iff hnd (fun e he => (hedge e he).2) (fun e he => (hedge e he).1)).mp
    (by rw [hcount, List.length_map])
  refine ⟨rank, fun m hm n hn t hout hin => hrank _ _ (mem_consumerEdges.mpr ⟨n, hn, rfl, ?_, t, hin, ?_⟩)⟩
  · intro heq
    exact hself n hn t hin (heq ▸ tensorProducer_eq hid hprod hm hout)
  · exact tensorProducer_eq hid hprod hm hout

theorem mem_tensorIds {g : Graph R} {t : TensorId} (h : t ∈ tensorIds g) : t ∈ g.tensors.map (·.id) :=
  (List.mem_filter.mp h).1

/-- Without errors, under options that look for cycles. -/
theorem valid_of_issuesOk {registry : OperatorRegistry} {options : ValidationOptions} {g : Graph R}
    (hcycles : options.checkCycles = true) (h : issuesOk (validateGraph g registry options) = true) : Valid g := by
  unfold validateGraph at h
  simp only [issuesOk_append, Bool.and_eq_true] at h
  obtain ⟨⟨⟨⟨⟨⟨-, htensors⟩, hio⟩, hnodes⟩, hinputs⟩, hcycle⟩, -⟩ := h
  have ht := tensorIssues_ok _ _ _ htensors
  have hn := nodeIssues_ok _ _ _ hnodes
  simp only [graphIoIssues, issuesOk_append, Bool.and_eq_true, issuesOk_flatMap, issuesOk_requireTensor,
    issuesOk_issueIf_error] at hio
  obtain ⟨⟨hin, hout⟩, hne⟩ := hio
  have hid : ∀ n ∈ g.nodes, n.id ≠ 0 := fun n h => (hn.fresh n h).1
  refine ⟨ht.2, hn.nodup, hid, hn.producers, ?_, fun t h => mem_tensorIds (hin t h), fun t h => mem_tensorIds (hout t h),
    fun n h => ⟨fun t ht => mem_tensorIds ((hn.declared n h).1 t ht), fun t ht => mem_tensorIds ((hn.declared n h).2 t ht)⟩,
    hne, ?_⟩
  · intro t htin n hnmem hout
    simp only [inputProducedIssues, issuesOk_flatMap, issuesOk_issueIf_error, not_not] at hinputs
    have hnone := hinputs t htin
    rw [tensorProducer_eq hid hn.producers hnmem hout] at hnone
    cases hnone
  · by_cases hempty : g.nodes = []
    · exact ⟨fun _ => 0, by simp [hempty]⟩
    · rw [if_pos ⟨hcycles, hempty⟩] at hcycle
      exact cycleIssues_ok hid hn.nodup hn.producers hcycle

theorem accepted_valid {registry : OperatorRegistry} {g : Graph R} (h : Accepted registry g) : Valid g :=
  valid_of_issuesOk rfl h

/-- Every tensor has a shape, of whatever dimensions. -/
theorem accepted_shape {registry : OperatorRegistry} {g : Graph R} (h : Accepted registry g) {t : Tensor} (ht : t ∈ g.tensors) :
    t.shape ≠ [] := by
  unfold Accepted validateGraph at h
  simp only [issuesOk_append, Bool.and_eq_true] at h
  obtain ⟨⟨⟨⟨⟨⟨-, htensors⟩, -⟩, -⟩, -⟩, -⟩, -⟩ := h
  exact tensorIssues_shapes rfl _ _ _ htensors t ht

end Uaii.Ir
