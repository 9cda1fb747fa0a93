/-
  Uaii.Ir.Building — programs that build a graph with a `GraphBuilder` and may fail, and
  what is known of the graph they build.

  A tensor can be read once it is a graph input or a weight or a node has produced it
  (`Ready`); a tensor that waits for its producer is `Pending`. `Grows` is what a program
  may do: it keeps what is ready, produces pending tensors, each once, and appends to the
  marks, which are the attention layers and the reads of id 0, in the order of the nodes.

  Proved: what the builder's calls do (`tensor_grows`, `weight_grows`, `node_grows`), and
  that a finished graph has its ids, producers and order right up to reads of id 0
  (`Wired.wellBuilt`).
-/

import Uaii.Ir.Semantics

namespace Uaii.Ir

open Uaii.Quant

variable {R α β : Type}

abbrev Build (R α : Type) := StateT (GraphBuilder R) (Except Fault) α

namespace Build

/-- `b.add_tensor(name, DType::F32, shape)`. -/
def tensor (name : String) (shape : List Int) : Build R TensorId := fun b => .ok (b.addTensor name .f32 shape .unspecified)

def weight (name : String) (dtype : DType) (shape : List Int) (weightRef : String) (quantFormat : QuantFormat) :
    Build R TensorId := fun b => .ok (b.addWeight name dtype shape weightRef quantFormat)

/-- `b.add_node(name, op, "1", inputs, outputs, attributes)`. -/
def node (name opName : String) (inputs outputs : List TensorId) (attributes : List (Attribute R)) : Build R Unit := fun b =>
  .ok ((), (b.addNode name opName "1" inputs outputs attributes).2)

/-- A tensor, and the node that produces it. -/
def emit (name : String) (shape : List Int) (nodeName opName : String) (inputs : List TensorId)
    (attributes : List (Attribute R)) : Build R TensorId := do
  let t ← tensor name shape
  node nodeName opName inputs [t] attributes
  pure t

def setMetadata (key value : String) : Build R Unit := fun b => .ok ((), b.setMetadata key value)

def addMetadata : List (String × String) → Build R Unit
  | [] => pure ()
  | m :: ms => do
    setMetadata m.1 m.2
    addMetadata ms

/-- `b.set_inputs(inputs).set_outputs(outputs)`. -/
def io (inputs outputs : List TensorId) : Build R Unit := fun b => .ok ((), (b.setInputs inputs).setOutputs outputs)

def error (code : ErrorCode) (message : String) : Build R α := fun _ => fail code message

/-- `if (c) return Error::make(code, message);` -/
def refuseIf (c : Prop) [Decidable c] (code : ErrorCode) (message : String) : Build R Unit :=
  if c then error code message else pure ()

/-- What may fail without the builder. -/
def attempt (r : Result α) : Build R α := fun b => r.map fun x => (x, b)

end Build

/-! ## What is known of a graph that is being built -/

inductive Mark where
  /-- An Attention node's `layer_id`. -/
  | attention (layer : Option Int)
  | readsZero
  deriving DecidableEq, Repr

def layerId (attributes : List (Attribute R)) : Option Int :=
  (attributes.find? (·.key == "layer_id")).bind fun a => match a.value with | .int i => some i | _ => none

def marksOf (opName : String) (inputs : List TensorId) (attributes : List (Attribute R)) : List Mark :=
  (if opName = "Attention" then [.attention (layerId attributes)] else []) ++ if 0 ∈ inputs then [.readsZero] else []

def Graph.marks (g : Graph R) : List Mark := g.nodes.flatMap fun n => marksOf n.opName n.inputs n.attributes

def Graph.layersEntry (g : Graph R) : Option (String × String) := g.metadata.find? (·.1 == "n_layers")

variable {ins : List TensorId} {b b' b'' : GraphBuilder R} {t : TensorId}

/-- With `ins` as the graph's inputs the tensor can be read. -/
def Ready (ins : List TensorId) (b : GraphBuilder R) (t : TensorId) : Prop :=
  t ∈ ins ∨ b.graph.IsWeight t ∨ b.graph.Produced t

/-- Ready, or the id of an optional tensor that is not there. -/
def Optional (ins : List TensorId) (b : GraphBuilder R) (t : TensorId) : Prop := t = 0 ∨ Ready ins b t

/-- Declared, and not produced yet. -/
def Pending (b : GraphBuilder R) (t : TensorId) : Prop := (0 : Nat) < t ∧ (t : Nat) < b.nextTensorId ∧ ¬ b.graph.Produced t

structure Wired (ins : List TensorId) (b : GraphBuilder R) : Prop where
  tensorIds : ∀ t ∈ b.graph.tensors, (0 : Nat) < t.id ∧ (t.id : Nat) < b.nextTensorId
  tensorsNodup : (b.graph.tensors.map (·.id)).Nodup
  nodeIds : ∀ n ∈ b.graph.nodes, n.id < b.nextNodeId
  nodesNodup : (b.graph.nodes.map (·.id)).Nodup
  outputIds : ∀ o, b.graph.Produced o → (0 : Nat) < o ∧ (o : Nat) < b.nextTensorId
  producers : (b.graph.nodes.flatMap (·.outputs)).Nodup
  inputIds : ∀ t ∈ ins, (0 : Nat) < t ∧ (t : Nat) < b.nextTensorId
  reads : ∀ pre n post, b.graph.nodes = pre ++ n :: post → ∀ x ∈ n.inputs,
    x = 0 ∨ x ∈ ins ∨ b.graph.IsWeight x ∨ ∃ m ∈ pre, x ∈ m.outputs
  next : (0 : Nat) < b.nextTensorId

/-- What a program does that produces `outs` of what was pending. -/
structure Grows (ins : List TensorId) (b b' : GraphBuilder R) (outs : List TensorId) (marks : List Mark) : Prop where
  wired : Wired ins b'
  ready : ∀ t, Ready ins b t → Ready ins b' t
  pending : ∀ t, Pending b t → t ∉ outs → Pending b' t
  next : (b.nextTensorId : Nat) ≤ b'.nextTensorId
  marks : b'.graph.marks = b.graph.marks ++ marks
  layersEntry : b'.graph.layersEntry = b.graph.layersEntry

namespace Grows

variable {outs outs' : List TensorId} {ms ms' : List Mark}

theorem refl (h : Wired ins b) : Grows ins b b [] [] :=
  ⟨h, fun _ ht => ht, fun _ ht _ => ht, Nat.le_refl _, (List.append_nil _).symm, rfl⟩

theorem trans (h : Grows ins b b' outs ms) (h' : Grows ins b' b'' outs' ms') : Grows ins b b'' (outs ++ outs') (ms ++ ms') := by
  refine ⟨h'.wired, fun t ht => h'.ready t (h.ready t ht), fun t ht hno => ?_, h.next.trans h'.next, ?_,
    h'.layersEntry.trans h.layersEntry⟩
  · rw [List.mem_append, not_or] at hno
    exact h'.pending t (h.pending t ht hno.1) hno.2
  · rw [h'.marks, h.marks, List.append_assoc]

/-- Outputs that were not there before need not be named. -/
theorem forget (h : Grows ins b b' outs ms) (hnew : ∀ t ∈ outs, t ∈ outs' ∨ (b.nextTensorId : Nat) ≤ t) : Grows ins b b' outs' ms := by
  refine ⟨h.wired, h.ready, fun t ht hno => h.pending t ht fun hmem => ?_, h.next, h.marks, h.layersEntry⟩
  rcases hnew t hmem with hold | hle
  · exact hno hold
  · exact absurd ht.2.1 (Nat.not_lt.mpr hle)

theorem optional (h : Grows ins b b' outs ms) (ht : Optional ins b t) : Optional ins b' t := ht.imp_right (h.ready t)

end Grows

theorem Ready.ne_zero (hw : Wired ins b) (h : Ready ins b t) : t ≠ 0 := by
  rintro rfl
  rcases h with h | ⟨w, hmem, hid, -⟩ | h
  · exact absurd (hw.inputIds 0 h).1 (Nat.lt_irrefl 0)
  · have hpos := (hw.tensorIds w hmem).1
    rw [hid] at hpos
    exact absurd hpos (Nat.lt_irrefl 0)
  · exact absurd (hw.outputIds 0 h).1 (Nat.lt_irrefl 0)

theorem Wired.withMetadata (hw : Wired ins b) (entries : List (String × String)) :
    Wired ins ⟨{ b.graph with metadata := entries }, b.nextTensorId, b.nextNodeId⟩ :=
  ⟨hw.tensorIds, hw.tensorsNodup, hw.nodeIds, hw.nodesNodup, hw.outputIds, hw.producers, hw.inputIds, hw.reads, hw.next⟩

/-! ## The builder's calls -/

/-- The builder with one more tensor. -/
def GraphBuilder.declare (b : GraphBuilder R) (u : Tensor) : GraphBuilder R :=
  { b with graph := { b.graph with tensors := b.graph.tensors ++ [u] }, nextTensorId := b.nextTensorId + 1 }

theorem declare_grows (hw : Wired ins b) {u : Tensor} (hu : u.id = b.nextTensorId) : Grows ins b (b.declare u) [] [] := by
  have hweight : ∀ x, b.graph.IsWeight x → (b.declare u).graph.IsWeight x := by
    intro x ⟨w, hmem, hx⟩
    exact ⟨w, List.mem_append_left _ hmem, hx⟩
  refine ⟨⟨?_, ?_, hw.nodeIds, hw.nodesNodup, fun o ho => ?_, hw.producers, fun x hx => ?_, fun pre n post he x hx => ?_, ?_⟩,
    fun x hx => ?_, fun x hx _ => ⟨hx.1, Nat.lt_succ_of_lt hx.2.1, hx.2.2⟩, Nat.le_succ _, (List.append_nil _).symm, rfl⟩
  · intro x hx
    rcases List.mem_append.mp hx with hx | hx
    · exact ⟨(hw.tensorIds x hx).1, Nat.lt_succ_of_lt (hw.tensorIds x hx).2⟩
    · rw [List.mem_singleton.mp hx, hu]
      exact ⟨hw.next, Nat.lt_succ_self _⟩
  · show ((b.graph.tensors ++ [u]).map (·.id)).Nodup
    rw [List.map_append, List.nodup_append]
    refine ⟨hw.tensorsNodup, List.nodup_singleton _, ?_⟩
    intro x hx y hy hxy
    obtain ⟨t, ht, rfl⟩ := List.mem_map.mp hx
    rw [List.map_singleton, List.mem_singleton, hu] at hy
    have hlt := (hw.tensorIds t ht).2
    rw [hxy, hy] at hlt
    exact absurd hlt (Nat.lt_irrefl _)
  · exact ⟨(hw.outputIds o ho).1, Nat.lt_succ_of_lt (hw.outputIds o ho).2⟩
  · exact ⟨(hw.inputIds x hx).1, Nat.lt_succ_of_lt (hw.inputIds x hx).2⟩
  · rcases hw.reads pre n post he x hx with h0 | hin | hweigh | hprod
    · exact .inl h0
    · exact .inr (.inl hin)
    · exact .inr (.inr (.inl (hweight x hweigh)))
    · exact .inr (.inr (.inr hprod))
  · exact Nat.succ_pos _
  · rcases hx with hin | hweigh | hprod
    · exact .inl hin
    · exact .inr (.inl (hweight x hweigh))
    · exact .inr (.inr hprod)

namespace Build

section Calls

variable {u : Unit}

/-- A program that succeeded, step by step. -/
theorem step_ok {p : Build R α} {f : α → Build R β} {y : β} (h : (p >>= f).run b = .ok (y, b')) :
    ∃ x b₁, p.run b = .ok (x, b₁) ∧ (f x).run b₁ = .ok (y, b') := by
  rw [StateT.run_bind] at h
  obtain ⟨x, hx, h⟩ := bind_ok h
  exact ⟨x.1, x.2, hx, h⟩

theorem refuseIf_ok {c : Prop} [Decidable c] {code : ErrorCode} {message : String}
    (h : (refuseIf c code message).run b = .ok (u, b')) : ¬ c ∧ b = b' := by
  unfold refuseIf at h
  split at h
  · cases h
  · next hc => exact ⟨hc, (Prod.mk.inj (Except.ok.inj h)).2⟩

theorem attempt_ok {r : Result α} {x : α} (h : (attempt r).run b = .ok (x, b')) : r = .ok x ∧ b = b' := by
  cases r with
  | error e => cases h
  | ok y =>
    obtain ⟨rfl, rfl⟩ := Prod.mk.inj (Except.ok.inj h)
    exact ⟨rfl, rfl⟩

theorem pure_ok {x y : α} (h : (pure x : Build R α).run b = .ok (y, b')) : x = y ∧ b = b' := by
  obtain ⟨rfl, rfl⟩ := Prod.mk.inj (Except.ok.inj h)
  exact ⟨rfl, rfl⟩

theorem tensor_grows {name : String} {shape : List Int} (h : (tensor name shape).run b = .ok (t, b')) (hw : Wired ins b) :
    Grows ins b b' [] [] ∧ Pending b' t ∧ (b.nextTensorId : Nat) ≤ t := by
  obtain ⟨rfl, rfl⟩ := Prod.mk.inj (Except.ok.inj h)
  refine ⟨declare_grows hw rfl, ⟨hw.next, Nat.lt_succ_self _, fun hprod => ?_⟩, Nat.le_refl _⟩
  exact absurd (hw.outputIds _ hprod).2 (Nat.lt_irrefl _)

theorem weight_grows {name : String} {dtype : DType} {shape : List Int} {ref : String} {f : QuantFormat}
    (h : (weight name dtype shape ref f).run b = .ok (t, b')) (hw : Wired ins b) : Grows ins b b' [] [] ∧ Ready ins b' t ∧ t ≠ 0 := by
  obtain ⟨rfl, rfl⟩ := Prod.mk.inj (Except.ok.inj h)
  refine ⟨declare_grows hw rfl, .inr (.inl ⟨_, List.mem_append_right _ (List.mem_singleton_self _), rfl, rfl⟩), ?_⟩
  exact Nat.pos_iff_ne_zero.mp hw.next

theorem node_grows {name opName : String} {inputs outputs : List TensorId} {attributes : List (Attribute R)}
    (h : (node name opName inputs outputs attributes).run b = .ok (u, b')) (hw : Wired ins b)
    (hin : ∀ x ∈ inputs, Optional ins b x) (hout : ∀ y ∈ outputs, Pending b y) (hnd : outputs.Nodup) :
    Grows ins b b' outputs (marksOf opName inputs attributes) ∧ ∀ y ∈ outputs, Ready ins b' y := by
  obtain ⟨-, rfl⟩ := Prod.mk.inj (Except.ok.inj h)
  have hnodes : (b.addNode name opName "1" inputs outputs attributes).2.graph.nodes =
      b.graph.nodes ++ [⟨b.nextNodeId, name, opName, "1", inputs, outputs, attributes⟩] := rfl
  have hprod : ∀ x, (b.addNode name opName "1" inputs outputs attributes).2.graph.Produced x ↔
      b.graph.Produced x ∨ x ∈ outputs := by
    intro x
    simp only [Graph.Produced, hnodes, List.mem_append, List.mem_singleton]
    constructor
    · intro ⟨n, hn, hx⟩
      rcases hn with hn | rfl
      · exact .inl ⟨n, hn, hx⟩
      · exact .inr hx
    · intro hx
      rcases hx with ⟨n, hn, hx⟩ | hx
      · exact ⟨n, .inl hn, hx⟩
      · exact ⟨_, .inr rfl, hx⟩
  refine ⟨⟨⟨hw.tensorIds, hw.tensorsNodup, ?_, ?_, fun o ho => ?_, ?_, hw.inputIds, ?_, hw.next⟩, fun x hx => ?_,
    fun x hx hno => ⟨hx.1, hx.2.1, fun hp => ?_⟩, Nat.le_refl _, ?_, rfl⟩, fun y hy => .inr (.inr ((hprod y).mpr (.inr hy)))⟩
  · intro n hn
    show n.id < b.nextNodeId + 1
    rw [hnodes, List.mem_append, List.mem_singleton] at hn
    rcases hn with hn | rfl
    · exact Nat.lt_succ_of_lt (hw.nodeIds n hn)
    · exact Nat.lt_succ_self _
  · rw [hnodes, List.map_append, List.nodup_append]
    refine ⟨hw.nodesNodup, List.nodup_singleton _, ?_⟩
    intro x hx y hy hxy
    obtain ⟨n, hn, rfl⟩ := List.mem_map.mp hx
    rw [List.map_singleton, List.mem_singleton] at hy
    have hlt := hw.nodeIds n hn
    rw [hxy, hy] at hlt
    exact absurd hlt (Nat.lt_irrefl _)
  · rcases (hprod o).mp ho with ho | ho
    · exact hw.outputIds o ho
    · exact ⟨(hout o ho).1, (hout o ho).2.1⟩
  · rw [hnodes, List.flatMap_append, List.flatMap_singleton, List.nodup_append]
    refine ⟨hw.producers, hnd, ?_⟩
    intro x hx y hy hxy
    obtain ⟨n, hn, hxn⟩ := List.mem_flatMap.mp hx
    exact (hout y hy).2.2 ⟨n, hn, hxy ▸ hxn⟩
  · intro pre n post he x hx
    rw [hnodes] at he
    rcases List.eq_nil_or_concat post with rfl | ⟨post, last, rfl⟩
    · obtain ⟨rfl, hn⟩ := List.append_inj' he rfl
      obtain rfl := (List.cons.inj hn).1
      rcases hin x hx with h0 | hready | hready | ⟨m, hm, hxm⟩
      · exact .inl h0
      · exact .inr (.inl hready)
      · exact .inr (.inr (.inl hready))
      · exact .inr (.inr (.inr ⟨m, hm, hxm⟩))
    · rw [List.concat_eq_append, ← List.cons_append, ← List.append_assoc] at he
      exact hw.reads pre n post (List.append_inj' he rfl).1 x hx
  · rcases hx with hx | hx | hx
    · exact .inl hx
    · exact .inr (.inl hx)
    · exact .inr (.inr ((hprod x).mpr (.inl hx)))
  · rcases (hprod x).mp hp with hp | hp
    · exact hx.2.2 hp
    · exact hno hp
  · rw [Graph.marks, hnodes, List.flatMap_append, List.flatMap_singleton]
    rfl

theorem emit_grows {name nodeName opName : String} {shape : List Int} {inputs : List TensorId} {attributes : List (Attribute R)}
    (h : (emit name shape nodeName opName inputs attributes).run b = .ok (t, b')) (hw : Wired ins b)
    (hin : ∀ x ∈ inputs, Optional ins b x) : Grows ins b b' [] (marksOf opName inputs attributes) ∧ Ready ins b' t := by
  obtain ⟨y, b₁, hy, h⟩ := step_ok h
  obtain ⟨u, b₂, hn, h⟩ := step_ok h
  obtain ⟨rfl, rfl⟩ := Prod.mk.inj (Except.ok.inj h)
  obtain ⟨g₁, hpending, hnew⟩ := tensor_grows hy hw
  obtain ⟨g₂, hready⟩ := node_grows hn g₁.wired (fun x hx => g₁.optional (hin x hx)) (by simpa using hpending)
    (List.nodup_singleton _)
  refine ⟨(g₁.trans g₂).forget fun z hz => .inr ?_, hready _ (List.mem_singleton_self _)⟩
  rw [List.nil_append, List.mem_singleton] at hz
  rwa [hz]

theorem node_produced {name opName : String} {inputs outputs : List TensorId} {attributes : List (Attribute R)}
    (h : (node name opName inputs outputs attributes).run b = .ok (u, b')) {y : TensorId} (hy : y ∈ outputs) :
    b'.graph.Produced y := by
  obtain ⟨-, rfl⟩ := Prod.mk.inj (Except.ok.inj h)
  exact ⟨_, List.mem_append_right _ (List.mem_singleton_self _), hy⟩

theorem emit_produced {name nodeName opName : String} {shape : List Int} {inputs : List TensorId}
    {attributes : List (Attribute R)} (h : (emit name shape nodeName opName inputs attributes).run b = .ok (t, b')) :
    b'.graph.Produced t := by
  obtain ⟨y, b₁, -, h⟩ := step_ok h
  obtain ⟨_, b₂, hn, h⟩ := step_ok h
  obtain ⟨rfl, rfl⟩ := Prod.mk.inj (Except.ok.inj h)
  exact node_produced hn (List.mem_singleton_self _)

theorem io_grows {inputs outputs : List TensorId} (h : (io inputs outputs).run b = .ok (u, b')) (hw : Wired ins b) :
    Grows ins b b' [] [] := by
  obtain ⟨-, rfl⟩ := Prod.mk.inj (Except.ok.inj h)
  have hw' : Wired ins ((b.setInputs inputs).setOutputs outputs) :=
    ⟨hw.tensorIds, hw.tensorsNodup, hw.nodeIds, hw.nodesNodup, hw.outputIds, hw.producers, hw.inputIds, hw.reads, hw.next⟩
  exact ⟨hw', fun _ hx => hx, fun _ hx _ => hx, Nat.le_refl _, (List.append_nil _).symm, rfl⟩

theorem setMetadata_find (b : GraphBuilder R) (key value k : String) :
    (b.setMetadata key value).graph.metadata.find? (·.1 == k) =
      if key = k then some (key, value) else b.graph.metadata.find? (·.1 == k) := by
  show (b.graph.metadata.filter (·.1 != key) ++ [(key, value)]).find? (·.1 == k) = _
  rw [List.find?_append, List.find?_filter]
  by_cases hk : key = k
  · subst hk
    have hnone : b.graph.metadata.find? (fun m => decide ((m.1 != key) = true ∧ (m.1 == key) = true)) = none := by
      rw [List.find?_eq_none]
      intro m _
      simp
    rw [hnone]
    simp
  · have heq : (fun m : String × String => decide ((m.1 != key) = true ∧ (m.1 == k) = true)) = (·.1 == k) := by
      funext m
      by_cases hm : m.1 = k
      · simp [hm, Ne.symm hk]
      · simp [hm]
    rw [heq]
    simp [hk]

/-- All but the metadata of what `addMetadata` finds is left as it is. -/
theorem addMetadata_run : ∀ {l : List (String × String)} {b : GraphBuilder R}, (addMetadata l).run b = .ok (u, b') →
    b'.nextTensorId = b.nextTensorId ∧ b'.nextNodeId = b.nextNodeId ∧
      b'.graph = { b.graph with metadata := b'.graph.metadata } ∧
      b'.graph.layersEntry = (l.reverse.find? (·.1 == "n_layers")).or b.graph.layersEntry
  | [], b, h => by
    obtain ⟨-, rfl⟩ := Prod.mk.inj (Except.ok.inj h)
    exact ⟨rfl, rfl, rfl, by simp⟩
  | (key, value) :: l, b, h => by
    obtain ⟨_, b₁, h₁, h⟩ := step_ok h
    obtain ⟨-, rfl⟩ := Prod.mk.inj (Except.ok.inj h₁)
    obtain ⟨hnext, hnode, hgraph, hlayers⟩ := addMetadata_run h
    refine ⟨hnext, hnode, hgraph, ?_⟩
    rw [hlayers, List.reverse_cons, List.find?_append, Option.or_assoc, Graph.layersEntry, setMetadata_find]
    by_cases hkey : key = "n_layers" <;> simp [hkey, Graph.layersEntry]

end Calls

end Build

theorem Wired.init (name producer : String) : Wired (R := R) [] ((GraphBuilder.init name).setProducer producer) where
  tensorIds := by simp [GraphBuilder.init, GraphBuilder.setProducer]
  tensorsNodup := .nil
  nodeIds := by simp [GraphBuilder.init, GraphBuilder.setProducer]
  nodesNodup := .nil
  outputIds := by simp [Graph.Produced, GraphBuilder.init, GraphBuilder.setProducer]
  producers := .nil
  inputIds := by simp
  reads := by simp [GraphBuilder.init, GraphBuilder.setProducer]
  next := Nat.one_pos

/-- Entries that do not count the layers. -/
theorem addMetadata_grows {l : List (String × String)} {u : Unit} (h : (Build.addMetadata l).run b = .ok (u, b')) (hw : Wired ins b)
    (hno : ∀ e ∈ l, e.1 ≠ "n_layers") : Grows ins b b' [] [] := by
  obtain ⟨hnext, hnode, hgraph, hlayers⟩ := Build.addMetadata_run h
  have hnone : l.reverse.find? (·.1 == "n_layers") = none := by simpa using hno
  rw [hnone, Option.none_or] at hlayers
  obtain ⟨graph, next, nextNode⟩ := b'
  simp only at hnext hnode hgraph hlayers
  subst hnext hnode
  rw [hgraph] at hlayers ⊢
  exact ⟨hw.withMetadata _, fun _ ht => ht, fun _ ht _ => ht, Nat.le_refl _, (List.append_nil _).symm, hlayers⟩

/-- A loader names its graph and the first entries of the metadata. -/
theorem addMetadata_start {name producer : String} {l : List (String × String)} {u : Unit}
    (h : (Build.addMetadata l).run ((GraphBuilder.init (R := R) name).setProducer producer) = .ok (u, b)) :
    Wired [] b ∧ b.graph.nodes = [] ∧ b.graph.layersEntry = l.reverse.find? (·.1 == "n_layers") := by
  obtain ⟨hnext, hnode, hgraph, hlayers⟩ := Build.addMetadata_run h
  obtain ⟨graph, next, nextNode⟩ := b
  simp only at hnext hnode hgraph hlayers
  subst hnext hnode
  rw [hgraph] at hlayers ⊢
  refine ⟨(Wired.init name producer).withMetadata _, rfl, hlayers.trans ?_⟩
  exact Option.or_none

theorem Wired.addInput (hw : Wired ins b) (ht : Pending b t) : Wired (t :: ins) b where
  tensorIds := hw.tensorIds
  tensorsNodup := hw.tensorsNodup
  nodeIds := hw.nodeIds
  nodesNodup := hw.nodesNodup
  outputIds := hw.outputIds
  producers := hw.producers
  inputIds := List.forall_mem_cons.mpr ⟨⟨ht.1, ht.2.1⟩, hw.inputIds⟩
  reads := by
    intro pre n post he x hx
    rcases hw.reads pre n post he x hx with h0 | hin | hready
    · exact .inl h0
    · exact .inr (.inl (List.mem_cons_of_mem _ hin))
    · exact .inr (.inr hready)
  next := hw.next

/-! ## Building step by step -/

theorem marksOf_quiet {opName : String} {inputs : List TensorId} {attributes : List (Attribute R)} (hop : opName ≠ "Attention")
    (hin : 0 ∉ inputs) : marksOf opName inputs attributes = [] := by
  simp [marksOf, hop, hin]

/-- An optional tensor, if it is there. -/
def present (t : TensorId) : List TensorId := if t = 0 then [] else [t]

@[simp] theorem mem_present {x t : TensorId} : x ∈ present t ↔ x = t ∧ t ≠ 0 := by
  unfold present
  by_cases h : t = 0 <;> simp [h]

/-- A program that started from `b₀` is at `b`: `known` can be read, and of the tensors it has
    declared `waiting` have no producer yet. -/
structure Progress (ins : List TensorId) (b₀ b : GraphBuilder R) (known waiting : List TensorId) (marks : List Mark) : Prop where
  grows : Grows ins b₀ b [] marks
  ready : ∀ x ∈ known, Ready ins b x
  pending : ∀ y ∈ waiting, Pending b y ∧ (b₀.nextTensorId : Nat) ≤ y
  nodup : waiting.Nodup

namespace Progress

open Build

variable {b₀ : GraphBuilder R} {known waiting inputs : List TensorId} {ms ms' : List Mark} {u : Unit} {y : TensorId}
  {name opName : String} {attributes : List (Attribute R)}

theorem start (hw : Wired ins b) (hknown : ∀ x ∈ known, Ready ins b x) : Progress ins b b known [] [] :=
  ⟨.refl hw, hknown, by simp, .nil⟩

theorem wired (p : Progress ins b₀ b known waiting ms) : Wired ins b := p.grows.wired

theorem zero_notMem (p : Progress ins b₀ b known waiting ms) (hin : ∀ x ∈ inputs, x ∈ known) : 0 ∉ inputs := fun h0 =>
  (p.ready 0 (hin 0 h0)).ne_zero p.wired rfl

theorem weaken (p : Progress ins b₀ b known waiting ms) {known' : List TensorId} (h : ∀ x ∈ known', x ∈ known) :
    Progress ins b₀ b known' waiting ms := ⟨p.grows, fun x hx => p.ready x (h x hx), p.pending, p.nodup⟩

/-- A tensor that is never produced. -/
theorem abandon (p : Progress ins b₀ b known (y :: waiting) ms) : Progress ins b₀ b known waiting ms :=
  ⟨p.grows, p.ready, (List.forall_mem_cons.mp p.pending).2, (List.nodup_cons.mp p.nodup).2⟩

/-- The graph's input is declared first. -/
theorem begin (hw : Wired [] b) {shape : List Int} (h : (Build.tensor name shape).run b = .ok (t, b')) :
    Progress [t] b' b' [t] [] [] := by
  obtain ⟨g, hpending, -⟩ := tensor_grows h hw
  exact start (g.wired.addInput hpending) fun x hx => .inl hx

/-- A part that produces what it declares itself. -/
theorem call (p : Progress ins b₀ b known waiting ms) (g : Grows ins b b' [] ms') :
    Progress ins b₀ b' known waiting (ms ++ ms') := by
  refine ⟨p.grows.trans g, fun x hx => g.ready x (p.ready x hx), fun z hz => ?_, p.nodup⟩
  exact ⟨g.pending z (p.pending z hz).1 (List.not_mem_nil), (p.pending z hz).2⟩

theorem learn (p : Progress ins b₀ b known waiting ms) (h : Ready ins b t) : Progress ins b₀ b (t :: known) waiting ms :=
  ⟨p.grows, List.forall_mem_cons.mpr ⟨h, p.ready⟩, p.pending, p.nodup⟩

/-- A part that looks for an optional tensor. -/
theorem fetch (p : Progress ins b₀ b known waiting ms) (g : Grows ins b b' [] []) (h : Optional ins b' t) :
    Progress ins b₀ b' (present t ++ known) waiting ms := by
  have hcall := p.call g
  rw [List.append_nil] at hcall
  refine ⟨hcall.grows, fun x hx => ?_, hcall.pending, hcall.nodup⟩
  rcases List.mem_append.mp hx with hx | hx
  · obtain ⟨rfl, hne⟩ := mem_present.mp hx
    exact h.resolve_left hne
  · exact hcall.ready x hx

/-- A part that produces a tensor that waits for it. -/
theorem fillBy (before after : List TensorId) (p : Progress ins b₀ b known (before ++ y :: after) ms)
    (h : Grows ins b b' [y] ms' ∧ Ready ins b' y) : Progress ins b₀ b' (y :: known) (before ++ after) (ms ++ ms') := by
  obtain ⟨g, hready⟩ := h
  have hnd := List.nodup_middle.mp p.nodup
  have hsub : ∀ z ∈ before ++ after, z ∈ before ++ y :: after := by
    intro z hz
    rw [List.mem_append] at hz
    rw [List.mem_append, List.mem_cons]
    exact hz.imp_right .inr
  refine ⟨(p.grows.trans g).forget fun z hz => .inr ?_, ?_, fun z hz => ?_, (List.nodup_cons.mp hnd).2⟩
  · rw [List.nil_append, List.mem_singleton] at hz
    rw [hz]
    exact (p.pending y (by simp)).2
  · exact List.forall_mem_cons.mpr ⟨hready, fun x hx => g.ready x (p.ready x hx)⟩
  · have hne : z ∉ [y] := by
      rw [List.mem_singleton]
      intro he
      rw [he] at hz
      exact (List.nodup_cons.mp hnd).1 hz
    exact ⟨g.pending z (p.pending z (hsub z hz)).1 hne, (p.pending z (hsub z hz)).2⟩

theorem tensor (p : Progress ins b₀ b known waiting ms) {shape : List Int} (h : (Build.tensor name shape).run b = .ok (t, b')) :
    Progress ins b₀ b' known (t :: waiting) ms := by
  obtain ⟨g, hpending, hnew⟩ := tensor_grows h p.wired
  have hcall := p.call g
  rw [List.append_nil] at hcall
  refine ⟨hcall.grows, hcall.ready, List.forall_mem_cons.mpr ⟨⟨hpending, p.grows.next.trans hnew⟩, hcall.pending⟩, ?_⟩
  refine List.nodup_cons.mpr ⟨fun hmem => ?_, p.nodup⟩
  exact absurd (p.pending t hmem).1.2.1 (Nat.not_lt.mpr hnew)

theorem weight (p : Progress ins b₀ b known waiting ms) {dtype : DType} {shape : List Int} {ref : String} {f : QuantFormat}
    (h : (Build.weight name dtype shape ref f).run b = .ok (t, b')) : Progress ins b₀ b' (t :: known) waiting ms := by
  obtain ⟨g, hready, -⟩ := weight_grows h p.wired
  have hcall := p.call g
  rw [List.append_nil] at hcall
  exact hcall.learn hready

/-- An operator produces a tensor that waits for it. -/
theorem fill (before after : List TensorId) (p : Progress ins b₀ b known (before ++ y :: after) ms)
    (h : (node name opName inputs [y] attributes).run b = .ok (u, b')) (hop : opName ≠ "Attention")
    (hin : ∀ x ∈ inputs, x ∈ known) : Progress ins b₀ b' (y :: known) (before ++ after) ms := by
  have hgrows := node_grows h p.wired (fun x hx => .inr (p.ready x (hin x hx)))
    (by simpa using (p.pending y (by simp)).1) (List.nodup_singleton _)
  rw [marksOf_quiet hop (p.zero_notMem hin)] at hgrows
  have hfill := fillBy before after p ⟨hgrows.1, hgrows.2 y (List.mem_singleton_self y)⟩
  rwa [List.append_nil] at hfill

/-- An operator and its tensor. -/
theorem emit (p : Progress ins b₀ b known waiting ms) {nodeName : String} {shape : List Int}
    (h : (Build.emit name shape nodeName opName inputs attributes).run b = .ok (t, b')) (hop : opName ≠ "Attention")
    (hin : ∀ x ∈ inputs, x ∈ known) : Progress ins b₀ b' (t :: known) waiting ms := by
  obtain ⟨g, hready⟩ := emit_grows h p.wired fun x hx => .inr (p.ready x (hin x hx))
  rw [marksOf_quiet hop (p.zero_notMem hin)] at g
  have hcall := p.call g
  rw [List.append_nil] at hcall
  exact hcall.learn hready

/-- An operator that may read a tensor that is not there. -/
theorem emitAny (p : Progress ins b₀ b known waiting ms) {nodeName : String} {shape : List Int}
    (h : (Build.emit name shape nodeName opName inputs attributes).run b = .ok (t, b'))
    (hin : ∀ x ∈ inputs, x = 0 ∨ x ∈ known) :
    Progress ins b₀ b' (t :: known) waiting (ms ++ marksOf opName inputs attributes) := by
  obtain ⟨g, hready⟩ := emit_grows h p.wired fun x hx => (hin x hx).imp_right (p.ready x)
  exact (p.call g).learn hready

/-- A router and its two tensors. -/
theorem router {z : TensorId} (p : Progress ins b₀ b known (z :: y :: waiting) ms)
    (h : (node name opName inputs [y, z] attributes).run b = .ok (u, b')) (hop : opName ≠ "Attention")
    (hin : ∀ x ∈ inputs, x ∈ known) : Progress ins b₀ b' (y :: z :: known) waiting ms := by
  have hpending : ∀ x ∈ [y, z], Pending b x ∧ (b₀.nextTensorId : Nat) ≤ x := by
    intro x hx
    refine p.pending x ?_
    simp only [List.mem_cons, List.not_mem_nil, or_false] at hx ⊢
    tauto
  have hnd := p.nodup
  simp only [List.nodup_cons, List.mem_cons, not_or] at hnd
  have hgrows := node_grows h p.wired (fun x hx => .inr (p.ready x (hin x hx))) (fun x hx => (hpending x hx).1)
    (by simpa using Ne.symm hnd.1.1)
  rw [marksOf_quiet hop (p.zero_notMem hin)] at hgrows
  have htrans := p.grows.trans hgrows.1
  rw [List.append_nil] at htrans
  refine ⟨htrans.forget fun x hx => .inr (hpending x hx).2, ?_, fun x hx => ?_, hnd.2.2⟩
  · refine List.forall_mem_cons.mpr ⟨hgrows.2 y (by simp), List.forall_mem_cons.mpr ⟨hgrows.2 z (by simp), fun x hx => ?_⟩⟩
    exact hgrows.1.ready x (p.ready x hx)
  · have hold := p.pending x (by simp [hx])
    refine ⟨hgrows.1.pending x hold.1 fun hmem => ?_, hold.2⟩
    simp only [List.mem_cons, List.not_mem_nil, or_false] at hmem
    rcases hmem with rfl | rfl
    · exact hnd.2.1 hx
    · exact hnd.1.2 hx

theorem attention (p : Progress ins b₀ b known waiting ms) {nodeName : String} {shape : List Int}
    (h : (Build.emit name shape nodeName "Attention" inputs attributes).run b = .ok (t, b'))
    (hin : ∀ x ∈ inputs, x ∈ known) : Progress ins b₀ b' (t :: known) waiting (ms ++ [.attention (layerId attributes)]) := by
  obtain ⟨g, hready⟩ := emit_grows h p.wired fun x hx => .inr (p.ready x (hin x hx))
  rw [marksOf, if_pos rfl, if_neg (p.zero_notMem hin), List.append_nil] at g
  exact (p.call g).learn hready

end Progress

/-! ## The finished graph -/

/-- Ids are unique, a tensor has one producer at most, a node reads graph inputs, weights and
    what nodes before it produce, and the graph outputs are produced. -/
structure WellBuilt (g : Graph R) : Prop where
  tensorIds : (g.tensors.map (·.id)).Nodup
  nodeIds : (g.nodes.map (·.id)).Nodup
  producers : (g.nodes.flatMap (·.outputs)).Nodup
  reads : ∀ pre n post, g.nodes = pre ++ n :: post → ∀ x ∈ n.inputs,
    x ∈ g.inputs ∨ g.IsWeight x ∨ ∃ m ∈ pre, x ∈ m.outputs
  outputs : ∀ o ∈ g.outputs, g.Produced o

/-- The `layer_id`s of the Attention nodes. -/
def attentionLayers (g : Graph R) : List (Option Int) :=
  (g.nodes.filter (·.opName = "Attention")).map fun n => layerId n.attributes

def Mark.layer : Mark → Option (Option Int)
  | .attention layer => some layer
  | .readsZero => none

/-- The marks of `n` layers from `li` on. -/
def layerMarks (li n : Nat) : List Mark := (List.range' li n).map fun i : Nat => .attention (some (i : Int))

@[simp] theorem readsZero_notMem_layerMarks {li n : Nat} : Mark.readsZero ∉ layerMarks li n := by simp [layerMarks]

@[simp] theorem layerMarks_zero {li : Nat} : layerMarks li 0 = [] := rfl

theorem layerMarks_succ {li n : Nat} : layerMarks li (n + 1) = .attention (some (li : Int)) :: layerMarks (li + 1) n := rfl

theorem layerMarks_layer {n : Nat} : (layerMarks 0 n).filterMap Mark.layer = (List.range n).map fun i : Nat => some (i : Int) := by
  rw [layerMarks, List.filterMap_map, List.range_eq_range']
  exact congrFun List.filterMap_eq_map _

theorem attentionLayers_eq (g : Graph R) : attentionLayers g = g.marks.filterMap Mark.layer := by
  unfold attentionLayers Graph.marks
  induction g.nodes with
  | nil => rfl
  | cons n nodes ih =>
    rw [List.flatMap_cons, List.filterMap_append, ← ih, marksOf, List.filterMap_append]
    by_cases hop : n.opName = "Attention" <;> by_cases hzero : 0 ∈ n.inputs <;> simp [hop, hzero, Mark.layer]

theorem readsZero_mem {g : Graph R} : Mark.readsZero ∈ g.marks ↔ ∃ n ∈ g.nodes, 0 ∈ n.inputs := by
  simp only [Graph.marks, List.mem_flatMap, marksOf, List.mem_append]
  refine exists_congr fun n => and_congr_right fun _ => ?_
  by_cases hop : n.opName = "Attention" <;> by_cases hzero : 0 ∈ n.inputs <;> simp [hop, hzero]

theorem Wired.wellBuilt_iff (hw : Wired ins b) (hin : b.graph.inputs = ins) (hout : ∀ o ∈ b.graph.outputs, b.graph.Produced o) :
    WellBuilt b.graph ↔ Mark.readsZero ∉ b.graph.marks := by
  rw [readsZero_mem]
  constructor
  · intro h ⟨n, hn, hzero⟩
    obtain ⟨pre, post, hsplit⟩ := List.append_of_mem hn
    rcases h.reads pre n post hsplit 0 hzero with h0 | ⟨w, hw0, hid, -⟩ | ⟨m, hm, h0⟩
    · rw [hin] at h0
      exact absurd (hw.inputIds 0 h0).1 (Nat.lt_irrefl 0)
    · have hpos := (hw.tensorIds w hw0).1
      rw [hid] at hpos
      exact absurd hpos (Nat.lt_irrefl 0)
    · have hmem : m ∈ b.graph.nodes := by rw [hsplit]; exact List.mem_append_left _ hm
      exact absurd (hw.outputIds 0 ⟨m, hmem, h0⟩).1 (Nat.lt_irrefl 0)
  · intro hno
    refine ⟨hw.tensorsNodup, hw.nodesNodup, hw.producers, fun pre n post hsplit x hx => ?_, hout⟩
    rw [hin]
    rcases hw.reads pre n post hsplit x hx with rfl | hready
    · exact absurd ⟨n, by rw [hsplit]; simp, hx⟩ hno
    · exact hready

/-- The graph that a program ends with that names its input, its output and the metadata. -/
theorem Progress.finished {b₀ b₁ b₂ : GraphBuilder R} {known waiting : List TensorId} {ms : List Mark} {out : TensorId}
    {l : List (String × String)} {u u' : Unit} (p : Progress ins b₀ b known waiting ms) (h₀ : b₀.graph.marks = [])
    (hout : b.graph.Produced out) (hio : (Build.io ins [out]).run b = .ok (u, b₁))
    (hmeta : (Build.addMetadata l).run b₁ = .ok (u', b₂)) :
    (WellBuilt b₂.graph ↔ Mark.readsZero ∉ ms) ∧ attentionLayers b₂.graph = ms.filterMap Mark.layer ∧
      b₂.graph.layersEntry = (l.reverse.find? (·.1 == "n_layers")).or b.graph.layersEntry := by
  obtain ⟨hnext, hnode, hgraph, hlayers⟩ := Build.addMetadata_run hmeta
  have hgrows := p.grows.trans (Build.io_grows hio p.wired)
  obtain ⟨-, rfl⟩ := Prod.mk.inj (Except.ok.inj hio)
  have hmarks : b₂.graph.marks = ms := by
    have hms := hgrows.marks
    rw [h₀, List.append_nil, List.nil_append] at hms
    rw [hgraph]
    exact hms
  obtain ⟨graph, next, nextNode⟩ := b₂
  simp only at hnext hnode hgraph hlayers hmarks ⊢
  subst hnext hnode
  have hwell := (hgrows.wired.withMetadata graph.metadata).wellBuilt_iff rfl (by
    intro o ho
    obtain rfl := List.mem_singleton.mp ho
    exact hout)
  rw [hgraph] at hmarks hlayers ⊢
  refine ⟨?_, ?_, hlayers⟩
  · rw [← hmarks]
    exact hwell
  · rw [attentionLayers_eq, hmarks]

end Uaii.Ir
