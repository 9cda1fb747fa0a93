/-
  Uaii.Ir.Quiet — the nodes that a program adds to the graph it builds.

  A program only appends to the nodes. A quiet one adds no Attention node, so what is known
  of the Attention nodes before it is known after it.
-/

import Uaii.Ir.Building

namespace Uaii.Ir.Build

variable {R α β : Type} {b b' : GraphBuilder R} {p : Build R α}

/-- The nodes it appends are no Attention nodes. -/
def Quiet (p : Build R α) : Prop :=
  ∀ b b' x, p.run b = .ok (x, b') → ∃ new, b'.graph.nodes = b.graph.nodes ++ new ∧ ∀ n ∈ new, n.opName ≠ "Attention"

/-! ## One node -/

theorem node_nodes {u : Unit} {name opName : String} {inputs outputs : List TensorId} {attributes : List (Attribute R)}
    (h : (node name opName inputs outputs attributes).run b = .ok (u, b')) :
    ∃ n : Node R, b'.graph.nodes = b.graph.nodes ++ [n] ∧ n.opName = opName ∧ n.inputs = inputs ∧ n.outputs = outputs ∧
      n.attributes = attributes := by
  obtain ⟨-, rfl⟩ := Prod.mk.inj (Except.ok.inj h)
  exact ⟨⟨b.nextNodeId, name, opName, "1", inputs, outputs, attributes⟩, rfl, rfl, rfl, rfl, rfl⟩

theorem emit_nodes {t : TensorId} {name nodeName opName : String} {shape : List Int} {inputs : List TensorId}
    {attributes : List (Attribute R)} (h : (emit name shape nodeName opName inputs attributes).run b = .ok (t, b')) :
    ∃ n : Node R, b'.graph.nodes = b.graph.nodes ++ [n] ∧ n.opName = opName ∧ n.inputs = inputs ∧ n.outputs = [t] ∧
      n.attributes = attributes := by
  obtain ⟨y, b₁, h₁, h⟩ := step_ok h
  obtain ⟨_, b₂, h₂, h⟩ := step_ok h
  obtain ⟨rfl, rfl⟩ := pure_ok h
  obtain ⟨-, rfl⟩ := Prod.mk.inj (Except.ok.inj h₁)
  obtain ⟨n, hn, hrest⟩ := node_nodes h₂
  exact ⟨n, hn, hrest⟩

/-! ## Quiet programs -/

namespace Quiet

/-- The Attention nodes are old. -/
theorem old (hp : Quiet p) {x : α} (h : p.run b = .ok (x, b')) {n : Node R} (hn : n ∈ b'.graph.nodes) (hop : n.opName = "Attention") :
    n ∈ b.graph.nodes := by
  obtain ⟨new, hnodes, hnew⟩ := hp b b' x h
  rw [hnodes, List.mem_append] at hn
  exact hn.resolve_right fun hmem => hnew n hmem hop

theorem sub (hp : Quiet p) {x : α} (h : p.run b = .ok (x, b')) : b.graph.nodes <+: b'.graph.nodes := by
  obtain ⟨new, hnodes, -⟩ := hp b b' x h
  exact ⟨new, hnodes.symm⟩

/-- A program that keeps the nodes. -/
theorem of_nodes (h : ∀ b b' x, p.run b = .ok (x, b') → b'.graph.nodes = b.graph.nodes) : Quiet p := by
  intro b b' x hrun
  exact ⟨[], by simp [h b b' x hrun], by simp⟩

theorem ret {x : α} : Quiet (pure x : Build R α) :=
  of_nodes fun _ _ _ h => congrArg (·.graph.nodes) (pure_ok h).2.symm

theorem bind {f : α → Build R β} (hp : Quiet p) (hf : ∀ x, Quiet (f x)) : Quiet (p >>= f) := by
  intro b b' y h
  obtain ⟨x, b₁, h₁, h₂⟩ := step_ok h
  obtain ⟨new₁, hn₁, hq₁⟩ := hp b b₁ x h₁
  obtain ⟨new₂, hn₂, hq₂⟩ := hf x b₁ b' y h₂
  refine ⟨new₁ ++ new₂, by rw [hn₂, hn₁, List.append_assoc], fun n hn => ?_⟩
  rcases List.mem_append.mp hn with hn | hn
  · exact hq₁ n hn
  · exact hq₂ n hn

theorem ite {c : Prop} [Decidable c] {q : Build R α} (hp : Quiet p) (hq : Quiet q) : Quiet (if c then p else q) := by
  split
  · exact hp
  · exact hq

theorem fails {code : ErrorCode} {message : String} : Quiet (error code message : Build R α) := by
  intro b b' x h
  cases h

theorem attempts {r : Result α} : Quiet (attempt r : Build R α) := by
  refine of_nodes fun b b' x h => ?_
  change r.map (fun y => (y, b)) = .ok (x, b') at h
  cases r with
  | error e => cases h
  | ok y => exact congrArg (·.graph.nodes) (Prod.mk.inj (Except.ok.inj h)).2.symm

theorem refuses {c : Prop} [Decidable c] {code : ErrorCode} {message : String} : Quiet (refuseIf c code message : Build R Unit) :=
  ite fails ret

theorem declares {name : String} {shape : List Int} : Quiet (tensor name shape : Build R TensorId) :=
  of_nodes fun _ _ _ h => congrArg (·.graph.nodes) (Prod.mk.inj (Except.ok.inj h)).2.symm

theorem weighs {name : String} {dtype : DType} {shape : List Int} {weightRef : String} {format : Quant.QuantFormat} :
    Quiet (weight name dtype shape weightRef format : Build R TensorId) :=
  of_nodes fun _ _ _ h => congrArg (·.graph.nodes) (Prod.mk.inj (Except.ok.inj h)).2.symm

theorem adds {name opName : String} {inputs outputs : List TensorId} {attributes : List (Attribute R)} (hop : opName ≠ "Attention") :
    Quiet (node name opName inputs outputs attributes) := by
  intro b b' u h
  obtain ⟨n, hn, hname, -⟩ := node_nodes h
  refine ⟨[n], hn, fun k hk => ?_⟩
  rw [List.mem_singleton.mp hk, hname]
  exact hop

theorem emits {name nodeName opName : String} {shape : List Int} {inputs : List TensorId} {attributes : List (Attribute R)}
    (hop : opName ≠ "Attention") : Quiet (emit name shape nodeName opName inputs attributes) :=
  bind declares fun _ => bind (adds hop) fun _ => ret

theorem notes {l : List (String × String)} : Quiet (addMetadata l : Build R Unit) :=
  of_nodes fun _ _ _ h => by rw [(addMetadata_run h).2.2.1]

theorem ends {inputs outputs : List TensorId} : Quiet (io inputs outputs : Build R Unit) :=
  of_nodes fun _ _ _ h => congrArg (·.graph.nodes) (Prod.mk.inj (Except.ok.inj h)).2.symm

end Quiet

end Uaii.Ir.Build
