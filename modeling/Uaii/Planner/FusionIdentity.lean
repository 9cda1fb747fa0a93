/-
  Uaii.Planner.FusionIdentity — when removing Identity nodes keeps a graph's meaning.

  The pass rewires a consumer by one lookup. A consumer of the second of two removed
  Identities in a row is given the output of the first, which nothing produces any more.

  Proved: the pass preserves the meaning of an accepted graph exactly when no remaining
  node reads such a chain (`identityPass_preserves_iff`); a weight as the middle tensor
  stays defined, and then the node must not matter to any output.
-/

import Mathlib.Data.List.Flatten
import Uaii.Ir.Semantics
import Uaii.Planner.Fusion

namespace Uaii.Planner

open Uaii.Ir

variable {R : Type}

/-! ## What the pass must keep -/

def IdentityIsId {V : Type} (I : Dataflow.Interp (OpKey R) V) : Prop :=
  ∀ key : OpKey R, key.name = "Identity" → ∀ v : V, I key [v] 0 = v

/-- Whatever a remaining node reads is as defined as it was, and the outputs have their
    values, whatever the operators compute. -/
structure MeaningPreserving (g g' : Graph R) : Prop where
  inputs : ∀ n ∈ g'.nodes, ∀ t ∈ n.inputs, g.Defined t → g'.Defined t
  outputs : ∀ (V : Type) (I : Dataflow.Interp (OpKey R) V) (src env env' : TensorId → V), IdentityIsId I →
    g.Solves I src env → g'.Solves I src env' → g.outputs.map env = g'.outputs.map env'

/-- A removable Identity from `y` to `x`. -/
def RemovableIdentity (g : Graph R) (x y : TensorId) : Prop :=
  ∃ n ∈ g.nodes, n.opName = "Identity" ∧ n.inputs = [y] ∧ n.outputs = [x] ∧ isGraphIo g x = false

/-- Reading `x` after the pass is reading `y`, which nothing produces. -/
def ChainInput (g : Graph R) (x y : TensorId) : Prop := RemovableIdentity g x y ∧ ∃ z, RemovableIdentity g y z

/-- No node but a removable Identity reads a chain, unless its middle is a weight and the
    node does not matter. -/
def NoChainRead (g : Graph R) : Prop :=
  ∀ n ∈ g.nodes, identityEntry g n = none → ∀ x ∈ n.inputs, ∀ y, ChainInput g x y →
    g.IsWeight y ∧ ∀ o ∈ n.outputs, ¬ g.FeedsOutput o

/-! ## The replace map -/

theorem identityEntry_some {g : Graph R} {n : Node R} {x y : TensorId} :
    identityEntry g n = some (x, y) ↔ n.opName = "Identity" ∧ n.inputs = [y] ∧ n.outputs = [x] ∧ isGraphIo g x = false := by
  unfold identityEntry
  constructor
  · intro h
    split at h
    · next i o hi ho =>
      split at h
      · next hc => cases h; exact ⟨hc.1, hi, ho, hc.2⟩
      · cases h
    · cases h
  · rintro ⟨hop, hi, ho, hio⟩
    rw [hi, ho]
    simp [hop, hio]

theorem mem_replaceEntries {g : Graph R} {x y : TensorId} : (x, y) ∈ replaceEntries g ↔ RemovableIdentity g x y := by
  simp only [replaceEntries, List.mem_reverse, List.mem_filterMap, identityEntry_some]
  rfl

/-- A tensor has one producer, so one entry. -/
theorem RemovableIdentity.unique {g : Graph R} (h : Valid g) {x y y' : TensorId} (hy : RemovableIdentity g x y)
    (hy' : RemovableIdentity g x y') : y = y' := by
  obtain ⟨n, hn, -, hin, hout, -⟩ := hy
  obtain ⟨n', hn', -, hin', hout', -⟩ := hy'
  have heq : n = n' := Lists.eq_of_mem_flatMap h.producers hn hn' (x := x) (by simp [hout]) (by simp [hout'])
  subst heq
  simpa [hin] using hin'

theorem replaceOf_some {g : Graph R} (h : Valid g) {x y : TensorId} : replaceOf g x = some y ↔ RemovableIdentity g x y := by
  unfold replaceOf
  constructor
  · intro hfind
    obtain ⟨⟨x', y'⟩, he, rfl⟩ := Option.map_eq_some_iff.mp hfind
    obtain rfl : x' = x := by simpa using List.find?_some he
    exact mem_replaceEntries.mp (List.mem_of_find?_eq_some he)
  · intro hrem
    cases hfind : (replaceEntries g).find? (·.1 == x) with
    | none =>
      have hno := List.find?_eq_none.mp hfind (x, y) (mem_replaceEntries.mpr hrem)
      simp at hno
    | some e =>
      obtain ⟨x', y'⟩ := e
      obtain rfl : x' = x := by simpa using List.find?_some hfind
      have hrem' := mem_replaceEntries.mp (List.mem_of_find?_eq_some hfind)
      rw [hrem.unique h hrem']
      rfl

theorem replaceOf_none {g : Graph R} (h : Valid g) {x : TensorId} : replaceOf g x = none ↔ ∀ y, ¬ RemovableIdentity g x y := by
  constructor
  · intro hn y hy
    rw [(replaceOf_some h).mpr hy] at hn
    cases hn
  · intro hall
    cases hx : replaceOf g x with
    | none => rfl
    | some y => exact absurd ((replaceOf_some h).mp hx) (hall y)

/-- Either an input stays, or it is the output of a removed Identity and becomes its
    input. -/
theorem rewire_cases {g : Graph R} (h : Valid g) (x : TensorId) :
    (rewire g x = x ∧ ∀ y, ¬ RemovableIdentity g x y) ∨ RemovableIdentity g x (rewire g x) := by
  unfold rewire
  cases hx : replaceOf g x with
  | none => exact Or.inl ⟨rfl, (replaceOf_none h).mp hx⟩
  | some y => exact Or.inr ((replaceOf_some h).mp hx)

theorem rewire_of_removable {g : Graph R} (h : Valid g) {x y : TensorId} (hrem : RemovableIdentity g x y) :
    rewire g x = y := by
  rw [rewire, (replaceOf_some h).mpr hrem]
  rfl

theorem rewire_of_not {g : Graph R} (h : Valid g) {x : TensorId} (hx : ∀ y, ¬ RemovableIdentity g x y) :
    rewire g x = x := by
  rw [rewire, (replaceOf_none h).mpr hx]
  rfl

theorem not_removable_output {g : Graph R} {o : TensorId} (ho : o ∈ g.outputs) (y : TensorId) : ¬ RemovableIdentity g o y := by
  rintro ⟨-, -, -, -, -, hio⟩
  simp [isGraphIo, ho] at hio

theorem not_removable_input {g : Graph R} {t : TensorId} (ht : t ∈ g.inputs) (y : TensorId) : ¬ RemovableIdentity g t y := by
  rintro ⟨-, -, -, -, -, hio⟩
  simp [isGraphIo, ht] at hio

/-! ## The graph after the pass -/

/-- Nodes, inputs and outputs of the result; with nothing to remove the graph is as it
    was. -/
theorem identityPass_parts {g : Graph R} (h : Valid g) :
    (identityPass g).nodes = (identityKept g).map (fun n => { n with inputs := n.inputs.map (rewire g) }) ∧
      (identityPass g).inputs = g.inputs ∧ (identityPass g).outputs = g.outputs := by
  have houts : g.outputs.map (rewire g) = g.outputs := by
    conv_rhs => rw [← List.map_id g.outputs]
    exact List.map_congr_left fun o ho => rewire_of_not h (not_removable_output ho)
  unfold identityPass
  split
  · next hnil =>
    have hrew : rewire g = id := by funext t; simp [rewire, replaceOf, hnil]
    have hkept : identityKept g = g.nodes := by
      refine List.filter_eq_self.mpr fun n hn => ?_
      cases he : identityEntry g n with
      | none => rfl
      | some e =>
        have hmem : e ∈ replaceEntries g := by
          rw [replaceEntries, List.mem_reverse]
          exact List.mem_filterMap.mpr ⟨n, hn, he⟩
        rw [hnil] at hmem
        cases hmem
    refine ⟨?_, rfl, rfl⟩
    rw [hkept]
    simp [hrew]
  · exact ⟨rfl, rfl, houts⟩

theorem mem_identityKept {g : Graph R} {n : Node R} : n ∈ identityKept g ↔ n ∈ g.nodes ∧ identityEntry g n = none := by
  simp [identityKept]

theorem mem_identityPass_nodes {g : Graph R} (h : Valid g) {m : Node R} :
    m ∈ (identityPass g).nodes ↔ ∃ n ∈ g.nodes, identityEntry g n = none ∧ { n with inputs := n.inputs.map (rewire g) } = m := by
  rw [(identityPass_parts h).1]
  simp only [List.mem_map, mem_identityKept, and_assoc]

/-- The removed nodes are the producers of the replaced tensors. -/
theorem identityPass_produced {g : Graph R} (h : Valid g) {t : TensorId} :
    (identityPass g).Produced t ↔ g.Produced t ∧ ∀ y, ¬ RemovableIdentity g t y := by
  constructor
  · rintro ⟨m, hm, hout⟩
    obtain ⟨n, hn, hkept, rfl⟩ := (mem_identityPass_nodes h).mp hm
    refine ⟨⟨n, hn, hout⟩, ?_⟩
    rintro y ⟨n', hn', hop, hin, hout', hio⟩
    have heq : n = n' := Lists.eq_of_mem_flatMap h.producers hn hn' hout (by simp [hout'])
    subst heq
    rw [identityEntry_some.mpr ⟨hop, hin, hout', hio⟩] at hkept
    cases hkept
  · rintro ⟨⟨n, hn, hout⟩, hnot⟩
    refine ⟨_, (mem_identityPass_nodes h).mpr ⟨n, hn, ?_, rfl⟩, hout⟩
    cases he : identityEntry g n with
    | none => rfl
    | some e =>
      obtain ⟨x, y⟩ := e
      obtain ⟨hop, hin, hout', hio⟩ := identityEntry_some.mp he
      obtain rfl : t = x := by simpa [hout'] using hout
      exact absurd ⟨n, hn, hop, hin, hout', hio⟩ (hnot y)

/-- A kept node's inputs are live, so a weight among them is still there. -/
theorem identityPass_isWeight {g : Graph R} {m : Node R} (hm : m ∈ (identityPass g).nodes) {t : TensorId}
    (ht : t ∈ m.inputs) : (identityPass g).IsWeight t ↔ g.IsWeight t := by
  unfold identityPass at hm ⊢
  split
  · exact Iff.rfl
  · next hne =>
    rw [if_neg hne] at hm
    constructor
    · rintro ⟨w, hw, rfl, hwt⟩
      exact ⟨w, (List.mem_filter.mp hw).1, rfl, hwt⟩
    · rintro ⟨w, hw, rfl, hwt⟩
      refine ⟨w, List.mem_filter.mpr ⟨hw, ?_⟩, rfl, hwt⟩
      have hlive : ((identityKept g).map fun n => { n with inputs := n.inputs.map (rewire g) }).any
          (fun n => w.id ∈ n.inputs ∨ w.id ∈ n.outputs) = true :=
        List.any_eq_true.mpr ⟨m, hm, by simp [ht]⟩
      simp only [decide_eq_true_eq]
      exact Or.inr (Or.inr (by simpa using hlive))

/-- Removing Identities keeps the producers apart and the rank. -/
theorem identityPass_solvable {g : Graph R} (h : Valid g) :
    Dataflow.SingleProducer (identityPass g).ops ∧
      ∃ rank : TensorId → Nat, ∀ n ∈ (identityPass g).nodes, ∀ x ∈ n.inputs, ∀ o ∈ n.outputs, rank x < rank o := by
  constructor
  · refine Graph.singleProducer ?_
    rw [(identityPass_parts h).1, List.flatMap_map]
    have hsub : ((identityKept g).flatMap (·.outputs)).Sublist (g.nodes.flatMap (·.outputs)) :=
      List.Sublist.flatMap List.filter_sublist _
    exact hsub.nodup h.producers
  · obtain ⟨rank, hrank⟩ := h.ranked
    refine ⟨rank, fun m hm x hx o ho => ?_⟩
    obtain ⟨n, hn, -, rfl⟩ := (mem_identityPass_nodes h).mp hm
    obtain ⟨x', hx', rfl⟩ := List.mem_map.mp hx
    have hlt := hrank n hn x' hx' o ho
    rcases rewire_cases h x' with ⟨heq, -⟩ | ⟨i, hi, -, hin, hout, -⟩
    · rw [heq]; exact hlt
    · have := hrank i hi (rewire g x') (by simp [hin]) x' (by simp [hout])
      omega

/-! ## The outputs -/

section Values

variable {V : Type} {I : Dataflow.Interp (OpKey R) V} {src env env' : TensorId → V} {g : Graph R}

/-- Across a removed Identity the value does not change. -/
theorem env_removable (hI : IdentityIsId I) (he : g.Solves I src env) {x y : TensorId} (hrem : RemovableIdentity g x y) :
    env x = env y := by
  obtain ⟨n, hn, hop, hin, hout, -⟩ := hrem
  rw [Graph.solves_output he hn (i := 0) (by rw [hout]; rfl), hin]
  exact hI ⟨n.opName, n.opVersion, n.attributes⟩ hop (env y)

/-- Without a chain in the way, a tensor that matters and stays has the same value. -/
theorem env_eq_of_noChain (h : Valid g) (hI : IdentityIsId I) (hno : NoChainRead g) (he : g.Solves I src env)
    (he' : (identityPass g).Solves I src env') {rank : TensorId → Nat}
    (hrank : ∀ n ∈ g.nodes, ∀ x ∈ n.inputs, ∀ o ∈ n.outputs, rank x < rank o) :
    ∀ k t, rank t < k → g.FeedsOutput t → (∀ y, ¬ RemovableIdentity g t y) → env t = env' t := by
  intro k
  induction k with
  | zero => intro t ht; omega
  | succ k ih =>
    intro t ht hfeeds hstays
    by_cases hprod : g.Produced t
    · obtain ⟨m, hm, hout⟩ := (identityPass_produced h).mpr ⟨hprod, hstays⟩
      obtain ⟨n, hn, hkept, rfl⟩ := (mem_identityPass_nodes h).mp hm
      obtain ⟨i, hi⟩ := List.mem_iff_getElem?.mp hout
      rw [Graph.solves_output he hn hi, Graph.solves_output he' hm hi]
      show I _ (n.inputs.map env) i = I _ ((n.inputs.map (rewire g)).map env') i
      rw [List.map_map]
      congr 1
      refine List.map_congr_left fun x hx => ?_
      have hlt := hrank n hn x hx t hout
      have hxfeeds : g.FeedsOutput x := .node hn hx hout hfeeds
      show env x = env' (rewire g x)
      rcases rewire_cases h x with ⟨heq, hxstays⟩ | hrem
      · rw [heq]
        exact ih x (by omega) hxfeeds hxstays
      · -- `x` is the output of a removed Identity; its input stays, or `n` would read a chain
        have hystays : ∀ z, ¬ RemovableIdentity g (rewire g x) z := fun z hz =>
          (hno n hn hkept x hx _ ⟨hrem, z, hz⟩).2 t hout hfeeds
        rw [env_removable hI he hrem]
        obtain ⟨i', hi', -, hin', hout', -⟩ := hrem
        have hylt := hrank i' hi' (rewire g x) (by simp [hin']) x (by simp [hout'])
        exact ih _ (by omega) (.node hi' (by simp [hin']) (by simp [hout']) hxfeeds) hystays
    · have hprod' : ¬ (identityPass g).Produced t := fun hp => hprod ((identityPass_produced h).mp hp).1
      rw [Graph.solves_source he hprod, Graph.solves_source he' hprod']

end Values

/-! ## A chain that is read -/

/-- Taint: true where a value depends on a tensor that started out true. -/
def taint : Dataflow.Interp (OpKey R) Bool := fun _ vals _ => vals.any id

theorem taint_identityIsId : IdentityIsId (taint (R := R)) := by
  intro key _ v
  simp [taint]

/-- Starting from the tensors the graph produces, nothing is tainted: all of them are
    overwritten. -/
theorem untainted {g : Graph R} {src env : TensorId → Bool} (h : Valid g) (hsrc : ∀ t, ¬ g.Produced t → src t = false)
    (he : g.Solves taint src env) : env = fun _ => false := by
  refine h.unique he ⟨?_, ?_⟩
  · intro op hop i o _
    simp [taint]
  · intro t ht
    refine (hsrc t ?_).symm
    rintro ⟨n, hn, hout⟩
    exact ht n.toOp (List.mem_map_of_mem hn) hout

/-- After the pass, taint travels from what a node reads to an output it feeds. -/
theorem taint_reaches {g : Graph R} {src env' : TensorId → Bool} (h : Valid g) (hsrc : ∀ t, g.Produced t → src t = true)
    (he' : (identityPass g).Solves taint src env') {t : TensorId} (hfeeds : g.FeedsOutput t)
    (ht : env' (rewire g t) = true) : ∃ o ∈ g.outputs, env' o = true := by
  induction hfeeds with
  | output ho => exact ⟨_, ho, rewire_of_not h (not_removable_output ho) ▸ ht⟩
  | @node n t o hn hin hout _ ih =>
    refine ih ?_
    cases hentry : identityEntry g n with
    | none =>
      have hm := (mem_identityPass_nodes h).mpr ⟨n, hn, hentry, rfl⟩
      have hostays : ∀ y, ¬ RemovableIdentity g o y :=
        ((identityPass_produced h).mp ⟨_, hm, hout⟩).2
      obtain ⟨i, hi⟩ := List.mem_iff_getElem?.mp hout
      rw [rewire_of_not h hostays, Graph.solves_output he' hm hi]
      simp only [taint, List.any_map, List.any_eq_true]
      exact ⟨t, hin, ht⟩
    | some e =>
      obtain ⟨x, y⟩ := e
      obtain ⟨hop, hin', hout', hio⟩ := identityEntry_some.mp hentry
      obtain rfl : o = x := by simpa [hout'] using hout
      obtain rfl : t = y := by simpa [hin'] using hin
      rw [rewire_of_removable h ⟨n, hn, hop, hin', hout', hio⟩]
      rcases rewire_cases h t with ⟨heq, -⟩ | hrem
      · rwa [heq] at ht
      · -- `t` is itself replaced, so nothing produces it and it keeps its taint
        have hgone : ¬ (identityPass g).Produced t := fun hp => ((identityPass_produced h).mp hp).2 _ hrem
        rw [Graph.solves_source he' hgone]
        obtain ⟨i, hi, -, -, hout'', -⟩ := hrem
        exact hsrc t ⟨i, hi, by simp [hout'']⟩

/-- The middle of a chain is produced before the pass and by nothing after it. -/
theorem chain_middle {g : Graph R} (h : Valid g) {x y : TensorId} (hchain : ChainInput g x y) :
    g.Produced y ∧ ¬ (identityPass g).Produced y ∧ y ∉ g.inputs := by
  obtain ⟨-, z, hz⟩ := hchain
  refine ⟨?_, fun hp => ((identityPass_produced h).mp hp).2 z hz, fun hin => not_removable_input hin z hz⟩
  obtain ⟨n, hn, -, -, hout, -⟩ := hz
  exact ⟨n, hn, by simp [hout]⟩

/-! ## When the pass preserves the meaning -/

theorem preserves_of_noChain {g : Graph R} (h : Valid g) (hno : NoChainRead g) : MeaningPreserving g (identityPass g) := by
  obtain ⟨-, hinputs, houtputs⟩ := identityPass_parts h
  constructor
  · intro m hm t ht hdef
    rcases hdef with hin | hw | hprod
    · exact Or.inl (hinputs ▸ hin)
    · exact Or.inr (Or.inl ((identityPass_isWeight hm ht).mpr hw))
    · by_cases hgone : ∃ z, RemovableIdentity g t z
      · obtain ⟨z, hz⟩ := hgone
        have hm' := hm
        obtain ⟨n, hn, hkept, rfl⟩ := (mem_identityPass_nodes h).mp hm
        obtain ⟨x, hx, rfl⟩ := List.mem_map.mp ht
        rcases rewire_cases h x with ⟨heq, hstays⟩ | hrem
        · rw [heq] at hz; exact absurd hz (hstays z)
        · exact Or.inr (Or.inl ((identityPass_isWeight hm' ht).mpr (hno n hn hkept x hx _ ⟨hrem, z, hz⟩).1))
      · exact Or.inr (Or.inr ((identityPass_produced h).mpr ⟨hprod, fun y hy => hgone ⟨y, hy⟩⟩))
  · intro V I src env env' hI he he'
    obtain ⟨rank, hrank⟩ := h.ranked
    rw [houtputs]
    refine List.map_congr_left fun o ho => ?_
    exact env_eq_of_noChain h hI hno he he' hrank _ o (Nat.lt_succ_self _) (.output ho) (not_removable_output ho)

theorem noChain_of_preserves {g : Graph R} (h : Valid g) (hp : MeaningPreserving g (identityPass g)) : NoChainRead g := by
  obtain ⟨-, hinputs, houtputs⟩ := identityPass_parts h
  intro n hn hkept x hx y hchain
  have hm := (mem_identityPass_nodes h).mpr ⟨n, hn, hkept, rfl⟩
  have hrew : rewire g x = y := rewire_of_removable h hchain.1
  have hy : y ∈ n.inputs.map (rewire g) := List.mem_map.mpr ⟨x, hx, hrew⟩
  obtain ⟨hprod, hgone, hnotin⟩ := chain_middle h hchain
  constructor
  · rcases hp.inputs _ hm y hy (Or.inr (Or.inr hprod)) with hin | hw | hpr
    · exact absurd (hinputs ▸ hin) hnotin
    · exact (identityPass_isWeight hm hy).mp hw
    · exact absurd hpr hgone
  · intro o ho hfeeds
    -- taint what the graph produces: before the pass no output shows it, after it one does
    classical
    let src : TensorId → Bool := fun t => decide (g.Produced t)
    obtain ⟨env, he⟩ := h.exists_solves taint src
    obtain ⟨hs, rank, hrank⟩ := identityPass_solvable h
    obtain ⟨env', he'⟩ : ∃ env', (identityPass g).Solves taint src env' := by
      have hranked : Dataflow.Ranked (identityPass g).ops rank := by
        intro op hop
        obtain ⟨m, hm, rfl⟩ := Graph.mem_ops.mp hop
        exact hrank m hm
      exact Dataflow.exists_solves hranked hs taint src
    have hclean := untainted h (by simp [src]) he
    have hsrc : ∀ t, g.Produced t → src t = true := fun t ht => by simp [src, ht]
    have htaint : env' (rewire g x) = true := by
      rw [hrew, Graph.solves_source he' hgone]
      exact hsrc y hprod
    obtain ⟨o', ho', htrue⟩ := taint_reaches h hsrc he' (.node hn hx ho hfeeds) htaint
    have heq := hp.outputs Bool taint src env env' taint_identityIsId he he'
    rw [houtputs] at heq
    have hfalse := List.map_inj_left.mp heq o' ho'
    rw [hclean, htrue] at hfalse
    cases hfalse

/-- For an accepted graph: removing Identities keeps every input defined and every output
    unchanged exactly when no remaining node reads the output of a removed Identity
    behind another (or only through a weight that no output depends on). -/
theorem identityPass_preserves_iff (registry : OperatorRegistry) (g : Graph R) (h : Accepted registry g) :
    MeaningPreserving g (identityPass g) ↔ NoChainRead g :=
  ⟨noChain_of_preserves (accepted_valid h), preserves_of_noChain (accepted_valid h)⟩

/-! ## Two Identities in a row -/

def vec (id : TensorId) (name : String) : Tensor := ⟨id, name, .f32, [4], .unspecified, false, "", .f32⟩

def unaryNode (id : NodeId) (opName : String) (i o : TensorId) : Node Int := ⟨id, "", opName, "1", [i], [o], []⟩

/-- `x → Identity → a → Identity → b → Relu → y`. -/
def chainGraph : Graph Int where
  version := ⟨1, 0⟩
  name := "chain"
  producer := ""
  domain := "uaii"
  tensors := [vec 1 "x", vec 2 "a", vec 3 "b", vec 4 "y"]
  nodes := [unaryNode 1 "Identity" 1 2, unaryNode 2 "Identity" 2 3, unaryNode 3 "Relu" 3 4]
  inputs := [1]
  outputs := [4]
  metadata := []

/-- `x → Identity → a → Relu → y`. -/
def singleGraph : Graph Int :=
  { chainGraph with
    tensors := [vec 1 "x", vec 2 "a", vec 4 "y"]
    nodes := [unaryNode 1 "Identity" 1 2, unaryNode 3 "Relu" 2 4] }

theorem chainGraph_pass : identityPass chainGraph =
    { chainGraph with tensors := [vec 1 "x", vec 2 "a", vec 4 "y"], nodes := [unaryNode 3 "Relu" 2 4] } := by decide

/-- The Relu is left reading `a`, which has lost its producer. -/
theorem chain_loses_producer : Accepted OperatorRegistry.builtin chainGraph ∧
    ¬ MeaningPreserving chainGraph (identityPass chainGraph) := by
  refine ⟨by decide, fun hp => ?_⟩
  have hdef : chainGraph.Defined 2 :=
    Or.inr (Or.inr ⟨unaryNode 1 "Identity" 1 2, by simp [chainGraph], by simp [unaryNode]⟩)
  have hkept := hp.inputs (unaryNode 3 "Relu" 2 4) (by rw [chainGraph_pass]; simp) 2 (by simp [unaryNode]) hdef
  rw [chainGraph_pass] at hkept
  rcases hkept with hin | ⟨w, hw, -, hwt⟩ | ⟨n, hn, hout⟩
  · simp [chainGraph] at hin
  · simp only [List.mem_cons, List.not_mem_nil, or_false] at hw
    rcases hw with rfl | rfl | rfl <;> cases hwt
  · obtain rfl : n = unaryNode 3 "Relu" 2 4 := by simpa using hn
    simp [unaryNode] at hout

theorem singleGraph_noChain : NoChainRead singleGraph := by
  rintro n - - x - y ⟨⟨i, hi, hid, hin, -⟩, z, ⟨j, hj, -, -, hout, hio⟩⟩
  -- the only removable Identity reads the graph input
  simp only [singleGraph, List.mem_cons, List.not_mem_nil, or_false] at hi hj
  rcases hi with rfl | rfl <;> rcases hj with rfl | rfl <;> simp_all [unaryNode, isGraphIo, singleGraph, chainGraph]

theorem single_identity_preserved : MeaningPreserving singleGraph (identityPass singleGraph) :=
  (identityPass_preserves_iff OperatorRegistry.builtin singleGraph (by decide)).mpr singleGraph_noChain

end Uaii.Planner
