/-
  Uaii.Runtime.StagedExperts — the experts a listed MoE node runs with, over runs with
  streaming (`libs/uaii-runtime/src/session.cpp`, `libs/uaii-storage/src/streaming.cpp`).

  The session ranks the probabilities of row 0 and stages the experts it finds; the kernel
  ranks every row.

  Proved: after any history whose loads leave the staging buffers as they are tagged, a
  node that does not lose what it has staged runs with every expert of every row staged
  and live exactly when the rows are routed to row 0's experts (`routed_experts_live_iff`).

  As built, another row's expert can have been evicted steps ago, with its pointer still in
  `buffers_` (`second_row_reads_evicted`).
-/

import Mathlib.Data.List.GetD
import Uaii.Kernels.MoeListed
import Uaii.Runtime.Staging

/-! ## Tags and hot experts -/

namespace Uaii.Storage

open Uaii.Ir
open Uaii.Planner (StoragePlacement)

namespace ExpertCache

/-- After `u` only tensors of `ids` were marked hot. -/
def Recent (c : ExpertCache) (ids : List TensorId) (u : TensorId) : Prop :=
  ∃ pre post, c.hot = pre ++ u :: post ∧ (u :: post).Nodup ∧ ∀ x ∈ u :: post, x ∈ ids

theorem Recent.isHot {c : ExpertCache} {ids : List TensorId} {u : TensorId} (h : c.Recent ids u) : c.isHot u = true := by
  rcases h with ⟨pre, post, hhot, -⟩
  simp [ExpertCache.isHot, hhot]

/-- No more than `kMaxHot` tensors: none of them is forgotten. -/
theorem Recent.markHot {c : ExpertCache} {ids : List TensorId} {u id : TensorId} (h : c.Recent ids u) (hid : id ∈ ids)
    (hne : u ≠ id) (hfew : ids.length ≤ kMaxHot) : (c.markHot id).Recent ids u := by
  rcases h with ⟨pre, post, hhot, hnodup, hmem⟩
  have hlist : c.hot.filter (· != id) ++ [id] = pre.filter (· != id) ++ u :: (post.filter (· != id) ++ [id]) := by
    simp [hhot, List.filter_append, hne]
  have hnodup' : (u :: (post.filter (· != id) ++ [id])).Nodup := by
    rw [List.nodup_cons] at hnodup ⊢
    refine ⟨?_, ?_⟩
    · simp [hnodup.1, hne]
    · rw [List.nodup_append]
      refine ⟨hnodup.2.filter _, List.nodup_singleton _, ?_⟩
      rintro a ha b hb rfl
      rw [List.mem_singleton.mp hb] at ha
      simp at ha
  have hmem' : ∀ x ∈ u :: (post.filter (· != id) ++ [id]), x ∈ ids := by
    intro x hx
    rcases List.mem_cons.mp hx with rfl | hx
    · exact hmem x List.mem_cons_self
    · rcases List.mem_append.mp hx with hx | hx
      · exact hmem x (List.mem_cons_of_mem _ (List.mem_filter.mp hx).1)
      · rw [List.mem_singleton.mp hx]
        exact hid
  have hlen := (List.subperm_of_subset hnodup' hmem').length_le
  refine ⟨(pre.filter (· != id)).drop ((c.hot.filter (· != id) ++ [id]).length - kMaxHot), _, ?_, hnodup', hmem'⟩
  show (c.hot.filter (· != id) ++ [id]).drop _ = _
  rw [hlist, List.drop_append_of_le_length]
  rw [List.length_append]
  omega

theorem recent_self (c : ExpertCache) {ids : List TensorId} {id : TensorId} (hid : id ∈ ids) : (c.markHot id).Recent ids id := by
  refine ⟨(c.hot.filter (· != id)).drop ((c.hot.filter (· != id) ++ [id]).length - kMaxHot), [], ?_, by simp, by simpa using hid⟩
  show (c.hot.filter (· != id) ++ [id]).drop _ = _
  rw [List.drop_append_of_le_length]
  simp [kMaxHot]

/-- `put` marks its tensor hot. -/
theorem put_hot (c : ExpertCache) {id : TensorId} {data : Bytes} (hdata : data ≠ []) :
    (c.put id data).hot = (c.markHot id).hot := by
  have hhot : (c.makeRoom data.length).hot = c.hot := (c.makeRoom_store data.length).2.2
  unfold put
  rw [if_neg hdata]
  simp only [ExpertCache.markHot, touch, hhot]

theorem Recent.of_hot {c c' : ExpertCache} {ids : List TensorId} {u : TensorId} (h : c.Recent ids u) (hhot : c'.hot = c.hot) :
    c'.Recent ids u := by
  unfold Recent
  rw [hhot]
  exact h

theorem Recent.mono {c : ExpertCache} {ids ids' : List TensorId} {u : TensorId} (h : c.Recent ids u) (hsub : ids ⊆ ids') :
    c.Recent ids' u := by
  rcases h with ⟨pre, post, hhot, hnodup, hmem⟩
  exact ⟨pre, post, hhot, hnodup, fun x hx => hsub (hmem x hx)⟩

end ExpertCache

namespace Store

variable {env : Loader} {weight : TensorId → Bytes} {s : Store} {id : TensorId} {slot : Fin 2}

theorem stageInto_resident (env : Loader) (s : Store) (slot : Fin 2) (id : TensorId) (i : Fin 2) :
    (s.stageInto env slot id).2.resident i = s.resident i ∨ (s.stageInto env slot id).2.resident i = id := by
  have hset : ∀ t : Store, t.resident = s.resident → (t.setResident slot id).resident i = s.resident i ∨
      (t.setResident slot id).resident i = id := by
    intro t ht
    by_cases hi : i = slot
    · subst hi
      exact .inr (Function.update_self ..)
    · exact .inl ((Function.update_of_ne hi ..).trans (by rw [ht]))
  unfold stageInto
  split
  · exact .inl rfl
  · split
    · exact .inl rfl
    · split
      · exact hset _ rfl
      · dsimp only
        split
        · exact .inl rfl
        · refine hset _ ?_
          split
          · rfl
          · rfl

theorem settle_resident (env : Loader) (s : Store) (i : Fin 2) : (s.settle env).2.resident i = s.resident i ∨
    ∃ t ∈ s.prefetchFut, (s.settle env).2.resident i = t.id := by
  have hcomplete : (s.complete env).resident i = s.resident i ∨ ∃ t ∈ s.prefetchFut, (s.complete env).resident i = t.id := by
    unfold complete
    split
    · next slot id hfut =>
      rcases stageInto_resident env s slot id i with h | h
      · exact .inl h
      · exact .inr ⟨_, hfut, h⟩
    · exact .inl rfl
  unfold settle
  split
  · exact hcomplete
  · exact .inl rfl

/-- An expert that is brought into a slot is in the cache, and the hot ones stay there. -/
theorem stageInto_expert (h : s.Ok env weight) {p : StoragePlacement} (hp : s.placement id = some p) (hexpert : p.expert = true)
    (hbytes : 0 < p.bytes) (hok : (s.stageInto env slot id).1 = .ok ()) :
    ((s.stageInto env slot id).2.experts.find id).isSome = true ∧
      ((s.stageInto env slot id).2.experts.hot = s.experts.hot ∨
        (s.stageInto env slot id).2.experts.hot = (s.experts.markHot id).hot) ∧
      ∀ b ∈ s.experts.store, b.id ≠ id → s.experts.isHot b.id = true → b ∈ (s.stageInto env slot id).2.experts.store := by
  rcases placement_some hp with ⟨hmem, rfl⟩
  unfold stageInto at hok ⊢
  rw [hp] at hok ⊢
  dsimp only at hok ⊢
  split at hok
  · cases hok
  next hlen =>
  rw [if_neg hlen]
  cases hc : s.cached p with
  | some data =>
    refine ⟨?_, .inl rfl, fun b hb _ _ => hb⟩
    unfold cached ExpertCache.get at hc
    rw [if_pos hexpert] at hc
    show (s.experts.find p.tensorId).isSome = true
    cases hfind : s.experts.find p.tensorId with
    | none => simp [hfind] at hc
    | some b => rfl
  | none =>
    rw [hc] at hok
    dsimp only at hok ⊢
    have hanswer : (s.loadAnswer env slot p).2.length = (s.buffers slot).length :=
      h.faithful.load_length p hmem s.loads (s.buffers slot)
    cases hload : (s.loadAnswer env slot p).1 with
    | error e => simp [hload] at hok
    | ok _ =>
      dsimp only
      rw [if_pos hexpert]
      -- the bytes that are put in the cache
      have hdata : ((s.setSlot slot (s.loadAnswer env slot p).2).buffers slot).take p.bytes ≠ [] := by
        have hslot : (s.setSlot slot (s.loadAnswer env slot p).2).buffers slot = (s.loadAnswer env slot p).2 :=
          Function.update_self ..
        rw [hslot, ← List.length_pos_iff, List.length_take, hanswer]
        omega
      refine ⟨ExpertCache.put_find hdata, .inr (ExpertCache.put_hot _ hdata), fun b hb hne hhot => ?_⟩
      exact ExpertCache.put_keeps (fun _ => ExpertCache.makeRoom_hot hb hhot) hb hne

/-- An expert that no buffer holds: its block is hot, and the experts staged before keep theirs. -/
theorem stage_expert (hinv : s.Inv env weight) {p : StoragePlacement} (hp : s.placement id = some p) (hexpert : p.expert = true)
    (hbytes : 0 < p.bytes) (hpending : ∀ t ∈ s.prefetchFut, t.id ≠ id) (hslots : ∀ i, s.resident i ≠ id)
    (htags : s.reloads env id → (s.settle env).2.LoadSafe env (s.settle env).2.active id) {ptr : Ptr × Nat}
    (hok : (s.stage env id).1 = .ok ptr) :
    (∃ b ∈ (s.stage env id).2.experts.store, b.id = id ∧ ptr.1 = .block b.addr) ∧
      (∀ i, (s.stage env id).2.resident i = (s.settle env).2.resident i ∨ (s.stage env id).2.resident i = id) ∧
      ∃ c : ExpertCache, (s.stage env id).2.experts = c.markHot id ∧
        (c.hot = (s.settle env).2.experts.hot ∨ c.hot = ((s.settle env).2.experts.markHot id).hot) ∧
        ∀ b ∈ (s.settle env).2.experts.store, b.id ≠ id → (s.settle env).2.experts.isHot b.id = true → b ∈ c.store := by
  have hpend : s.prefetchFut.any (·.id == id) = false := by
    cases hfut : s.prefetchFut with
    | none => rfl
    | some t => simpa using hpending t hfut
  have hresident : ∀ i, (s.settle env).2.resident i ≠ id := by
    intro i
    rcases settle_resident env s i with h | ⟨t, ht, h⟩
    · rw [h]
      exact hslots i
    · rw [h]
      exact hpending t ht
  have hbring : s.bringIn env id = (s.settle env).2.stageInto env (s.settle env).2.active id := by
    unfold bringIn
    dsimp only
    rw [hpend, if_neg (by decide), if_neg (hresident _), if_neg fun h => hresident _ h.2]
  have hsettled := (settle_spec hinv).1
  have hre : s.reloads env id := ⟨hpend, hresident _, fun _ => hresident _⟩
  have hok' := (stageInto_spec hsettled.ok (Spares.nothing (htags hre))).ok
  have hp' : (s.settle env).2.placement id = some p := by
    rw [placement, hsettled.placements]
    exact hp
  have hstaged : ∃ b, (s.bringIn env id).2.experts.find id = some b ∧ b.bytes ≠ [] ∧ (s.bringIn env id).1 = .ok () := by
    unfold stage at hok
    rw [hp] at hok
    dsimp only at hok
    cases hr : (s.bringIn env id).1 with
    | error e => simp [hr] at hok
    | ok _ =>
      rw [hbring] at hr ⊢
      rcases Option.isSome_iff_exists.mp (stageInto_expert hsettled.ok hp' hexpert hbytes hr).1 with ⟨b, hb⟩
      refine ⟨b, hb, ?_, rfl⟩
      rw [hok'.experts.find_bytes hb, ← List.length_pos_iff]
      rcases placement_some hp with ⟨hmem, rfl⟩
      rwa [hinv.ok.faithful.weight_length p hmem]
  rcases hstaged with ⟨b, hfind, hne, hr⟩
  have hstage : s.stage env id = (.ok (.block b.addr, b.bytes.length),
      { (s.bringIn env id).2 with experts := (s.bringIn env id).2.experts.markHot id }) := by
    unfold stage
    rw [hp]
    dsimp only
    rw [hr]
    dsimp only
    rw [if_pos hexpert, hfind]
    dsimp only
    rw [if_pos hne]
  rw [hstage] at hok ⊢
  cases hok
  rw [hbring] at hfind hr ⊢
  rcases stageInto_expert hsettled.ok hp' hexpert hbytes hr with ⟨-, hhot, hkeeps⟩
  rcases ExpertCache.find_some hfind with ⟨hmem, hid⟩
  exact ⟨⟨b, hmem, hid, rfl⟩, stageInto_resident env _ _ id, _, rfl, hhot, hkeeps⟩

end Store

end Uaii.Storage

namespace Uaii.Runtime.Streams

open Uaii.Ir Uaii.Kernels Uaii.Storage
open Uaii.Planner (StoragePlacement StoragePlan)

variable {R K : Type} [Field K] [LinearOrder K] (ps : PartialSort K)

/-- The matrices of the experts that row `b` is routed to. -/
def routedMats (n : Node R) (P : List K) (b : Nat) : List TensorId :=
  let E := (numExperts n).toNat
  let topk := toI32 (nodeIntAttr n "top_k" 2)
  (ranked ps P E (topCount topk E) b).flatMap fun t =>
    [n.inputs.getD (2 + 3 * t.2) 0, n.inputs.getD (2 + 3 * t.2 + 1) 0, n.inputs.getD (2 + 3 * t.2 + 2) 0]

/-! ## Histories -/

/-- Staging these leaves the buffers as they are tagged. -/
def StageTags (env : Loader) (st : Streams) : List TensorId → Prop
  | [] => True
  | id :: rest =>
    (st.store.reloads env id → (st.store.settle env).2.LoadSafe env (st.store.settle env).2.active id) ∧
      ∀ ptr, (st.store.stage env id).1 = .ok ptr → StageTags env (st.staged env id ptr) rest

def StepTags (env : Loader) (st : Streams) : Event R K → Prop
  | .op op => StageTags env st (stagedInputs ps st.store op.node op.probs) ∧
      ∀ st', stageStreamedInputs ps env st op.node op.probs = (.ok (), st') →
        ∀ id ∈ launched st'.store (prefetchInputs st'.store op.next), st'.store.LoadSafe env st'.store.inactive id
  | .complete => True

/-- No load of the run fails over a buffer that is tagged. -/
def RunTags (env : Loader) (st : Streams) : List (Event R K) → Prop
  | [] => True
  | e :: es => StepTags ps env st e ∧ RunTags env (step ps env st e) es

variable {ps} {env : Loader} {weight : TensorId → Bytes}

theorem stageAll_tags : ∀ {ids : List TensorId} {st : Streams}, st.store.Inv env weight → StageTags env st ids →
    (stageAll env st ids).2.store.Inv env weight ∧ (stageAll env st ids).2.store.placements = st.store.placements := by
  intro ids
  induction ids with
  | nil => exact fun h _ => ⟨h, rfl⟩
  | cons id rest ih =>
    intro st h htags
    rcases Store.stage_spec h (.inl rfl) (fun hr => Store.Spares.nothing (htags.1 hr)) with ⟨hinv, hplaced, -, -⟩
    cases hstage : (st.store.stage env id).1 with
    | error e =>
      rw [stageAll_cons_error hstage]
      exact ⟨hinv, hplaced⟩
    | ok ptr =>
      rw [stageAll_cons_ok hstage]
      have hrest := ih hinv (htags.2 ptr hstage)
      exact ⟨hrest.1, hrest.2.trans hplaced⟩

theorem prefetchAll_placements (ids : List TensorId) (s : Store) : (prefetchAll s ids).placements = s.placements := by
  rw [prefetchAll_eq]
  cases launched s ids with
  | none => rfl
  | some id => rfl

theorem runOp_placements {st : Streams} {op : Op R K} (h : st.store.Inv env weight)
    (htags : StageTags env st (stagedInputs ps st.store op.node op.probs)) :
    (runOp ps env st op).2.store.placements = st.store.placements := by
  rcases stageAll_tags h htags with ⟨-, hplaced⟩
  unfold runOp stageStreamedInputs
  rcases hstage : stageAll env st (stagedInputs ps st.store op.node op.probs) with ⟨_ | _, st'⟩
  · rw [hstage] at hplaced
    exact hplaced
  · rw [hstage] at hplaced
    exact (prefetchAll_placements _ _).trans hplaced

theorem step_tags {st : Streams} {e : Event R K} (h : st.store.Inv env weight) (htags : StepTags ps env st e) :
    (step ps env st e).store.Inv env weight ∧ (step ps env st e).store.placements = st.store.placements := by
  cases e with
  | complete =>
    rcases Store.complete_inv h with ⟨hinv, hplaced, -⟩
    exact ⟨hinv, hplaced⟩
  | op op =>
    refine ⟨?_, runOp_placements h htags.1⟩
    rcases stageAll_tags h htags.1 with ⟨hinv, -⟩
    have hpre := htags.2
    unfold stageStreamedInputs at hpre
    show (runOp ps env st op).2.store.Inv env weight
    unfold runOp stageStreamedInputs
    rcases hstage : stageAll env st (stagedInputs ps st.store op.node op.probs) with ⟨_ | _, st'⟩
    · rw [hstage] at hinv
      exact hinv
    · rw [hstage] at hinv
      exact prefetchAll_inv hinv (hpre st' hstage)

/-- What a run keeps, whatever its ops lose of what they have staged. -/
theorem run_tags : ∀ {events : List (Event R K)} {st : Streams}, st.store.Inv env weight → RunTags ps env st events →
    (run ps env st events).store.Inv env weight ∧ (run ps env st events).store.placements = st.store.placements := by
  intro events
  induction events with
  | nil => exact fun h _ => ⟨h, rfl⟩
  | cons e es ih =>
    intro st h htags
    rcases step_tags h htags.1 with ⟨hinv, hplaced⟩
    rcases ih hinv htags.2 with ⟨hinv', hplaced'⟩
    exact ⟨hinv', hplaced'.trans hplaced⟩

/-! ## The node's experts -/

/-- A listed node whose experts' matrices are streamed as such. -/
structure StreamedExperts (s : Store) (n : Node R) : Prop where
  some : 0 < numExperts n
  listed : isListedMoe n = true
  streamed : ∀ e < (numExperts n).toNat, ∀ j < 3, s.isStreamed (n.inputs.getD (2 + 3 * e + j) 0) = true ∧
    s.isExpert (n.inputs.getD (2 + 3 * e + j) 0) = true

/-- Every expert of the first `B` rows is staged for the node, and its pointers read as its
    weights. -/
def RoutedLive (ps : PartialSort K) (weight : TensorId → Bytes) (s m : Store) (data : TensorId → Option (Ptr × Nat)) (n : Node R)
    (P : List K) (B : Nat) : Prop :=
  ∀ b < B, ∀ u ∈ routedMats ps n P b, u ∈ stagedInputs ps s n (some P) ∧ Valid weight m data u

theorem toI32_le (n : Nat) : toI32 n ≤ n := by
  unfold toI32
  omega

/-- A routed matrix is an input of the node, and a streamed expert's. -/
theorem routed_input {s : Store} {n : Node R} (h : StreamedExperts s n) {P : List K} {b : Nat} {u : TensorId}
    (hu : u ∈ routedMats ps n P b) : u ∈ n.inputs ∧ s.isStreamed u = true ∧ s.isExpert u = true := by
  rcases List.mem_flatMap.mp hu with ⟨t, ht, hu⟩
  have hlt : t.2 < (numExperts n).toNat := ranked_lt ps ht
  have hlen : (2 + 3 * (numExperts n).toNat : Int) ≤ n.inputs.length := by
    have hpos := h.some
    have hlisted := h.listed
    simp only [isListedMoe, Bool.and_eq_true, beq_iff_eq] at hlisted
    have := toI32_le n.inputs.length
    omega
  have hat : ∀ j < 3, n.inputs.getD (2 + 3 * t.2 + j) 0 ∈ n.inputs := by
    intro j hj
    rw [List.getD_eq_getElem _ _ (by omega)]
    exact List.getElem_mem _
  have hcase : ∃ j < 3, u = n.inputs.getD (2 + 3 * t.2 + j) 0 := by
    simp only [List.mem_cons, List.not_mem_nil, or_false] at hu
    rcases hu with rfl | rfl | rfl
    · exact ⟨0, by decide, rfl⟩
    · exact ⟨1, by decide, rfl⟩
    · exact ⟨2, by decide, rfl⟩
  rcases hcase with ⟨j, hj, rfl⟩
  exact ⟨hat j hj, h.streamed t.2 hlt j hj⟩

/-- Of the experts' matrices, row 0's are staged. -/
theorem routed_staged_iff {s : Store} {n : Node R} (h : StreamedExperts s n) {P : List K} {b : Nat} {u : TensorId}
    (hu : u ∈ routedMats ps n P b) : u ∈ stagedInputs ps s n (some P) ↔ u ∈ routedMats ps n P 0 := by
  rcases routed_input h hu with ⟨hin, hstreamed, hexpert⟩
  have hlisted := And.intro h.some h.listed
  have hkeep : moeKeep ps n (some P) = routedMats ps n P 0 := rfl
  simp [stagedInputs, hin, hstreamed, hexpert, hlisted, hkeep]

/-- In a run whose loads leave the buffers as they are tagged, a node that does not lose what
    it has staged runs with its experts exactly when no row is routed to other experts than
    row 0. -/
theorem routed_experts_live_iff {plan : StoragePlan} (hfaithful : Faithful env weight (Store.configure plan).placements)
    {before : List (Event R K)} (htags : RunTags ps env (init plan) before) {op : Op R K} {P : List K} {B : Nat}
    (hprobs : op.probs = some P) (hexperts : StreamedExperts (Store.configure plan) op.node)
    (hsafe : OpSafe ps env (run ps env (init plan) before) op) {st : Streams}
    (hrun : runOp ps env (run ps env (init plan) before) op = (.ok (), st)) :
    (∀ m, Moment env st.store m →
        RoutedLive ps weight (run ps env (init plan) before).store m st.data op.node P B) ↔
      ∀ b < B, ∀ u ∈ routedMats ps op.node P b, u ∈ routedMats ps op.node P 0 := by
  rcases run_tags (Store.configure_inv hfaithful) htags with ⟨hinv, hplaced⟩
  have hexperts' : StreamedExperts (run ps env (init plan) before).store op.node := by
    refine ⟨hexperts.some, hexperts.listed, ?_⟩
    simp only [Store.isStreamed, Store.isExpert, Store.placement, hplaced]
    exact hexperts.streamed
  have hvalid := (runOp_spec hinv hsafe).2
  rw [hrun, hprobs] at hvalid
  constructor
  · intro hlive b hb u hu
    exact (routed_staged_iff hexperts' hu).mp (hlive st.store .before b hb u hu).1
  · intro hrows m hm b hb u hu
    have hstaged := (routed_staged_iff hexperts' hu).mpr (hrows b hb u hu)
    exact ⟨hstaged, hvalid rfl m hm u hstaged⟩

/-! ## A node that keeps what it has staged -/

/-- Few matrices, all of them streamed experts', and none in a staging buffer or on its way there. -/
structure FreshExperts (s : Store) (ids : List TensorId) : Prop where
  nodup : ids.Nodup
  few : ids.length ≤ kMaxHot
  expert : ∀ id ∈ ids, ∃ p, s.placement id = some p ∧ p.expert = true ∧ 0 < p.bytes
  slots : ∀ i, s.resident i ∉ ids
  pending : ∀ t ∈ s.prefetchFut, t.id ∉ ids

/-- Those that are staged have hot blocks; those that are not are in no buffer. -/
structure InCache (st : Streams) (done later : List TensorId) : Prop where
  idle : done ≠ [] → st.store.prefetchFut = none
  slots : ∀ i, st.store.resident i ∉ later
  pending : ∀ t ∈ st.store.prefetchFut, t.id ∉ later
  blocks : ∀ u ∈ done, ∃ b ∈ st.store.experts.store, b.id = u ∧ (∃ n, st.data u = some (.block b.addr, n)) ∧
    st.store.experts.Recent done u

theorem InCache.stage {st : Streams} {done later : List TensorId} {id : TensorId} (h : InCache st done (id :: later))
    (hinv : st.store.Inv env weight) (hnodup : (done ++ id :: later).Nodup) (hfew : (done ++ id :: later).length ≤ kMaxHot)
    (hexpert : ∃ p, st.store.placement id = some p ∧ p.expert = true ∧ 0 < p.bytes)
    (htags : st.store.reloads env id → (st.store.settle env).2.LoadSafe env (st.store.settle env).2.active id)
    {ptr : Ptr × Nat} (hok : (st.store.stage env id).1 = .ok ptr) : InCache (st.staged env id ptr) (done ++ [id]) later := by
  rcases hexpert with ⟨p, hp, he, hb⟩
  have hin : id ∈ id :: later := List.mem_cons_self
  have hpending : ∀ t ∈ st.store.prefetchFut, t.id ≠ id := fun t ht hid => h.pending t ht (hid ▸ hin)
  have hslots : ∀ i, st.store.resident i ≠ id := fun i hid => h.slots i (hid ▸ hin)
  rcases Store.stage_expert hinv hp he hb hpending hslots htags hok with ⟨⟨b, hbmem, hbid, hptr⟩, hresident, c, hexperts, hhot, hkeeps⟩
  have hidle : (st.store.stage env id).2.prefetchFut = none := by
    rcases Store.stage_spec hinv (.inl rfl) (fun hr => Store.Spares.nothing (htags hr)) with ⟨-, -, -, hspec⟩
    exact (hspec ptr hok).1
  rw [List.nodup_append, List.nodup_cons] at hnodup
  refine ⟨fun _ => hidle, fun i hi => ?_, fun t ht => ?_, fun u hu => ?_⟩
  · rcases hresident i with hr | hr
    · rcases Store.settle_resident env st.store i with hs | ⟨t, ht, hs⟩
      · exact h.slots i (List.mem_cons_of_mem _ (by rwa [← hs, ← hr]))
      · exact h.pending t ht (List.mem_cons_of_mem _ (by rwa [← hs, ← hr]))
    · exact hnodup.2.1.1 (by rwa [← hr])
  · simp [staged, hidle] at ht
  · have hself : id ∈ done ++ [id] := by simp
    by_cases hid : u = id
    · subst hid
      refine ⟨b, hbmem, hbid, ⟨ptr.2, ?_⟩, ?_⟩
      · show Function.update st.data u (some ptr) u = _
        rw [Function.update_self, ← hptr]
      · show (st.store.stage env u).2.experts.Recent _ _
        rw [hexperts]
        exact ExpertCache.recent_self c hself
    · have hdone : u ∈ done := by simpa [hid] using hu
      rcases h.blocks u hdone with ⟨b', hb', hb'id, ⟨n, hdata⟩, hrecent⟩
      have hstore : (st.store.settle env).2 = st.store := by rw [Store.settle_idle (h.idle (List.ne_nil_of_mem hdone))]
      rw [hstore] at hhot hkeeps
      have hfew' : (done ++ [id]).length ≤ kMaxHot := by
        simp only [List.length_append, List.length_cons, List.length_nil] at hfew ⊢
        omega
      have hrecent' := hrecent.mono (List.subset_append_left done [id])
      refine ⟨b', ?_, hb'id, ⟨n, ?_⟩, ?_⟩
      · show b' ∈ (st.store.stage env id).2.experts.store
        rw [hexperts]
        exact hkeeps b' hb' (hb'id ▸ hid) (hb'id ▸ hrecent.isHot)
      · exact (Function.update_of_ne hid ..).trans hdata
      · show (st.store.stage env id).2.experts.Recent _ _
        rw [hexperts]
        rcases hhot with hhot | hhot
        · exact (hrecent'.of_hot hhot).markHot hself hid hfew'
        · exact ((hrecent'.markHot hself hid hfew').of_hot hhot).markHot hself hid hfew'

theorem stageAll_inCache : ∀ {todo done later : List TensorId} {st st' : Streams}, InCache st done (todo ++ later) →
    st.store.Inv env weight → (done ++ (todo ++ later)).Nodup → (done ++ (todo ++ later)).length ≤ kMaxHot →
    (∀ id ∈ todo, ∃ p, st.store.placement id = some p ∧ p.expert = true ∧ 0 < p.bytes) → StageTags env st (todo ++ later) →
    stageAll env st todo = (.ok (), st') → InCache st' (done ++ todo) later ∧ StageTags env st' later := by
  intro todo
  induction todo with
  | nil =>
    intro done later st st' h _ _ _ _ htags hrun
    obtain rfl : st = st' := congrArg Prod.snd hrun
    rw [List.append_nil]
    exact ⟨h, htags⟩
  | cons id todo ih =>
    intro done later st st' h hinv hnodup hfew hexpert htags hrun
    cases hstage : (st.store.stage env id).1 with
    | error e =>
      rw [stageAll_cons_error hstage] at hrun
      cases hrun
    | ok ptr =>
      rw [stageAll_cons_ok hstage] at hrun
      rcases Store.stage_spec hinv (.inl rfl) (fun hr => Store.Spares.nothing (htags.1 hr)) with ⟨hinv', hplaced, -, -⟩
      have hnext := h.stage hinv hnodup hfew (hexpert id List.mem_cons_self) htags.1 hstage
      have hassoc : ∀ l : List TensorId, done ++ [id] ++ l = done ++ id :: l := fun l => by simp
      rw [← hassoc todo]
      refine ih hnext hinv' (by rwa [hassoc]) (by rwa [hassoc]) (fun u hu => ?_) (htags.2 ptr hstage) hrun
      rcases hexpert u (List.mem_cons_of_mem _ hu) with ⟨p, hp, he⟩
      refine ⟨p, ?_, he⟩
      show (st.store.stage env id).2.placement u = some p
      rw [Store.placement, hplaced]
      exact hp

/-- What is in the cache is out of reach of the slots, and of making room. -/
theorem InCache.spares {st : Streams} {done later : List TensorId} (h : InCache st done later) {slot : Fin 2} {id : TensorId}
    (later' : List TensorId) (hload : st.store.LoadSafe env slot id) : st.store.Spares env (st.held done later') slot id := by
  have hheld : ∀ q ∈ st.held done later', ∃ b ∈ st.store.experts.store, q = .block b.addr ∧ st.store.experts.isHot b.id = true := by
    intro q hq
    rcases List.mem_filterMap.mp hq with ⟨u, hu, hptr⟩
    rcases h.blocks u (List.mem_filter.mp hu).1 with ⟨b, hb, rfl, ⟨n, hdata⟩, hrecent⟩
    rw [hdata] at hptr
    exact ⟨b, hb, (Option.some.inj hptr).symm, hrecent.isHot⟩
  refine ⟨hload, fun hslot => ?_, fun p _ _ _ a ha => ?_⟩
  · rcases hheld _ hslot with ⟨b, -, hq, -⟩
    cases hq
  · rcases hheld _ ha with ⟨b, hb, hq, hhot⟩
    cases hq
    exact ⟨b, ExpertCache.makeRoom_hot hb hhot, rfl⟩

/-- With at most `kMaxHot` matrices, none of them in a staging buffer before, a node keeps what
    it has staged: for three matrices an expert, up to ten experts. -/
theorem opSafe_of_fresh {st : Streams} {op : Op R K} (hinv : st.store.Inv env weight) (htags : StepTags ps env st (.op op))
    (hfresh : FreshExperts st.store (stagedInputs ps st.store op.node op.probs)) : OpSafe ps env st op := by
  have hstart : ∀ ids, ids = stagedInputs ps st.store op.node op.probs → InCache st [] ids := by
    rintro ids rfl
    exact ⟨fun h => absurd rfl h, hfresh.slots, hfresh.pending, fun u hu => by cases hu⟩
  refine ⟨fun done id later st' hsplit hrun hre => ?_, fun st' hrun id hid => ?_⟩
  · have hnodup := hfresh.nodup
    have hfew := hfresh.few
    have htags' := htags.1
    rw [hsplit] at hnodup hfew htags'
    have hexpert : ∀ u ∈ done, ∃ p, st.store.placement u = some p ∧ p.expert = true ∧ 0 < p.bytes :=
      fun u hu => hfresh.expert u (by rw [hsplit]; exact List.mem_append_left _ hu)
    rcases stageAll_inCache (hstart _ hsplit.symm) hinv hnodup hfew hexpert htags' hrun with ⟨hcache, hlater⟩
    by_cases hdone : done = []
    · subst hdone
      exact Store.Spares.nothing (hlater.1 hre)
    · have hidle : st'.store.settle env = (.ok (), st'.store) := Store.settle_idle (hcache.idle hdone)
      rw [hidle]
      have hload := hlater.1 hre
      rw [hidle] at hload
      exact hcache.spares _ hload
  · have hall : stagedInputs ps st.store op.node op.probs = stagedInputs ps st.store op.node op.probs ++ [] :=
      (List.append_nil _).symm
    have hnodup := hfresh.nodup
    have hfew := hfresh.few
    have htags' := htags.1
    rw [hall] at hnodup hfew htags'
    rcases stageAll_inCache (hstart _ hall.symm) hinv hnodup hfew hfresh.expert htags' hrun with ⟨hcache, -⟩
    exact hcache.spares [] (htags.2 st' hrun id hid)

theorem stageTags_of_loads (hload : ∀ k id uri n buf, (env k id uri n buf).1 = .ok ()) : ∀ (ids : List TensorId) (st : Streams),
    StageTags env st ids := by
  intro ids
  induction ids with
  | nil => exact fun _ => trivial
  | cons id rest ih => exact fun st => ⟨fun _ => .inr fun p _ _ => hload .., fun ptr _ => ih _⟩

/-! ## Twelve experts -/

/-- Of three matrices of one byte each, with a cache of 32 bytes. -/
def twelvePlan : StoragePlan :=
  ⟨(List.range 36).map fun i => ⟨i + 1, "expert", .disk, true, true, 1, "model.gguf#expert"⟩, [], 0, 36, 1, 1, 32, 0, true⟩

def twelveExperts : Node Rat :=
  ⟨1, "moe", "MoEExpertsSwiGLU", "1.0", 100 :: 101 :: (List.range 36).map (· + 1), [102],
    [⟨"num_experts", .int 12⟩, ⟨"top_k", .int 1⟩]⟩

/-- The node with rows routed to these experts. -/
def routesTo (es : List Nat) : Op Rat Rat :=
  ⟨twelveExperts, none, some (es.flatMap fun e => (List.range 12).map fun i => if i = e then 1 else 0)⟩

/-- Two rows go to one expert, whose matrices are staged. -/
theorem two_rows_one_expert : RoutedLive (fullSort Rat) pairWeight (Store.configure twelvePlan)
    (runOp (fullSort Rat) pairLoader (init twelvePlan) (routesTo [3, 3])).2.store
    (runOp (fullSort Rat) pairLoader (init twelvePlan) (routesTo [3, 3])).2.data twelveExperts ((routesTo [3, 3]).probs.getD []) 2 := by
  have hload : ∀ k id uri n buf, (pairLoader k id uri n buf).1 = .ok () := fun _ _ _ _ _ => rfl
  have hfaithful : Faithful pairLoader pairWeight (Store.configure twelvePlan).placements := pairLoader_ok (by decide)
  have hfresh : FreshExperts (Store.configure twelvePlan)
      (stagedInputs (fullSort Rat) (Store.configure twelvePlan) twelveExperts (routesTo [3, 3]).probs) := by
    have hids : stagedInputs (fullSort Rat) (Store.configure twelvePlan) twelveExperts (routesTo [3, 3]).probs = [10, 11, 12] := by
      decide +kernel
    rw [hids]
    exact ⟨by decide, by decide, by decide, by decide, nofun⟩
  have hsafe : OpSafe (fullSort Rat) pairLoader (init twelvePlan) (routesTo [3, 3]) :=
    opSafe_of_fresh (Store.configure_inv hfaithful) ⟨stageTags_of_loads hload _ _, fun _ _ id hid => by cases hid⟩ hfresh
  have hrun : runOp (fullSort Rat) pairLoader (init twelvePlan) (routesTo [3, 3]) =
      (.ok (), (runOp (fullSort Rat) pairLoader (init twelvePlan) (routesTo [3, 3])).2) := Prod.ext (by decide +kernel) rfl
  have htags : RunTags (fullSort Rat) pairLoader (init twelvePlan) ([] : List (Event Rat Rat)) := trivial
  exact (routed_experts_live_iff hfaithful htags rfl ⟨by decide, by decide, by decide +kernel⟩ hsafe hrun).mpr (by decide +kernel) _
    .before

/-- The experts one after the other, and then a row each for the last and the first. -/
def afterTwelve : Result Unit × Streams :=
  runOp (fullSort Rat) pairLoader (run (fullSort Rat) pairLoader (init twelvePlan) ((List.range 12).map fun e => .op (routesTo [e])))
    (routesTo [11, 0])

/-- The first expert's gate is gone. Its pointer is not null, and the kernel reads there. -/
theorem second_row_reads_evicted : ∃ ptr, afterTwelve.1 = .ok () ∧
    1 ∈ routedMats (fullSort Rat) twelveExperts ((routesTo [11, 0]).probs.getD []) 1 ∧
    afterTwelve.2.data 1 = some ptr ∧ afterTwelve.2.store.read ptr = none :=
  ⟨(.block 0, 1), by decide +kernel⟩

end Uaii.Runtime.Streams
