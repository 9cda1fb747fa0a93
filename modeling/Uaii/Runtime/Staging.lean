/-
  Uaii.Runtime.Staging — `Session::stage_streamed_inputs` and what `Session::run` does
  with the streaming store around it (`libs/uaii-runtime/src/session.cpp`), on the host
  path.

  Before an op its streamed inputs are staged in order, each getting a pointer; of a
  listed MoE node only the experts that row 0 is routed to. Then the next op's inputs
  are prefetched, and the kernel reads through the pointers while the prefetch may run.
  A run is a list of ops and of moments at which a prefetch completes; an op that fails
  leaves its state to the next.

  A pointer of an earlier input goes bad when a later stage of the same op, or the
  prefetch, writes its slot or evicts its block. `staged_inputs_valid`: in a run where
  none does, every staged input reads as its weight from its staging to the end of its
  kernel. A node of two dense weights loses the first (`second_input_overwrites`).
-/

import Mathlib.Algebra.Order.Field.Rat
import Uaii.Kernels.Moe
import Uaii.Storage.Streaming

namespace Uaii.Runtime

open Uaii.Ir Uaii.Kernels Uaii.Storage
open Uaii.Planner (StoragePlacement StoragePlan)

variable {R : Type}

/-- `static_cast<int>`. -/
def toI32 (n : Int) : Int := (n + 2 ^ 31) % 2 ^ 32 - 2 ^ 31

/-- `node_int_attr`. -/
def nodeIntAttr (n : Node R) (key : String) (dflt : Int) : Int :=
  (n.attributes.findSome? fun a =>
    match a.value with
    | .int i => if a.key = key then some i else none
    | _ => none).getD dflt

def numExperts (n : Node R) : Int := toI32 (nodeIntAttr n "num_experts" 0)

/-- The inputs are `x`, `probs` and three matrices for every expert. -/
def isListedMoe (n : Node R) : Bool :=
  n.opName == "MoEExpertsSwiGLU" && toI32 n.inputs.length == 2 + 3 * numExperts n

structure Streams where
  store : Store
  /-- `buffers_[tid].data` and its size, of the streamed tensors. -/
  data : TensorId → Option (Ptr × Nat)

namespace Streams

section Ops

variable {K : Type} [Field K] [LinearOrder K] (ps : PartialSort K)

/-- `moe_keep`: the matrices of the experts that row 0 is routed to; none without `probs`. -/
def moeKeep (n : Node R) (probs : Option (List K)) : List TensorId :=
  match probs with
  | none => []
  | some P =>
    let E := (numExperts n).toNat
    let topk := toI32 (nodeIntAttr n "top_k" 2)
    (ranked ps P E (topCount topk E) 0).flatMap fun t =>
      [n.inputs.getD (2 + 3 * t.2) 0, n.inputs.getD (2 + 3 * t.2 + 1) 0, n.inputs.getD (2 + 3 * t.2 + 2) 0]

/-- The inputs that are staged, in order. -/
def stagedInputs (s : Store) (n : Node R) (probs : Option (List K)) : List TensorId :=
  let moeListed := 0 < numExperts n ∧ isListedMoe n
  n.inputs.filter fun tid => s.isStreamed tid && !(moeListed && s.isExpert tid && !(moeKeep ps n probs).contains tid)

def stageAll (env : Loader) (st : Streams) : List TensorId → Result Unit × Streams
  | [] => (.ok (), st)
  | tid :: rest =>
    let r := st.store.stage env tid
    match r.1 with
    | .error e => (.error e, { st with store := r.2 })
    | .ok ptr => stageAll env ⟨r.2, Function.update st.data tid (some ptr)⟩ rest

/-- `stage_streamed_inputs`; `probs` is what the node's second input holds. -/
def stageStreamedInputs (env : Loader) (st : Streams) (n : Node R) (probs : Option (List K)) : Result Unit × Streams :=
  stageAll env st (stagedInputs ps st.store n probs)

def prefetchInputs (s : Store) (next : Option (Node R)) : List TensorId :=
  match next with
  | none => []
  | some n => n.inputs.filter fun tid => s.isStreamed tid && !(isListedMoe n && s.isExpert tid)

def prefetchAll (s : Store) (ids : List TensorId) : Store := ids.foldl Store.prefetch s

/-- An op of the plan, the one after it, and the router's probabilities. -/
structure Op (R K : Type) where
  node : Node R
  next : Option (Node R)
  probs : Option (List K)

/-- An op up to its kernel. -/
def runOp (env : Loader) (st : Streams) (op : Op R K) : Result Unit × Streams :=
  let r := stageStreamedInputs ps env st op.node op.probs
  match r.1 with
  | .error e => (.error e, r.2)
  | .ok _ => (.ok (), { r.2 with store := prefetchAll r.2.store (prefetchInputs r.2.store op.next) })

inductive Event (R K : Type) where
  | op (op : Op R K)
  /-- The pending prefetch completes. -/
  | complete

def step (env : Loader) (st : Streams) : Event R K → Streams
  | .op op => (runOp ps env st op).2
  | .complete => { st with store := st.store.complete env }

def run (env : Loader) (st : Streams) (events : List (Event R K)) : Streams := events.foldl (step ps env) st

def init (plan : StoragePlan) : Streams := ⟨.configure plan, fun _ => none⟩

/-! ## When nothing in use is overwritten -/

/-- The pointers of the inputs staged so far that are not staged again. -/
def held (st : Streams) (done later : List TensorId) : List Ptr :=
  (done.filter fun u => !later.contains u).filterMap fun u => (st.data u).map (·.1)

/-- What `prefetch` would launch, of the next op's inputs. -/
def launched (s : Store) (ids : List TensorId) : Option TensorId := ids.find? s.canPrefetch

/-- Neither a stage of the op that reloads nor the prefetch after it touches what an
    earlier input points to. -/
structure OpSafe (env : Loader) (st : Streams) (op : Op R K) : Prop where
  stage : ∀ done id later st', stagedInputs ps st.store op.node op.probs = done ++ id :: later →
    stageAll env st done = (.ok (), st') → st'.store.reloads env id →
    (st'.store.settle env).2.Spares env (st'.held done (id :: later)) (st'.store.settle env).2.active id
  prefetch : ∀ st', stageStreamedInputs ps env st op.node op.probs = (.ok (), st') →
    ∀ id ∈ launched st'.store (prefetchInputs st'.store op.next),
      st'.store.Spares env (st'.held (stagedInputs ps st.store op.node op.probs) []) (1 - st'.store.active) id

def StepSafe (env : Loader) (st : Streams) : Event R K → Prop
  | .op op => OpSafe ps env st op
  | .complete => True

def SafeRun (env : Loader) (st : Streams) : List (Event R K) → Prop
  | [] => True
  | e :: es => StepSafe ps env st e ∧ SafeRun env (step ps env st e) es

end Ops

/-! ## One op -/

variable {env : Loader} {weight : TensorId → Bytes} {st st' : Streams}

/-- An input's pointer reads as its weight. -/
def Valid (weight : TensorId → Bytes) (s : Store) (data : TensorId → Option (Ptr × Nat)) (u : TensorId) : Prop :=
  ∃ ptr, data u = some ptr ∧ s.Holds weight ptr u

theorem mem_held {done later : List TensorId} {u : TensorId} {ptr : Ptr × Nat} (hu : u ∈ done) (hl : u ∉ later)
    (hd : st.data u = some ptr) : ptr.1 ∈ st.held done later := by
  refine List.mem_filterMap.mpr ⟨u, List.mem_filter.mpr ⟨hu, by simpa using hl⟩, ?_⟩
  rw [hd]
  rfl

/-- One input staged. -/
def staged (env : Loader) (st : Streams) (id : TensorId) (ptr : Ptr × Nat) : Streams :=
  ⟨(st.store.stage env id).2, Function.update st.data id (some ptr)⟩

theorem stageAll_cons_ok {id : TensorId} {rest : List TensorId} {ptr : Ptr × Nat}
    (h : (st.store.stage env id).1 = .ok ptr) :
    stageAll env st (id :: rest) = stageAll env (st.staged env id ptr) rest := by
  simp only [stageAll, h, staged]

theorem stageAll_cons_error {id : TensorId} {rest : List TensorId} {e : Fault}
    (h : (st.store.stage env id).1 = .error e) :
    stageAll env st (id :: rest) = (.error e, { st with store := (st.store.stage env id).2 }) := by
  simp only [stageAll, h]

theorem stageAll_append {done rest : List TensorId} : ∀ {st : Streams}, stageAll env st done = (.ok (), st') →
    stageAll env st (done ++ rest) = stageAll env st' rest := by
  induction done with
  | nil =>
    intro st h
    obtain rfl : st = st' := congrArg Prod.snd h
    rfl
  | cons id done ih =>
    intro st h
    rw [List.cons_append]
    cases hstage : (st.store.stage env id).1 with
    | error e =>
      rw [stageAll_cons_error hstage] at h
      cases h
    | ok ptr =>
      rw [stageAll_cons_ok hstage] at h ⊢
      exact ih h

/-- The inputs from `later` on, those before being staged and valid. -/
theorem stageAll_spec {st₀ : Streams} (all : List TensorId)
    (hsafe : ∀ done id later st', all = done ++ id :: later → stageAll env st₀ done = (.ok (), st') →
      st'.store.reloads env id →
      (st'.store.settle env).2.Spares env (st'.held done (id :: later)) (st'.store.settle env).2.active id) :
    ∀ (later done : List TensorId) (st : Streams), all = done ++ later → stageAll env st₀ done = (.ok (), st) →
      st.store.Inv env weight → (done = [] ∨ st.store.prefetchFut = none) →
      (∀ u ∈ done, u ∉ later → Valid weight st.store st.data u) →
      (stageAll env st later).2.store.Inv env weight ∧
        ((stageAll env st later).1 = .ok () →
          (all = [] ∨ (stageAll env st later).2.store.prefetchFut = none) ∧
          ∀ u ∈ all, Valid weight (stageAll env st later).2.store (stageAll env st later).2.data u) := by
  intro later
  induction later with
  | nil =>
    intro done st hall hdone hinv hidle hvalid
    rw [List.append_nil] at hall
    subst hall
    exact ⟨hinv, fun _ => ⟨hidle, fun u hu => hvalid u hu List.not_mem_nil⟩⟩
  | cons id later ih =>
    intro done st hall hdone hinv hidle hvalid
    have hheld : st.held done (id :: later) = [] ∨ st.store.prefetchFut = none := by
      rcases hidle with rfl | hidle
      · exact Or.inl rfl
      · exact Or.inr hidle
    obtain ⟨hinv', -, hkeep, hok⟩ := Store.stage_spec hinv hheld (hsafe done id later st hall hdone)
    cases hstage : (st.store.stage env id).1 with
    | error e =>
      rw [stageAll_cons_error hstage]
      exact ⟨hinv', nofun⟩
    | ok ptr =>
      have hone : stageAll env st [id] = (.ok (), st.staged env id ptr) := stageAll_cons_ok hstage
      obtain ⟨hidle', hholds⟩ := hok ptr hstage
      rw [stageAll_cons_ok hstage]
      refine ih (done ++ [id]) _ (by simp [hall]) ((stageAll_append hdone).trans hone) hinv' (Or.inr hidle') ?_
      intro u hu hlater
      by_cases hid : u = id
      · subst hid
        exact ⟨ptr, Function.update_self .., hholds⟩
      · have hudone : u ∈ done := by
          rcases List.mem_append.mp hu with hu | hu
          · exact hu
          · exact absurd (List.mem_singleton.mp hu) hid
        have hnot : u ∉ id :: later := by
          intro hmem
          rcases List.mem_cons.mp hmem with h | h
          · exact hid h
          · exact hlater h
        obtain ⟨⟨p, n⟩, hdata, hread⟩ := hvalid u hudone hnot
        exact ⟨(p, n), (Function.update_of_ne hid ..).trans hdata, hkeep p (mem_held hudone hnot hdata) n u hread⟩

/-- At most one of the prefetches launches a task. -/
theorem prefetchAll_eq {ids : List TensorId} : ∀ {s : Store}, prefetchAll s ids =
    match launched s ids with
    | none => s
    | some id => { s with prefetchFut := some ⟨1 - s.active, id, none⟩ } := by
  have hbusy : ∀ (ids : List TensorId) (s : Store), s.prefetchFut.isSome = true → prefetchAll s ids = s := by
    intro ids
    induction ids with
    | nil => intro s _; rfl
    | cons id ids ih =>
      intro s hs
      have hno : s.canPrefetch id = false := by simp [Store.canPrefetch, Option.isNone_eq_false_iff.mpr hs]
      have hstep : s.prefetch id = s := by simp [Store.prefetch, hno]
      rw [prefetchAll, List.foldl_cons, hstep]
      exact ih s hs
  induction ids with
  | nil => intro s; rfl
  | cons id ids ih =>
    intro s
    rw [prefetchAll, List.foldl_cons, launched, List.find?_cons]
    cases hcan : s.canPrefetch id with
    | false =>
      have hstep : s.prefetch id = s := by simp [Store.prefetch, hcan]
      rw [hstep]
      exact ih
    | true =>
      have hstep : s.prefetch id = { s with prefetchFut := some ⟨1 - s.active, id, none⟩ } := by
        simp [Store.prefetch, hcan]
      rw [hstep]
      exact hbusy ids _ rfl

theorem launched_some {s : Store} {ids : List TensorId} {id : TensorId} (h : launched s ids = some id) :
    s.canPrefetch id = true := List.find?_some h

section Run

variable {K : Type} [Field K] [LinearOrder K] {ps : PartialSort K}

theorem stage_spec {op : Op R K} (hinv : st.store.Inv env weight) (hsafe : OpSafe ps env st op) :
    let r := stageStreamedInputs ps env st op.node op.probs
    r.2.store.Inv env weight ∧ (r.1 = .ok () →
      (stagedInputs ps st.store op.node op.probs = [] ∨ r.2.store.prefetchFut = none) ∧
        ∀ u ∈ stagedInputs ps st.store op.node op.probs, Valid weight r.2.store r.2.data u) :=
  stageAll_spec (stagedInputs ps st.store op.node op.probs) hsafe.stage _ [] st rfl rfl hinv (Or.inl rfl) nofun

/-- The launched task is one that `held` is spared by. -/
theorem prefetched {s : Store} {ids : List TensorId} {ptrs : List Ptr}
    (hsafe : ∀ id ∈ launched s ids, s.Spares env ptrs (1 - s.active) id) (hidle : s.prefetchFut = none) :
    ∀ t ∈ (prefetchAll s ids).prefetchFut, t.result = none →
      (prefetchAll s ids).Spares env ptrs t.slot t.id := by
  rw [prefetchAll_eq]
  cases hl : launched s ids with
  | none =>
    intro t ht
    simp [hidle] at ht
  | some id =>
    intro t ht _
    obtain rfl := Option.some.inj ht
    obtain ⟨hload, hslot, hblock⟩ := hsafe id hl
    exact ⟨hload, hslot, hblock⟩

theorem prefetchAll_inv {s : Store} {ids : List TensorId} (hinv : s.Inv env weight)
    (hsafe : ∀ id ∈ launched s ids, s.LoadSafe env (1 - s.active) id) : (prefetchAll s ids).Inv env weight := by
  have heq : prefetchAll s ids = (match launched s ids with | none => s | some id => s.prefetch id) := by
    rw [prefetchAll_eq]
    cases hl : launched s ids with
    | none => rfl
    | some id => simp [Store.prefetch, launched_some hl]
  rw [heq]
  cases hl : launched s ids with
  | none => exact hinv
  | some id => exact Store.prefetch_inv hinv fun _ => hsafe id hl

theorem prefetchAll_holds {s : Store} {ids : List TensorId} {ptr : Ptr × Nat} {u : TensorId}
    (h : s.Holds weight ptr u) : (prefetchAll s ids).Holds weight ptr u := by
  rw [prefetchAll_eq]
  cases launched s ids with
  | none => exact h
  | some id => exact h

/-- One op: the store's invariant, and every staged input valid at every moment of the kernel. -/
theorem runOp_spec {op : Op R K} (hinv : st.store.Inv env weight) (hsafe : OpSafe ps env st op) :
    (runOp ps env st op).2.store.Inv env weight ∧ ((runOp ps env st op).1 = .ok () →
      ∀ m, Moment env (runOp ps env st op).2.store m →
        ∀ u ∈ stagedInputs ps st.store op.node op.probs, Valid weight m (runOp ps env st op).2.data u) := by
  obtain ⟨hinv', hok⟩ := stage_spec hinv hsafe
  unfold runOp
  cases hstage : stageStreamedInputs ps env st op.node op.probs with
  | mk r st' =>
  rw [hstage] at hinv' hok
  cases r with
  | error e => exact ⟨hinv', nofun⟩
  | ok _ =>
    dsimp only
    have hpre := hsafe.prefetch st' hstage
    have hinv'' := prefetchAll_inv hinv' fun id hid => (hpre id hid).load_safe
    refine ⟨hinv'', fun _ m hm u hu => ?_⟩
    obtain ⟨hidle, hvalid⟩ := hok rfl
    have hidle : st'.store.prefetchFut = none := by
      rcases hidle with hnil | hidle
      · rw [hnil] at hu
        cases hu
      · exact hidle
    have htask := prefetched hpre hidle
    obtain ⟨⟨p, n⟩, hdata, hread⟩ := hvalid u hu
    have hheld := mem_held hu (List.not_mem_nil : u ∉ []) hdata
    have hread : (prefetchAll st'.store (prefetchInputs st'.store op.next)).Holds weight (p, n) u := prefetchAll_holds hread
    refine ⟨(p, n), hdata, ?_⟩
    cases hm with
    | before => exact hread
    | during t junk ht hrun =>
      exact hread.write hheld (htask t ht hrun).slot_free hinv''.ok.experts (fun b hb _ => hb) _ junk
    | after => exact Store.complete_holds hinv'' htask hheld hread

theorem step_inv {e : Event R K} (hinv : st.store.Inv env weight) (hsafe : StepSafe ps env st e) :
    (step ps env st e).store.Inv env weight := by
  cases e with
  | op op => exact (runOp_spec hinv hsafe).1
  | complete => exact (Store.complete_inv hinv).1

/-- In a run that overwrites nothing in use, every op finds its staged inputs' weights. -/
theorem run_valid : ∀ (events : List (Event R K)) (st : Streams), st.store.Inv env weight → SafeRun ps env st events →
    ∀ before op after, events = before ++ .op op :: after → (runOp ps env (run ps env st before) op).1 = .ok () →
      ∀ m, Moment env (runOp ps env (run ps env st before) op).2.store m →
        ∀ u ∈ stagedInputs ps (run ps env st before).store op.node op.probs,
          Valid weight m (runOp ps env (run ps env st before) op).2.data u := by
  intro events
  induction events with
  | nil => intro st _ _ before op after he; cases before <;> cases he
  | cons e events ih =>
    intro st hinv hsafe before op after he
    cases before with
    | nil =>
      obtain ⟨rfl, rfl⟩ := List.cons.inj he
      exact (runOp_spec hinv hsafe.1).2
    | cons e' before =>
      obtain ⟨rfl, rfl⟩ := List.cons.inj he
      exact ih _ (step_inv hinv hsafe.1) hsafe.2 before op after rfl

theorem staged_inputs_valid {plan : StoragePlan} (hfaithful : Faithful env weight (Store.configure plan).placements)
    {events : List (Event R K)} (hsafe : SafeRun ps env (init plan) events) {before after : List (Event R K)}
    {op : Op R K} (he : events = before ++ .op op :: after) {st : Streams}
    (hrun : runOp ps env (run ps env (init plan) before) op = (.ok (), st)) {m : Store} (hm : Moment env st.store m)
    {tid : TensorId} (htid : tid ∈ stagedInputs ps (run ps env (init plan) before).store op.node op.probs) :
    ∃ ptr, st.data tid = some ptr ∧ m.read ptr = some (weight tid) := by
  have hinv := Store.configure_inv hfaithful
  have hvalid := run_valid events (init plan) hinv hsafe before op after he (by rw [hrun])
  rw [hrun] at hvalid
  exact hvalid m hm tid htid

/-! ## One tensor -/

theorem stageAll_snoc {done : List TensorId} {id : TensorId} {st st' : Streams}
    (h : stageAll env st (done ++ [id]) = (.ok (), st')) :
    ∃ st₁ ptr, stageAll env st done = (.ok (), st₁) ∧ (st₁.store.stage env id).1 = .ok ptr ∧ st' = st₁.staged env id ptr := by
  induction done generalizing st with
  | nil =>
    cases hstage : (st.store.stage env id).1 with
    | error e =>
      rw [List.nil_append, stageAll_cons_error hstage] at h
      cases h
    | ok ptr =>
      rw [List.nil_append, stageAll_cons_ok hstage] at h
      exact ⟨st, ptr, rfl, hstage, (congrArg Prod.snd h).symm⟩
  | cons u done ih =>
    rw [List.cons_append] at h
    cases hstage : (st.store.stage env u).1 with
    | error e =>
      rw [stageAll_cons_error hstage] at h
      cases h
    | ok ptr =>
      rw [stageAll_cons_ok hstage] at h
      obtain ⟨st₁, ptr', hdone, hlast, rfl⟩ := ih h
      exact ⟨st₁, ptr', (stageAll_cons_ok hstage).trans hdone, hlast, rfl⟩

/-- An op that streams one tensor is safe when no load fails. -/
theorem opSafe_of_single {op : Op R K} {t : TensorId}
    (hall : ∀ u ∈ stagedInputs ps st.store op.node op.probs, u = t) (hload : ∀ k id uri n buf, (env k id uri n buf).1 = .ok ()) :
    OpSafe ps env st op := by
  have hsafe : ∀ (s : Store) slot id, s.LoadSafe env slot id := fun s slot id => Or.inr fun p _ _ => hload ..
  refine ⟨fun done id later st' hsplit _ _ => ?_, fun st' hstage id _ => ?_⟩
  · have hnone : st'.held done (id :: later) = [] := by
      rw [held, List.filter_eq_nil_iff.mpr, List.filterMap_nil]
      intro u hu
      have hut := hall u (by rw [hsplit]; exact List.mem_append_left _ hu)
      have hidt := hall id (by rw [hsplit]; exact List.mem_append_right _ List.mem_cons_self)
      simp [hut, hidt]
    rw [hnone]
    exact Store.Spares.nothing (hsafe ..)
  · rcases List.eq_nil_or_concat (stagedInputs ps st.store op.node op.probs) with hnil | ⟨done, u, hsplit⟩
    · rw [hnil]
      exact Store.Spares.nothing (hsafe ..)
    · have hsplit : stagedInputs ps st.store op.node op.probs = done ++ [u] := by rw [hsplit, List.concat_eq_append]
      obtain rfl := hall u (by rw [hsplit]; exact List.mem_append_right _ List.mem_cons_self)
      have hrun : stageAll env st (done ++ [u]) = (.ok (), st') := hsplit ▸ hstage
      obtain ⟨st₁, ptr, -, hlast, rfl⟩ := stageAll_snoc hrun
      have hheld : ∀ p ∈ (st₁.staged env u ptr).held (stagedInputs ps st.store op.node op.probs) [], p = ptr.1 := by
        intro p hp
        obtain ⟨v, hv, hvp⟩ := List.mem_filterMap.mp hp
        obtain rfl := hall v (List.mem_filter.mp hv).1
        simpa [staged, eq_comm] using hvp
      refine ⟨hsafe .., fun hslot => ?_, fun q _ _ _ a ha => ?_⟩
      · rcases Store.stage_ptr hlast with hptr | ⟨b, -, hptr, -⟩
        · have hact := (hheld _ hslot).trans hptr
          simp only [staged, Ptr.slot.injEq] at hact
          omega
        · have hact := (hheld _ hslot).trans hptr
          cases hact
      · rcases Store.stage_ptr hlast with hptr | ⟨b, hb, hptr, hhot⟩
        · have hact := (hheld _ ha).trans hptr
          cases hact
        · have hact := (hheld _ ha).trans hptr
          obtain rfl := Ptr.block.inj hact
          exact ⟨b, ExpertCache.makeRoom_hot hb hhot, rfl⟩

end Run

/-! ## Two weights -/

def layerNorm : Node Rat := ⟨1, "ln", "LayerNorm", "1.0", [3, 1, 2], [4], []⟩

/-- A LayerNorm with both its weights streamed: where it runs, the weight's bytes are not
    the weight's. -/
def SecondOverwrites (slots : Int) : Prop := ∃ ptr,
  Faithful pairLoader pairWeight (Store.configure (pairPlan slots)).placements ∧
  1 ∈ stagedInputs (fullSort Rat) (Store.configure (pairPlan slots)) layerNorm none ∧
  (runOp (fullSort Rat) pairLoader (init (pairPlan slots)) ⟨layerNorm, none, none⟩).1 = .ok () ∧
  (runOp (fullSort Rat) pairLoader (init (pairPlan slots)) ⟨layerNorm, none, none⟩).2.data 1 = some ptr ∧
  (runOp (fullSort Rat) pairLoader (init (pairPlan slots)) ⟨layerNorm, none, none⟩).2.store.read ptr ≠ some (pairWeight 1)

/-- With one staging buffer, and with two. -/
theorem second_input_overwrites : SecondOverwrites 1 ∧ SecondOverwrites 2 :=
  ⟨⟨(.slot 0, 1), pairLoader_faithful 1, by decide⟩, ⟨(.slot 0, 1), pairLoader_faithful 2, by decide⟩⟩

def scale : Node Rat := ⟨1, "scale", "Mul", "1.0", [3, 1], [4], []⟩
def shift : Node Rat := ⟨2, "shift", "Add", "1.0", [4, 2], [5], []⟩

/-- The same weights in two ops, the second prefetched during the first. -/
def twoOps : List (Event Rat Rat) := [.op ⟨scale, some shift, none⟩, .complete]

theorem shift_reads_its_weight : ∃ ptr,
    (runOp (fullSort Rat) pairLoader (run (fullSort Rat) pairLoader (init (pairPlan 2)) twoOps) ⟨shift, none, none⟩).2.data 2 =
      some ptr ∧
    (runOp (fullSort Rat) pairLoader (run (fullSort Rat) pairLoader (init (pairPlan 2)) twoOps)
      ⟨shift, none, none⟩).2.store.read ptr = some (pairWeight 2) := by
  have hload : ∀ k id uri n buf, (pairLoader k id uri n buf).1 = .ok () := fun _ _ _ _ _ => rfl
  have hsafe : SafeRun (fullSort Rat) pairLoader (init (pairPlan 2)) (twoOps ++ [.op ⟨shift, none, none⟩]) :=
    ⟨opSafe_of_single (t := 1) (by decide) hload, trivial, opSafe_of_single (t := 2) (by decide) hload, trivial⟩
  exact staged_inputs_valid (pairLoader_faithful 2) hsafe rfl (Prod.ext (by decide) rfl) .before (by decide)

end Streams

end Uaii.Runtime
