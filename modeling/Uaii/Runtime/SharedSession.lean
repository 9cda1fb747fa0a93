/-
  Uaii.Runtime.SharedSession — calls of `generate`, `request_cancel` and
  `on_memory_warning` on one session (`libs/uaii-runtime/src/session.cpp`).

  Tensors are places in the memory of the allocations (`MemoryMap`), and several of them
  may have the same. An operator reads its inputs from there and writes its outputs over
  what is there: all of what it fills when it succeeds, the first floats of it when it
  fails (`SharedSession`). A run is otherwise that of `Uaii.Runtime.FailedRun`, and a call
  that of `Uaii.Runtime.GenerateLoop`.

  What one call leaves to the next is the memory, the cache and the cancel flag. A pending
  drop of the cache is none of it: outside a run the drop is made at once.

  Proved: where the floats that operators read are written earlier in the same run, or by
  nothing at all, a call answers the same after any two histories (`answer_same`).
-/

import Uaii.Runtime.GenerateLoop

namespace Uaii.Runtime

open Uaii.Ir Uaii.Kernels

variable {R K G : Type}

/-! ## Memory -/

/-- Each tensor's allocation, and how many of its floats are the tensor's. -/
structure MemoryMap where
  cell : TensorId → Nat
  size : TensorId → Nat

namespace MemoryMap

variable (m : MemoryMap)

def read (mem : Nat → Nat → K) (t : TensorId) : List K := (List.range (m.size t)).map (mem (m.cell t))

/-- As many floats as there are, and as the tensor has. -/
def write (mem : Nat → Nat → K) (t : TensorId) (xs : List K) : Nat → Nat → K := fun c j =>
  if c = m.cell t ∧ j < m.size t then (xs[j]?).getD (mem c j) else mem c j

def writeAll (outs : TensorId → List K) : List TensorId → (Nat → Nat → K) → Nat → Nat → K
  | [], mem => mem
  | t :: ts, mem => writeAll outs ts (m.write mem t (outs t))

end MemoryMap

/-- The memory of the allocations, and the cache. -/
structure SharedState (K : Type) where
  mem : Nat → Nat → K
  cache : KvCache K

/-- The tensors' floats. -/
def SharedState.view (m : MemoryMap) (s : SharedState K) : KvSession K := ⟨m.read s.mem, s.cache⟩

/-- A session whose tensors have places in memory. -/
structure SharedSession (R K : Type) extends GenerateSession R K where
  map : MemoryMap
  /-- Floats of an output that an operator fills, by the operator's node. -/
  filled : NodeId → TensorId → Nat
  fills : ∀ op ∈ ops, ∀ floats c, (op.outcome buffers ⟨floats, c⟩).1 = .ok () →
    ∀ t ∈ op.outputs, ((op.outcome buffers ⟨floats, c⟩).2 t).length = filled op.nodeId t
  stops : ∀ op ∈ ops, ∀ floats c, ∀ t ∈ op.outputs, ((op.outcome buffers ⟨floats, c⟩).2 t).length ≤ filled op.nodeId t

/-! ## Running -/

section Run

variable (buffers : Nat → TensorView K) (m : MemoryMap)

/-- The append reads the memory that the kernel has written. -/
def KvOp.dispatchShared (op : KvOp K) (s : SharedState K) : Result Unit × SharedState K :=
  match op.outcome buffers (s.view m) with
  | (.error e, outs) => (.error e, ⟨m.writeAll outs op.outputs s.mem, s.cache⟩)
  | (.ok (), outs) =>
    let s : SharedState K := ⟨m.writeAll outs op.outputs s.mem, s.cache⟩
    ((op.append buffers (s.view m)).1, ⟨s.mem, (op.append buffers (s.view m)).2⟩)

def runPlanShared (o : Outside) : Nat → List (KvOp K) → SharedState K → Result Unit × SharedState K
  | _, [], s => (.ok (), s)
  | i, op :: rest, s =>
    match o.before i with
    | some e => (.error e, s)
    | none =>
      match op.dispatchShared buffers m s with
      | (.error e, s) => (.error (op.error e), s)
      | (.ok (), s) => runPlanShared o (i + 1) rest s

/-- `Session::run`. -/
def runShared (o : Outside) (ops : List (KvOp K)) (s : SharedState K) : Result Unit × SharedState K :=
  match o.start with
  | some e => (.error e, s)
  | none =>
    match runPlanShared buffers m o 0 ops s with
    | (.error e, s) => (.error e, s)
    | (.ok (), s) =>
      match o.synchronize with
      | some e => (.error e, s)
      | none =>
        let s := { s with cache := if s.cache.configured then s.cache.commitStep else s.cache }
        match o.trace with
        | some e => (.error e, s)
        | none => (.ok (), s)

end Run

/-! ## The call -/

structure SharedGen (K : Type) where
  session : SharedState K
  out : List Int
  /-- Calls of `run`. -/
  runs : Nat

namespace SharedSession

variable [Field K] [LinearOrder K] (s : SharedSession R K) (lib : SamplerLib K G) (env : GenerateEnv G)

def writeToken (st : SharedState K) (tokensId : TensorId) (token : Int) : Result (SharedState K) :=
  if (s.buffers tokensId).data.isNone then fail .notFound "tokens buffer missing"
  else if s.map.size tokensId = 0 then fail .invalidArgument "tokens buffer empty"
  else .ok { st with mem := s.map.write st.mem tokensId ((List.range (s.map.size tokensId)).map (tokenRow (s.map.size tokensId) token)) }

/-- `write_tokens_step` and `run`. -/
def feed (tokensId : TensorId) (st : SharedGen K) (token : Int) : Option Fault × SharedGen K :=
  match s.writeToken st.session tokensId token with
  | .error e => (some e, st)
  | .ok session =>
    let r := runShared s.buffers s.map (env.run st.runs) (opsFor session.cache s.ops) session
    let cache := if env.warned st.runs then r.2.cache.dropAll else r.2.cache
    let st : SharedGen K := ⟨{ r.2 with cache := cache }, st.out, st.runs + 1⟩
    match r.1 with
    | .error e => (some e, st)
    | .ok () => (none, st)

variable (limit : Option Int) (tokensId scoresId : TensorId) (call : GenerateCall K)

def prefillShared : List Int → SharedGen K → Option Exit × SharedGen K
  | [], st => (none, st)
  | token :: tokens, st =>
    match env.paused st.out.length with
    | some e => (some (.failed e), st)
    | none =>
      if limit.any (· < (st.out.length : Int) + 1) then (some (.exceeded "prefill"), st)
      else match s.feed env tokensId st token with
        | (some e, st) => (some (.failed e), st)
        | (none, st) => prefillShared tokens { st with out := st.out ++ [token] }

def decodeShared : Nat → G → SharedGen K → Exit × SharedGen K
  | 0, _, st => (.done, st)
  | remaining + 1, rng, st =>
    match env.paused st.out.length with
    | some e => (.failed e, st)
    | none =>
      if limit.any (· ≤ (st.out.length : Int)) then (.exceeded "decode", st)
      else match (st.session.view s.map).sampleToken lib s.buffers scoresId call.sample st.out rng with
        | .error e => (.failed e, st)
        | .ok (next, rng) =>
          let st : SharedGen K := { st with out := st.out ++ [next] }
          if call.onNewToken.any (fun f => !f st.out) then (.done, st)
          else if next ∈ call.stopTokenIds then (.done, st)
          else if remaining = 0 then (.done, st)
          else if limit.any (· ≤ (st.out.length : Int)) then (.exceeded "decode", st)
          else match s.feed env tokensId st next with
            | (some e, st) => (.failed e, st)
            | (none, st) => decodeShared remaining rng st

end SharedSession

def SharedGen.unscaled (st : SharedGen K) : SharedGen K :=
  { st with session := { st.session with cache := st.session.cache.setRopeScaleLen 0 } }

/-! ## Calls one after another -/

/-- What a session keeps between calls. -/
structure LiveSession (K : Type) where
  mem : Nat → Nat → K
  kv : Option (KvCache K)
  cancel : Bool

/-- `reject_if_paused` with the flag as the call finds it; else as the surroundings decide. -/
def rejectIfPaused (cancel : Bool) (outside : Option Fault) : Option Fault :=
  outside.or (if cancel then some (.error .invalidArgument "cancelled") else none)

/-- What the call meets when the flag is as it is. -/
def GenerateEnv.cancelled (env : GenerateEnv G) (cancel : Bool) : GenerateEnv G :=
  { env with
    entry := rejectIfPaused cancel env.entry
    paused := fun n => rejectIfPaused cancel (env.paused n)
    run := fun k => { env.run k with start := rejectIfPaused cancel (env.run k).start } }

/-- What a call is given: its arguments, its surroundings, and whether `request_cancel` came
    while it ran. -/
structure CallEvent (K G : Type) where
  call : GenerateCall K
  env : GenerateEnv G
  requested : Bool

inductive SessionEvent (K G : Type) where
  | generate (e : CallEvent K G)
  | requestCancel
  | onMemoryWarning

namespace SharedSession

variable [Field K] [LinearOrder K] (s : SharedSession R K) (lib : SamplerLib K G)

/-- The checks that come before `cancel_` is cleared. -/
def clears (call : GenerateCall K) : Bool := s.ready && call.promptTokens ≠ [] && 0 ≤ call.maxNewTokens

/-- The loops, on a cache for the call. -/
def loops (env : GenerateEnv G) (call : GenerateCall K) (tokensId scoresId : TensorId) (st : SharedState K) : Exit × SharedGen K :=
  let limit := contextLimit s.options s.graph
  match s.prefillShared env limit tokensId call.promptTokens ⟨st, [], 0⟩ with
  | (some exit, st) => (exit, st.unscaled)
  | (none, st) =>
    let rng := if call.sample.hasSeed then lib.seeded call.sample.seed else env.device
    let r := s.decodeShared lib env limit tokensId scoresId call call.maxNewTokens.toNat rng st.unscaled
    (r.1, r.2.unscaled)

/-- The cache where a call ends before its loops: the new one, when there is no room for its tokens. -/
def cacheLeft (call : GenerateCall K) (f : Fault) (kv : Option (KvCache K)) : Option (KvCache K) :=
  if f = .thrown "length_error" then
    (ensureKvCache s.graph s.kvSink (s.kvMax call (call.promptTokens.length + call.maxNewTokens)) kv).toOption.getD kv
  else kv

/-- `generate`: how it ends, its tokens, and what it leaves. -/
def generate (l : LiveSession K) (e : CallEvent K G) : Exit × List Int × LiveSession K :=
  let cancel := l.cancel && !s.clears e.call
  let env := e.env.cancelled cancel
  match s.prepare env e.call l.kv with
  | .error f => (.failed f, [], ⟨l.mem, s.cacheLeft e.call f l.kv, cancel || e.requested⟩)
  | .ok (tokensId, scoresId, kv) =>
    let r := s.loops lib env e.call tokensId scoresId ⟨l.mem, kv.getD .unconfigured⟩
    (r.1, r.2.out, ⟨r.2.session.mem, kv.map fun _ => r.2.session.cache, cancel || e.requested⟩)

def step (l : LiveSession K) : SessionEvent K G → LiveSession K
  | .generate e => (s.generate lib l e).2.2
  | .requestCancel => { l with cancel := true }
  | .onMemoryWarning => { l with kv := l.kv.map (·.dropAll) }

def runEvents (l : LiveSession K) (es : List (SessionEvent K G)) : LiveSession K := es.foldl (s.step lib) l

/-- The result and the tokens. -/
def answer (l : LiveSession K) (e : CallEvent K G) : Exit × List Int := ((s.generate lib l e).1, (s.generate lib l e).2.1)

end SharedSession

/-! ## Memory that agrees -/

/-- The same floats where `P` holds, and off `D`. -/
def AgreeOn (D P : Nat → Nat → Prop) (a b : Nat → Nat → K) : Prop := ∀ c j, P c j ∨ ¬ D c j → a c j = b c j

namespace MemoryMap

variable {m : MemoryMap}

theorem write_point {a b : Nat → Nat → K} {c j : Nat} (h : a c j = b c j) (t : TensorId) (xs : List K) :
    m.write a t xs c j = m.write b t xs c j := by
  unfold write
  rw [h]

/-- What is written is the same, whatever was there. -/
theorem writeAll_point (outs : TensorId → List K) {c j : Nat} : ∀ {ts : List TensorId} {a b : Nat → Nat → K},
    (a c j = b c j ∨ ∃ t ∈ ts, c = m.cell t ∧ j < m.size t ∧ j < (outs t).length) →
      m.writeAll outs ts a c j = m.writeAll outs ts b c j := by
  intro ts
  induction ts with
  | nil =>
    intro a b h
    rcases h with h | ⟨t, ht, -⟩
    · exact h
    · cases ht
  | cons t ts ih =>
    intro a b h
    refine ih ?_
    rcases h with h | ⟨u, hu, hc, hj, hlen⟩
    · exact .inl (write_point h t (outs t))
    · rcases List.mem_cons.mp hu with rfl | hu
      · left
        unfold write
        rw [if_pos ⟨hc, hj⟩, if_pos ⟨hc, hj⟩, List.getElem?_eq_getElem hlen]
        rfl
      · exact .inr ⟨u, hu, hc, hj, hlen⟩

theorem writeAll_other (outs : TensorId → List K) {c j : Nat} : ∀ {ts : List TensorId} {a : Nat → Nat → K},
    (∀ t ∈ ts, ¬ (c = m.cell t ∧ j < m.size t ∧ j < (outs t).length)) → m.writeAll outs ts a c j = a c j := by
  intro ts
  induction ts with
  | nil => exact fun _ => rfl
  | cons t ts ih =>
    intro a h
    refine (ih fun u hu => h u (List.mem_cons_of_mem _ hu)).trans ?_
    unfold write
    by_cases hin : c = m.cell t ∧ j < m.size t
    · rw [if_pos hin, List.getElem?_eq_none (not_lt.mp fun hlen => h t List.mem_cons_self ⟨hin.1, hin.2, hlen⟩)]
      rfl
    · rw [if_neg hin]

theorem read_agree {D P : Nat → Nat → Prop} {a b : Nat → Nat → K} (h : AgreeOn D P a b) {t : TensorId}
    (ht : ∀ j < m.size t, P (m.cell t) j ∨ ¬ D (m.cell t) j) : m.read a t = m.read b t :=
  List.map_congr_left fun j hj => h _ _ (ht j (List.mem_range.mp hj))

end MemoryMap

namespace SharedSession

variable (s : SharedSession R K)

/-- The floats that an operator fills. -/
def Fills (op : KvOp K) (c j : Nat) : Prop := ∃ t ∈ op.outputs, c = s.map.cell t ∧ j < s.map.size t ∧ j < s.filled op.nodeId t

/-- The floats of the tokens tensor. -/
def Tokens (c j : Nat) : Prop :=
  ∃ t, tokensTensor s.graph = .ok t ∧ (s.buffers t).data.isSome ∧ c = s.map.cell t ∧ j < s.map.size t

/-- What calls write. -/
def Dirty (c j : Nat) : Prop := s.Tokens c j ∨ ∃ op ∈ s.ops, s.Fills op c j

/-- What operators read is in `P`, filled by operators before them, or written by none. -/
def Covered : (Nat → Nat → Prop) → List (KvOp K) → Prop
  | _, [] => True
  | P, op :: rest => (∀ t ∈ op.inputs, ∀ j < s.map.size t, P (s.map.cell t) j ∨ ¬ s.Dirty (s.map.cell t) j) ∧
      Covered (fun c j => P c j ∨ s.Fills op c j) rest

/-- An operator fills its outputs when it succeeds, and writes no more. -/
structure Fits (op : KvOp K) : Prop where
  fills : ∀ t : KvSession K, (op.outcome s.buffers t).1 = .ok () →
    ∀ u ∈ op.outputs, ((op.outcome s.buffers t).2 u).length = s.filled op.nodeId u
  stops : ∀ t : KvSession K, ∀ u ∈ op.outputs, ((op.outcome s.buffers t).2 u).length ≤ s.filled op.nodeId u

section Run

variable {s} {P : Nat → Nat → Prop}

theorem fits_of_mem {c : KvCache K} {op : KvOp K} (h : op ∈ opsFor c s.ops) : s.Fits op := by
  have hfits : ∀ q ∈ s.ops, s.Fits q := fun q hq =>
    ⟨fun t => s.fills q hq t.floats t.cache, fun t => s.stops q hq t.floats t.cache⟩
  unfold opsFor at h
  split at h
  · exact hfits op h
  · obtain ⟨q, hq, rfl⟩ := List.mem_map.mp h
    exact ⟨(hfits q hq).fills, (hfits q hq).stops⟩

theorem fills_opsFor {c : KvCache K} {i j : Nat} : (∃ op ∈ opsFor c s.ops, s.Fills op i j) ↔ ∃ op ∈ s.ops, s.Fills op i j := by
  unfold opsFor
  split
  · rfl
  · simp only [List.mem_map, exists_exists_and_eq_and]
    rfl

theorem covered_uncached : ∀ {ops : List (KvOp K)} {P : Nat → Nat → Prop}, s.Covered P ops →
    s.Covered P (ops.map KvOp.uncached) := by
  intro ops
  induction ops with
  | nil => exact fun _ => trivial
  | cons op rest ih => exact fun h => ⟨h.1, ih h.2⟩

theorem covered_opsFor {ops : List (KvOp K)} (h : s.Covered P ops) (c : KvCache K) : s.Covered P (opsFor c ops) := by
  unfold opsFor
  split
  · exact h
  · exact covered_uncached h

theorem append_agree {op : KvOp K} {a b : KvSession K} (hin : ∀ t ∈ op.inputs, a.floats t = b.floats t) (hc : a.cache = b.cache) :
    op.append s.buffers a = op.append s.buffers b := by
  unfold KvOp.append
  rw [hc, arg_agree hin, arg_agree hin]

/-- Two runs that go the same way. -/
structure SameStep (D P : Nat → Nat → Prop) (r r' : Result Unit × SharedState K) : Prop where
  result : r.1 = r'.1
  cache : r.2.cache = r'.2.cache
  mem : r.1 = .ok () → AgreeOn D P r.2.mem r'.2.mem

/-- They fail alike, or both come to their end. -/
theorem SameStep.cases {D P : Nat → Nat → Prop} {r r' : Result Unit × SharedState K} (h : SameStep D P r r') :
    (∃ e a b, r = (.error e, a) ∧ r' = (.error e, b) ∧ a.cache = b.cache) ∨
      ∃ a b, r = (.ok (), a) ∧ r' = (.ok (), b) ∧ a.cache = b.cache ∧ AgreeOn D P a.mem b.mem := by
  obtain ⟨hresult, hcache, hmem⟩ := h
  rcases r with ⟨e | ⟨⟩, a⟩
  · rcases r' with ⟨e' | ⟨⟩, b⟩
    · obtain rfl : e = e' := Except.error.inj hresult
      exact .inl ⟨e, a, b, rfl, rfl, hcache⟩
    · cases hresult
  · rcases r' with ⟨e' | ⟨⟩, b⟩
    · cases hresult
    · exact .inr ⟨a, b, rfl, rfl, hcache, hmem rfl⟩

theorem dispatch_same {op : KvOp K} {a b : SharedState K} (hfits : s.Fits op)
    (hreads : ∀ t ∈ op.inputs, ∀ j < s.map.size t, P (s.map.cell t) j ∨ ¬ s.Dirty (s.map.cell t) j)
    (hagree : AgreeOn s.Dirty P a.mem b.mem) (hcache : a.cache = b.cache) :
    SameStep s.Dirty (fun c j => P c j ∨ s.Fills op c j) (op.dispatchShared s.buffers s.map a)
      (op.dispatchShared s.buffers s.map b) := by
  have houtcome : op.outcome s.buffers (a.view s.map) = op.outcome s.buffers (b.view s.map) :=
    outcome_agree (fun t ht => MemoryMap.read_agree hagree (hreads t ht)) (congrArg KvCache.committed hcache)
  have hfills := hfits.fills (b.view s.map)
  unfold KvOp.dispatchShared
  rw [houtcome]
  rcases hout : op.outcome s.buffers (b.view s.map) with ⟨e | ⟨⟩, outs⟩
  · exact ⟨rfl, hcache, fun h => by cases h⟩
  · rw [hout] at hfills
    have hwritten : AgreeOn s.Dirty (fun c j => P c j ∨ s.Fills op c j) (s.map.writeAll outs op.outputs a.mem)
        (s.map.writeAll outs op.outputs b.mem) := by
      rintro c j ((hP | ⟨t, ht, hc, hj, hlen⟩) | hclean)
      · exact MemoryMap.writeAll_point outs (.inl (hagree c j (.inl hP)))
      · refine MemoryMap.writeAll_point outs (.inr ⟨t, ht, hc, hj, ?_⟩)
        rw [hfills rfl t ht]
        exact hlen
      · exact MemoryMap.writeAll_point outs (.inl (hagree c j (.inr hclean)))
    have happend : op.append s.buffers (SharedState.view s.map ⟨s.map.writeAll outs op.outputs a.mem, a.cache⟩) =
        op.append s.buffers (SharedState.view s.map ⟨s.map.writeAll outs op.outputs b.mem, b.cache⟩) :=
      append_agree (fun t ht => MemoryMap.read_agree hwritten fun j hj => (hreads t ht j hj).imp_left .inl) hcache
    have hresult := congrArg Prod.fst happend
    have hleft := congrArg Prod.snd happend
    exact ⟨hresult, hleft, fun _ => hwritten⟩

/-- The step lemma, over a plan. -/
theorem runPlan_same {o : Outside} : ∀ {ops : List (KvOp K)} {P : Nat → Nat → Prop} {i : Nat} {a b : SharedState K},
    (∀ op ∈ ops, s.Fits op) → s.Covered P ops → AgreeOn s.Dirty P a.mem b.mem → a.cache = b.cache →
      SameStep s.Dirty (fun c j => P c j ∨ ∃ op ∈ ops, s.Fills op c j) (runPlanShared s.buffers s.map o i ops a)
        (runPlanShared s.buffers s.map o i ops b) := by
  intro ops
  induction ops with
  | nil =>
    intro P i a b _ _ hagree hcache
    refine ⟨rfl, hcache, fun _ c j h => hagree c j (h.imp_left ?_)⟩
    simp
  | cons op rest ih =>
    intro P i a b hfits hcov hagree hcache
    unfold runPlanShared
    cases o.before i with
    | some e => exact ⟨rfl, hcache, fun h => by cases h⟩
    | none =>
      dsimp only
      rcases (dispatch_same (hfits op List.mem_cons_self) hcov.1 hagree hcache).cases with
        ⟨e, a', b', ha, hb, hc⟩ | ⟨a', b', ha, hb, hc, hmem⟩
      · rw [ha, hb]
        exact ⟨rfl, hc, fun h => by cases h⟩
      · rw [ha, hb]
        have hrest := ih (i := i + 1) (fun q hq => hfits q (List.mem_cons_of_mem _ hq)) hcov.2 hmem hc
        refine ⟨hrest.result, hrest.cache, fun h c j hcj => hrest.mem h c j (hcj.imp_left ?_)⟩
        rintro (hP | ⟨q, hq, hw⟩)
        · exact .inl (.inl hP)
        · rcases List.mem_cons.mp hq with rfl | hq
          · exact .inl (.inr hw)
          · exact .inr ⟨q, hq, hw⟩

/-- A run that is told apart by nothing that it reads, up to its end. -/
theorem runShared_same {o : Outside} {ops : List (KvOp K)} {a b : SharedState K} (hfits : ∀ op ∈ ops, s.Fits op)
    (hcov : s.Covered P ops) (hagree : AgreeOn s.Dirty P a.mem b.mem) (hcache : a.cache = b.cache) :
    SameStep s.Dirty (fun c j => P c j ∨ ∃ op ∈ ops, s.Fills op c j) (runShared s.buffers s.map o ops a)
      (runShared s.buffers s.map o ops b) := by
  unfold runShared
  cases o.start with
  | some e => exact ⟨rfl, hcache, fun h => by cases h⟩
  | none =>
    dsimp only
    rcases (runPlan_same (o := o) (i := 0) hfits hcov hagree hcache).cases with ⟨e, a', b', ha, hb, hc⟩ | ⟨a', b', ha, hb, hc, hmem⟩
    · rw [ha, hb]
      exact ⟨rfl, hc, fun h => by cases h⟩
    · rw [ha, hb]
      dsimp only
      cases o.synchronize with
      | some e => exact ⟨rfl, hc, fun h => by cases h⟩
      | none =>
        dsimp only
        rw [hc]
        cases o.trace with
        | some e => exact ⟨rfl, rfl, fun h => by cases h⟩
        | none => exact ⟨rfl, rfl, fun _ => hmem⟩

/-! ## What no call writes -/

/-- The same floats off the dirty ones. -/
def Clean (a b : Nat → Nat → K) : Prop := ∀ c j, ¬ s.Dirty c j → b c j = a c j

theorem Clean.trans {a b c : Nat → Nat → K} (h : s.Clean a b) (h' : s.Clean b c) : s.Clean a c := fun i j hd =>
  (h' i j hd).trans (h i j hd)

theorem dispatch_clean {op : KvOp K} {a : SharedState K} (hfits : s.Fits op) (hdirty : ∀ c j, s.Fills op c j → s.Dirty c j) :
    s.Clean a.mem (op.dispatchShared s.buffers s.map a).2.mem := by
  have hstops := hfits.stops (a.view s.map)
  unfold KvOp.dispatchShared
  have hother : ∀ outs : TensorId → List K, (∀ t ∈ op.outputs, (outs t).length ≤ s.filled op.nodeId t) →
      s.Clean a.mem (s.map.writeAll outs op.outputs a.mem) := by
    intro outs hlen c j hclean
    refine MemoryMap.writeAll_other outs fun t ht hin => hclean (hdirty c j ⟨t, ht, hin.1, hin.2.1, ?_⟩)
    exact lt_of_lt_of_le hin.2.2 (hlen t ht)
  rcases hout : op.outcome s.buffers (a.view s.map) with ⟨e | ⟨⟩, outs⟩
  · rw [hout] at hstops
    exact hother outs hstops
  · rw [hout] at hstops
    exact hother outs hstops

theorem runPlan_clean {o : Outside} : ∀ {ops : List (KvOp K)} {i : Nat} {a : SharedState K}, (∀ op ∈ ops, s.Fits op) →
    (∀ op ∈ ops, ∀ c j, s.Fills op c j → s.Dirty c j) → s.Clean a.mem (runPlanShared s.buffers s.map o i ops a).2.mem := by
  intro ops
  induction ops with
  | nil => exact fun _ _ _ _ _ => rfl
  | cons op rest ih =>
    intro i a hfits hdirty
    unfold runPlanShared
    cases o.before i with
    | some e => exact fun _ _ _ => rfl
    | none =>
      have hhead : s.Clean a.mem (op.dispatchShared s.buffers s.map a).2.mem :=
        dispatch_clean (hfits op List.mem_cons_self) (hdirty op List.mem_cons_self)
      dsimp only
      rcases hstep : op.dispatchShared s.buffers s.map a with ⟨e | ⟨⟩, a'⟩
      · rw [hstep] at hhead
        exact hhead
      · rw [hstep] at hhead
        exact hhead.trans (ih (fun q hq => hfits q (List.mem_cons_of_mem _ hq)) fun q hq => hdirty q (List.mem_cons_of_mem _ hq))

theorem runShared_clean {o : Outside} {ops : List (KvOp K)} {a : SharedState K} (hfits : ∀ op ∈ ops, s.Fits op)
    (hdirty : ∀ op ∈ ops, ∀ c j, s.Fills op c j → s.Dirty c j) : s.Clean a.mem (runShared s.buffers s.map o ops a).2.mem := by
  have hplan : s.Clean a.mem (runPlanShared s.buffers s.map o 0 ops a).2.mem := runPlan_clean hfits hdirty
  unfold runShared
  cases o.start with
  | some e => exact fun _ _ _ => rfl
  | none =>
    dsimp only
    rcases hrun : runPlanShared s.buffers s.map o 0 ops a with ⟨e | ⟨⟩, a'⟩
    · rw [hrun] at hplan
      exact hplan
    · rw [hrun] at hplan
      cases o.synchronize with
      | some e => exact hplan
      | none =>
        cases o.trace with
        | some e => exact hplan
        | none => exact hplan

end Run

/-! ## A call -/

/-- What operators read in a run is the token's, filled before them in the run, or written by none. -/
def ReadsWritten : Prop := s.Covered s.Tokens s.ops

section Feed

variable {s} {env : GenerateEnv G} {tokensId : TensorId}

theorem fills_dirty {c : KvCache K} {op : KvOp K} (h : op ∈ opsFor c s.ops) (i j : Nat) (hf : s.Fills op i j) : s.Dirty i j :=
  .inr (fills_opsFor.mp ⟨op, h, hf⟩)

/-- The token and the operators write every dirty float. -/
theorem eq_of_agree {c : KvCache K} {a b : Nat → Nat → K}
    (h : AgreeOn s.Dirty (fun i j => s.Tokens i j ∨ ∃ op ∈ opsFor c s.ops, s.Fills op i j) a b) : a = b := by
  funext i j
  refine h i j (Classical.or_iff_not_imp_right.mpr fun hdirty => ?_)
  exact (Classical.not_not.mp hdirty).imp_right fills_opsFor.mpr

/-- The same but for dirty floats. -/
structure Alike (s : SharedSession R K) (st st' : SharedGen K) : Prop where
  mem : ∀ c j, ¬ s.Dirty c j → st.session.mem c j = st'.session.mem c j
  cache : st.session.cache = st'.session.cache
  out : st.out = st'.out
  runs : st.runs = st'.runs

/-- Two loops that end the same way, and go on from one state. -/
structure SameEnd {α : Type} (r r' : Option α × SharedGen K) : Prop where
  exit : r.1 = r'.1
  out : r.2.out = r'.2.out
  state : r.1 = none → r.2 = r'.2

theorem SameEnd.cases {α : Type} {r r' : Option α × SharedGen K} (h : SameEnd r r') :
    (∃ st, r = (none, st) ∧ r' = (none, st)) ∨ ∃ e st st', r = (some e, st) ∧ r' = (some e, st') ∧ st.out = st'.out := by
  obtain ⟨hexit, hout, hstate⟩ := h
  rcases r with ⟨_ | e, st⟩
  · rcases r' with ⟨_ | e', st'⟩
    · obtain rfl : st = st' := hstate rfl
      exact .inl ⟨st, rfl, rfl⟩
    · cases hexit
  · rcases r' with ⟨_ | e', st'⟩
    · cases hexit
    · obtain rfl : e = e' := Option.some.inj hexit
      exact .inr ⟨e, st, st', rfl, rfl, hout⟩

variable [Field K]

theorem writeToken_clean (ht : tokensTensor s.graph = .ok tokensId) {a b : SharedState K} {token : Int}
    (h : s.writeToken a tokensId token = .ok b) : s.Clean a.mem b.mem := by
  unfold writeToken at h
  split at h
  · exact absurd h (fail_ne_ok _ _ _)
  rename_i hdata
  split at h
  · exact absurd h (fail_ne_ok _ _ _)
  cases h
  intro c j hclean
  refine if_neg fun hin => hclean (.inl ⟨tokensId, ht, ?_, hin.1, hin.2⟩)
  cases hd : (s.buffers tokensId).data with
  | none => simp [hd] at hdata
  | some xs => rfl

/-- The whole tensor is written. -/
theorem writeToken_same (ht : tokensTensor s.graph = .ok tokensId) {a b : SharedState K}
    (h : ∀ c j, ¬ s.Dirty c j → a.mem c j = b.mem c j) (token : Int) :
    (∃ e, s.writeToken a tokensId token = .error e ∧ s.writeToken b tokensId token = .error e) ∨
      ∃ a' b', s.writeToken a tokensId token = .ok a' ∧ s.writeToken b tokensId token = .ok b' ∧
        AgreeOn s.Dirty s.Tokens a'.mem b'.mem ∧ a'.cache = a.cache ∧ b'.cache = b.cache := by
  unfold writeToken
  by_cases hdata : (s.buffers tokensId).data.isNone
  · rw [if_pos hdata, if_pos hdata]
    exact .inl ⟨_, rfl, rfl⟩
  by_cases hsize : s.map.size tokensId = 0
  · rw [if_neg hdata, if_neg hdata, if_pos hsize, if_pos hsize]
    exact .inl ⟨_, rfl, rfl⟩
  rw [if_neg hdata, if_neg hdata, if_neg hsize, if_neg hsize]
  refine .inr ⟨_, _, rfl, rfl, ?_, rfl, rfl⟩
  rintro c j (⟨t, ht', -, hc, hj⟩ | hclean)
  · obtain rfl : tokensId = t := Except.ok.inj (ht.symm.trans ht')
    dsimp only
    unfold MemoryMap.write
    rw [if_pos ⟨hc, hj⟩, if_pos ⟨hc, hj⟩, List.getElem?_eq_getElem (by simpa using hj)]
    rfl
  · exact MemoryMap.write_point (h c j hclean) _ _

theorem feed_clean (ht : tokensTensor s.graph = .ok tokensId) (st : SharedGen K) (token : Int) :
    s.Clean st.session.mem (s.feed env tokensId st token).2.session.mem := by
  unfold feed
  cases hwrite : s.writeToken st.session tokensId token with
  | error e => exact fun _ _ _ => rfl
  | ok a =>
    have hrun : s.Clean a.mem (runShared s.buffers s.map (env.run st.runs) (opsFor a.cache s.ops) a).2.mem :=
      runShared_clean (fun op => fits_of_mem) fun op => fills_dirty
    dsimp only
    rcases hr : runShared s.buffers s.map (env.run st.runs) (opsFor a.cache s.ops) a with ⟨e | ⟨⟩, b⟩
    · rw [hr] at hrun
      exact (writeToken_clean ht hwrite).trans hrun
    · rw [hr] at hrun
      exact (writeToken_clean ht hwrite).trans hrun

/-- A run that comes to its end leaves nothing to tell the states apart. -/
theorem feed_same (env : GenerateEnv G) (hreads : s.ReadsWritten) (ht : tokensTensor s.graph = .ok tokensId) {st st' : SharedGen K}
    (h : s.Alike st st') (token : Int) : SameEnd (s.feed env tokensId st token) (s.feed env tokensId st' token) := by
  unfold feed
  rcases writeToken_same ht h.mem token with ⟨e, ha, hb⟩ | ⟨a, b, ha, hb, hagree, hca, hcb⟩
  · rw [ha, hb]
    exact ⟨rfl, h.out, fun h => by cases h⟩
  · have hcache : a.cache = b.cache := by rw [hca, hcb, h.cache]
    have hrun : SameStep s.Dirty (fun c j => s.Tokens c j ∨ ∃ op ∈ opsFor b.cache s.ops, s.Fills op c j)
        (runShared s.buffers s.map (env.run st'.runs) (opsFor b.cache s.ops) a)
        (runShared s.buffers s.map (env.run st'.runs) (opsFor b.cache s.ops) b) :=
      runShared_same (fun op => fits_of_mem) (covered_opsFor hreads _) hagree hcache
    rw [ha, hb]
    dsimp only
    rw [h.runs, h.out, hcache]
    rcases hrun.cases with ⟨e, a', b', hra, hrb, -⟩ | ⟨⟨amem, acache⟩, ⟨bmem, bcache⟩, hra, hrb, hc, hmem⟩
    · rw [hra, hrb]
      exact ⟨rfl, rfl, fun h => by cases h⟩
    · obtain rfl : acache = bcache := hc
      obtain rfl : amem = bmem := eq_of_agree hmem
      rw [hra, hrb]
      exact ⟨rfl, rfl, fun _ => rfl⟩

end Feed

section Loops

variable [Field K] {s} {env : GenerateEnv G} {limit : Option Int} {tokensId : TensorId}

theorem prefill_clean (ht : tokensTensor s.graph = .ok tokensId) : ∀ {tokens : List Int} {st : SharedGen K},
    s.Clean st.session.mem (s.prefillShared env limit tokensId tokens st).2.session.mem := by
  intro tokens
  induction tokens with
  | nil => exact fun _ _ _ => rfl
  | cons token tokens ih =>
    intro st
    unfold prefillShared
    cases env.paused st.out.length with
    | some e => exact fun _ _ _ => rfl
    | none =>
      dsimp only
      split
      · exact fun _ _ _ => rfl
      · have hfeed : s.Clean st.session.mem (s.feed env tokensId st token).2.session.mem := feed_clean ht st token
        rcases hf : s.feed env tokensId st token with ⟨_ | e, st'⟩
        · rw [hf] at hfeed
          exact hfeed.trans ih
        · rw [hf] at hfeed
          exact hfeed

/-- After the first token of the prompt the two calls are in one state. -/
theorem prefill_same (env : GenerateEnv G) (limit : Option Int) (hreads : s.ReadsWritten) (ht : tokensTensor s.graph = .ok tokensId)
    {st st' : SharedGen K} (h : s.Alike st st') {tokens : List Int} (hne : tokens ≠ []) :
    SameEnd (s.prefillShared env limit tokensId tokens st) (s.prefillShared env limit tokensId tokens st') := by
  obtain ⟨token, tokens, rfl⟩ := List.exists_cons_of_ne_nil hne
  unfold prefillShared
  rw [h.out]
  cases env.paused st'.out.length with
  | some e => exact ⟨rfl, h.out, fun h => by cases h⟩
  | none =>
    dsimp only
    by_cases hlimit : limit.any (· < (st'.out.length : Int) + 1)
    · rw [if_pos hlimit, if_pos hlimit]
      exact ⟨rfl, h.out, fun h => by cases h⟩
    · rw [if_neg hlimit, if_neg hlimit]
      rcases (feed_same env hreads ht h token).cases with ⟨a, ha, hb⟩ | ⟨e, a, b, ha, hb, hout⟩
      · rw [ha, hb]
        exact ⟨rfl, rfl, fun _ => rfl⟩
      · rw [ha, hb]
        exact ⟨rfl, hout, fun h => by cases h⟩

theorem prefill_device (d : G) : ∀ (tokens : List Int) (st : SharedGen K),
    s.prefillShared { env with device := d } limit tokensId tokens st = s.prefillShared env limit tokensId tokens st := by
  intro tokens
  induction tokens with
  | nil => exact fun _ => rfl
  | cons token tokens ih =>
    intro st
    unfold prefillShared
    simp only [ih]
    rfl

variable [LinearOrder K] {lib : SamplerLib K G} {scoresId : TensorId} {call : GenerateCall K}

theorem decode_clean (ht : tokensTensor s.graph = .ok tokensId) : ∀ {remaining : Nat} {rng : G} {st : SharedGen K},
    s.Clean st.session.mem (s.decodeShared lib env limit tokensId scoresId call remaining rng st).2.session.mem := by
  intro remaining
  induction remaining with
  | zero => exact fun _ _ _ => rfl
  | succ remaining ih =>
    intro rng st
    unfold decodeShared
    cases env.paused st.out.length with
    | some e => exact fun _ _ _ => rfl
    | none =>
      dsimp only
      split
      · exact fun _ _ _ => rfl
      rcases hsample : (st.session.view s.map).sampleToken lib s.buffers scoresId call.sample st.out rng with e | ⟨next, rng'⟩
      · exact fun _ _ _ => rfl
      dsimp only
      split
      · exact fun _ _ _ => rfl
      split
      · exact fun _ _ _ => rfl
      split
      · exact fun _ _ _ => rfl
      split
      · exact fun _ _ _ => rfl
      have hfeed : s.Clean st.session.mem
          (s.feed env tokensId { st with out := st.out ++ [next] } next).2.session.mem := feed_clean ht _ next
      rcases hf : s.feed env tokensId { st with out := st.out ++ [next] } next with ⟨_ | e, st'⟩
      · rw [hf] at hfeed
        exact hfeed.trans ih
      · rw [hf] at hfeed
        exact hfeed

/-- A greedy choice draws nothing. -/
theorem sampleToken_rng (v : KvSession K) {p : SampleParams K} (history : List Int) {rng rng' : G}
    (h : p.greedy = true ∨ rng = rng') :
    (∃ e, v.sampleToken lib s.buffers scoresId p history rng = .error e ∧
      v.sampleToken lib s.buffers scoresId p history rng' = .error e) ∨
    ∃ next r r', v.sampleToken lib s.buffers scoresId p history rng = .ok (next, r) ∧
      v.sampleToken lib s.buffers scoresId p history rng' = .ok (next, r') ∧ (p.greedy = true ∨ r = r') := by
  rcases h with hgreedy | rfl
  · unfold KvSession.sampleToken sampleTokenF32
    rw [if_pos hgreedy, if_pos hgreedy]
    split
    · exact .inl ⟨_, rfl, rfl⟩
    split
    · exact .inl ⟨_, rfl, rfl⟩
    split
    · exact .inl ⟨_, rfl, rfl⟩
    · exact .inr ⟨_, rng, rng', rfl, rfl, .inl hgreedy⟩
  · rcases hs : v.sampleToken lib s.buffers scoresId p history rng with e | ⟨next, r⟩
    · exact .inl ⟨e, rfl, rfl⟩
    · exact .inr ⟨next, r, r, rfl, rfl, .inr rfl⟩

theorem decode_device (d : G) : ∀ {remaining : Nat} {rng rng' : G} {st : SharedGen K}, call.sample.greedy = true ∨ rng = rng' →
    s.decodeShared lib { env with device := d } limit tokensId scoresId call remaining rng st =
      s.decodeShared lib env limit tokensId scoresId call remaining rng' st := by
  intro remaining
  induction remaining with
  | zero => exact fun _ => rfl
  | succ remaining ih =>
    intro rng rng' st h
    unfold decodeShared
    dsimp only
    cases env.paused st.out.length with
    | some e => rfl
    | none =>
      dsimp only
      rcases sampleToken_rng (st.session.view s.map) st.out h with ⟨e, ha, hb⟩ | ⟨next, r, r', ha, hb, h'⟩
      · rw [ha, hb]
      · rw [ha, hb]
        dsimp only
        have hfeed : s.feed { env with device := d } tokensId { st with out := st.out ++ [next] } next =
            s.feed env tokensId { st with out := st.out ++ [next] } next := rfl
        rw [hfeed]
        rcases s.feed env tokensId { st with out := st.out ++ [next] } next with ⟨_ | e, st'⟩
        · dsimp only
          rw [ih h']
        · rfl

end Loops

/-! ## What comes before the loops -/

section Prepare

variable [Field K]

/-- A cache that was there before is configured anew. -/
theorem ensureKvCache_forgets (g : Graph R) (kvSink maxSeq : Int) (kv kv' : Option (KvCache K)) :
    ensureKvCache g kvSink maxSeq kv = ensureKvCache g kvSink maxSeq kv' := by
  unfold ensureKvCache
  cases kDimOf g with
  | error e => rfl
  | ok k =>
    rw [ok_bind, ok_bind]
    split
    · rfl
    · unfold KvCache.configure
      split
      · rfl
      · split
        · rfl
        · rfl

variable [LinearOrder K] {s} {env : GenerateEnv G} {call : GenerateCall K}

theorem prepare_forgets (kv kv' : Option (KvCache K)) : s.prepare env call kv = s.prepare env call kv' := by
  unfold GenerateSession.prepare
  simp only [ensureKvCache_forgets s.graph s.kvSink _ kv kv']

/-- A call that its arguments stop meets nothing. -/
theorem prepare_unclear (h : s.clears call = false) (env env' : GenerateEnv G) (kv kv' : Option (KvCache K)) :
    s.prepare env call kv = s.prepare env' call kv' ∧ ∃ e, s.prepare env call kv = .error e := by
  unfold GenerateSession.prepare
  by_cases hready : s.ready = true
  · by_cases hprompt : call.promptTokens = []
    · simp [hready, hprompt, fail]
    · have hneg : call.maxNewTokens < 0 := by
        simpa [clears, hready, hprompt] using h
      simp [hready, hprompt, hneg, fail]
  · simp [hready, fail]

theorem prepare_tokens {kv kv' : Option (KvCache K)} {tokensId scoresId : TensorId}
    (h : s.prepare env call kv = .ok (tokensId, scoresId, kv')) :
    tokensTensor s.graph = .ok tokensId ∧ call.promptTokens ≠ [] := by
  unfold GenerateSession.prepare at h
  split at h
  · exact absurd h (fail_ne_ok _ _ _)
  split at h
  · exact absurd h (fail_ne_ok _ _ _)
  rename_i hprompt
  split at h
  · exact absurd h (fail_ne_ok _ _ _)
  split at h
  · cases h
  obtain ⟨total, -, h⟩ := bind_ok h
  obtain ⟨u, -, h⟩ := bind_ok h
  obtain ⟨tokens, htokens, h⟩ := bind_ok h
  obtain ⟨scores, -, h⟩ := bind_ok h
  obtain ⟨cache, -, h⟩ := bind_ok h
  obtain ⟨u', -, h⟩ := bind_ok h
  cases h
  exact ⟨htokens, hprompt⟩

end Prepare

/-! ## Calls -/

section Calls

variable [Field K] [LinearOrder K] {s} {lib : SamplerLib K G} {env : GenerateEnv G} {call : GenerateCall K}
  {tokensId scoresId : TensorId}

theorem loops_clean (ht : tokensTensor s.graph = .ok tokensId) (st : SharedState K) :
    s.Clean st.mem (s.loops lib env call tokensId scoresId st).2.session.mem := by
  unfold loops
  have hprefill : s.Clean st.mem (s.prefillShared env (contextLimit s.options s.graph) tokensId call.promptTokens
      ⟨st, [], 0⟩).2.session.mem := prefill_clean ht
  dsimp only
  rcases hp : s.prefillShared env (contextLimit s.options s.graph) tokensId call.promptTokens ⟨st, [], 0⟩ with ⟨_ | exit, a⟩
  · rw [hp] at hprefill
    have hdecode : s.Clean a.unscaled.session.mem (s.decodeShared lib env (contextLimit s.options s.graph) tokensId scoresId call
        call.maxNewTokens.toNat (if call.sample.hasSeed then lib.seeded call.sample.seed else env.device) a.unscaled).2.session.mem :=
      decode_clean ht
    exact hprefill.trans hdecode
  · rw [hp] at hprefill
    exact hprefill

theorem loops_same (lib : SamplerLib K G) (env : GenerateEnv G) (scoresId : TensorId) (hreads : s.ReadsWritten)
    (ht : tokensTensor s.graph = .ok tokensId) (hne : call.promptTokens ≠ [])
    (hseed : call.sample.greedy = true ∨ call.sample.hasSeed = true) (d : G) (a b : SharedState K)
    (hmem : ∀ c j, ¬ s.Dirty c j → a.mem c j = b.mem c j) (hcache : a.cache = b.cache) :
    (s.loops lib { env with device := d } call tokensId scoresId a).1 = (s.loops lib env call tokensId scoresId b).1 ∧
      (s.loops lib { env with device := d } call tokensId scoresId a).2.out = (s.loops lib env call tokensId scoresId b).2.out := by
  have halike : s.Alike ⟨a, [], 0⟩ ⟨b, [], 0⟩ := ⟨hmem, hcache, rfl, rfl⟩
  unfold loops
  dsimp only
  rw [prefill_device]
  rcases (prefill_same env (contextLimit s.options s.graph) hreads ht halike hne).cases with
    ⟨st, ha, hb⟩ | ⟨exit, st, st', ha, hb, hout⟩
  · have hrng : call.sample.greedy = true ∨ (if call.sample.hasSeed then lib.seeded call.sample.seed else d) =
        if call.sample.hasSeed then lib.seeded call.sample.seed else env.device :=
      hseed.imp_right fun hs => by rw [if_pos hs, if_pos hs]
    rw [ha, hb]
    dsimp only
    rw [decode_device d hrng]
    exact ⟨rfl, rfl⟩
  · rw [ha, hb]
    exact ⟨rfl, hout⟩

theorem generate_clean (l : LiveSession K) (e : CallEvent K G) : s.Clean l.mem (s.generate lib l e).2.2.mem := by
  unfold generate
  dsimp only
  cases hprep : s.prepare (e.env.cancelled (l.cancel && !s.clears e.call)) e.call l.kv with
  | error f => exact fun _ _ _ => rfl
  | ok prepared =>
    obtain ⟨tokensId, scoresId, kv⟩ := prepared
    exact loops_clean (prepare_tokens hprep).1 ⟨l.mem, kv.getD .unconfigured⟩

/-- Only dirty floats change from call to call. -/
theorem runEvents_clean : ∀ {es : List (SessionEvent K G)} {l : LiveSession K}, s.Clean l.mem (s.runEvents lib l es).mem := by
  intro es
  induction es with
  | nil => exact fun _ _ _ => rfl
  | cons e es ih =>
    intro l
    have hstep : s.Clean l.mem (s.step lib l e).mem := by
      cases e with
      | generate e => exact generate_clean l e
      | requestCancel => exact fun _ _ _ => rfl
      | onMemoryWarning => exact fun _ _ _ => rfl
    exact hstep.trans ih

theorem rejectIfPaused_cleared (outside : Option Fault) : rejectIfPaused false outside = outside := by
  unfold rejectIfPaused
  cases outside <;> rfl

theorem cancelled_cleared (env : GenerateEnv G) : env.cancelled false = env := by
  unfold GenerateEnv.cancelled
  simp only [rejectIfPaused_cleared]

/-- Two sessions that differ in dirty floats, the cache and the flag answer a call alike. -/
theorem answer_alike (hreads : s.ReadsWritten) {l l' : LiveSession K} (hmem : ∀ c j, ¬ s.Dirty c j → l.mem c j = l'.mem c j)
    (hseed : call.sample.greedy = true ∨ call.sample.hasSeed = true) (d : G) (r r' : Bool) :
    s.answer lib l ⟨call, { env with device := d }, r⟩ = s.answer lib l' ⟨call, env, r'⟩ := by
  unfold answer generate
  dsimp only
  by_cases hclears : s.clears call = true
  · have hflag : ∀ b : Bool, (b && !s.clears call) = false := fun b => by simp [hclears]
    rw [hflag, hflag, cancelled_cleared, cancelled_cleared, prepare_forgets l.kv l'.kv]
    have hprep : s.prepare { env with device := d } call l'.kv = s.prepare env call l'.kv := rfl
    rw [hprep]
    cases hp : s.prepare env call l'.kv with
    | error f => rfl
    | ok prepared =>
      obtain ⟨tokensId, scoresId, kv⟩ := prepared
      obtain ⟨ht, hne⟩ := prepare_tokens hp
      obtain ⟨hexit, hout⟩ := loops_same lib env scoresId hreads ht hne hseed d ⟨l.mem, kv.getD .unconfigured⟩
        ⟨l'.mem, kv.getD .unconfigured⟩ hmem rfl
      exact Prod.ext hexit hout
  · rw [Bool.not_eq_true] at hclears
    obtain ⟨hsame, f, hf⟩ := prepare_unclear hclears (GenerateEnv.cancelled { env with device := d } (l.cancel && !s.clears call))
      (env.cancelled (l'.cancel && !s.clears call)) l.kv l'.kv
    rw [← hsame, hf]

/-- After any two histories the call answers the same. -/
theorem answer_same (hreads : s.ReadsWritten) (l : LiveSession K) (es es' : List (SessionEvent K G))
    (hseed : call.sample.greedy = true ∨ call.sample.hasSeed = true) (d : G) (r r' : Bool) :
    s.answer lib (s.runEvents lib l es) ⟨call, { env with device := d }, r⟩ =
      s.answer lib (s.runEvents lib l es') ⟨call, env, r'⟩ := by
  refine answer_alike hreads (fun c j hclean => ?_) hseed d r r'
  rw [runEvents_clean c j hclean, runEvents_clean c j hclean]

end Calls

end SharedSession

end Uaii.Runtime
