/-
  Uaii.Runtime.GenerateLoop — `Session::generate` and `ensure_kv_cache` with their
  key-value cache (`libs/uaii-runtime/src/session.cpp`).

  The loops leave through one of several exits (`Exit`), and `GenState.runs` keeps the
  session that each `run()` was called on. What a call does not decide (pauses, what each
  run meets, memory warnings, the random device) is `GenerateEnv`. There is memory for the
  cache and for the tokens, as far as `vector::reserve` allows them.

  Proved, without a sliding window: a call that succeeds answers with the prompt and at most
  `max_new_tokens` tokens, none but the last a stop token; it has run the prompt's length
  and once more for each new token but the last; the checks inside the loops never fire;
  and no append drops cached rows when a run appends at most one a layer (`generate_spec`).

  As built, a graph whose K has more positions appends as many rows for each token, and the
  cache, which has room for the tokens, slides (`two_rows_slide`).
-/

import Uaii.Runtime.FailedRun
import Uaii.Runtime.Generate

namespace Uaii.Runtime

open Uaii.Ir Uaii.Kernels

variable {R K G : Type}

/-! ## `ensure_kv_cache` -/

def endsWith (n suf : String) : Bool := suf.toList.isSuffixOf n.toList

def lastDim (t : Tensor) : Int := t.shape.getLastD 0

def countAttention (g : Graph R) : Nat := (g.nodes.filter (·.opName == "Attention")).length

def kvLayers (g : Graph R) : Int :=
  let nLayers := metaI64 g "n_layers" 0
  if nLayers ≤ 0 then nLayers + countAttention g else nLayers

/-- One attribute's part in `n_heads` and `n_kv_heads`. -/
def headsOf (heads : Int × Int) (a : Attribute R) : Int × Int :=
  match a.value with
  | .int x =>
    let heads := if a.key = "num_heads" ∧ heads.1 ≤ 0 then (x, heads.2) else heads
    if a.key = "kv_heads" ∧ heads.2 ≤ 0 then (heads.1, x) else heads
  | _ => heads

def headsFrom : List (Node R) → Int × Int → Int × Int
  | [], heads => heads
  | n :: ns, heads =>
    if n.opName ≠ "Attention" then headsFrom ns heads
    else
      let heads := n.attributes.foldl headsOf heads
      if 0 < heads.1 then heads else headsFrom ns heads

def kvHeads (g : Graph R) : Int :=
  let heads := (metaI64 g "n_heads" 0, metaI64 g "n_kv_heads" 0)
  let heads := if heads.1 ≤ 0 ∨ heads.2 ≤ 0 then headsFrom g.nodes heads else heads
  let nHeads := if heads.1 ≤ 0 then 1 else heads.1
  if heads.2 ≤ 0 then nHeads else heads.2

/-- The last dimension of the first activation that `p` names. -/
def activationDim (g : Graph R) (p : String → Bool) : Option Int :=
  (g.tensors.find? fun t => !t.isWeight && 2 ≤ t.shape.length && p t.name).map lastDim

/-- The first `.q` or `.attn`. `compare` throws when a name is too short for its second test. -/
def queryDim : List Tensor → Result (Option Int)
  | [] => .ok none
  | t :: ts =>
    if t.isWeight ∨ t.shape.length < 2 ∨ t.name.utf8ByteSize < 2 then queryDim ts
    else if endsWith t.name ".q" then .ok (some (lastDim t))
    else if t.name.utf8ByteSize < 5 then .error (.thrown "out_of_range")
    else if endsWith t.name ".attn" then .ok (some (lastDim t))
    else queryDim ts

def kDimOf (g : Graph R) : Result Int := do
  let k := metaI64 g "kv_dim" 0
  let k := [".k_rope", ".k_full", ".k"].foldl (fun k suf => if 0 < k then k else (activationDim g (endsWith · suf)).getD k) k
  let k := if k ≤ 0 then metaI64 g "embedding_length" 0 else k
  let k := if k ≤ 0 then metaI64 g "dim" 0 else k
  let hidden := (g.tensors.find? fun t => t.name == "hidden" && 2 ≤ t.shape.length).map lastDim
  let k := if k ≤ 0 then hidden.getD k else k
  if k ≤ 0 then do
    let q ← queryDim g.tensors
    .ok (q.getD k)
  else .ok k

def vDimOf (g : Graph R) (k : Int) : Int :=
  let v := metaI64 g "v_dim" 0
  let v := if v ≤ 0 then (activationDim g fun n => endsWith n ".v" || n == "v").getD v else v
  if v ≤ 0 then k else v

/-- The cache for the call; none where the graph has no attention. -/
def ensureKvCache [Zero K] (g : Graph R) (kvSink maxSeq : Int) (kv : Option (KvCache K)) : Result (Option (KvCache K)) := do
  let k ← kDimOf g
  if kvLayers g ≤ 0 ∨ k ≤ 0 ∨ maxSeq ≤ 0 then .ok none
  else do
    let c ← (kv.getD .unconfigured).configure (kvLayers g) 1 maxSeq k (vDimOf g k) (kvHeads g) kvSink
    .ok (some c.reset)

/-! ## The call -/

structure GenerateSession (R K : Type) where
  options : SessionOptions
  kvSink : Int
  ready : Bool
  graph : Graph R
  buffers : Nat → TensorView K
  ops : List (KvOp K)

structure GenerateCall (K : Type) where
  promptTokens : List Int
  maxNewTokens : Int
  stopTokenIds : List Int
  /-- Its answer may depend on all the tokens so far. -/
  onNewToken : Option (List Int → Bool)
  sample : SampleParams K

structure GenerateEnv (G : Type) where
  /-- `reject_if_paused` on entry, and when so many tokens are out. -/
  entry : Option Fault
  paused : Nat → Option Fault
  /-- What the `k`-th run meets, and whether the memory runs low before the next. -/
  run : Nat → Outside
  warned : Nat → Bool
  device : G

structure GenState (K : Type) where
  session : KvSession K
  out : List Int
  /-- The sessions that `run` was called on. -/
  runs : List (KvSession K)

inductive Exit where
  | done
  /-- `context length exceeded during` the prefill or the decode. -/
  | exceeded (phase : String)
  | failed (e : Fault)
  deriving DecidableEq, Repr

/-- What `generate` returns. -/
def Exit.result : Exit → Result Unit
  | .done => .ok ()
  | .exceeded phase => fail .invalidArgument ("context length exceeded during " ++ phase)
  | .failed e => .error e

/-- An operator that appends nothing. -/
def KvOp.uncached (op : KvOp K) : KvOp K := { op with layer := none }

/-- The operators as they run: a null cache, which is an unconfigured one here, is not appended to. -/
def opsFor (c : KvCache K) (ops : List (KvOp K)) : List (KvOp K) := if c.configured then ops else ops.map KvOp.uncached

/-- `apply_pending_kv_drop_locked`. -/
def KvCache.dropAll [Zero K] (c : KvCache K) : KvCache K := c.reset.setRopeScaleLen c.ropeScaleLen

section Call

variable [Field K] [LinearOrder K] (lib : SamplerLib K G) (env : GenerateEnv G)

def KvSession.writeToken (buffers : Nat → TensorView K) (s : KvSession K) (tokensId : TensorId) (token : Int) :
    Result (KvSession K) :=
  if (buffers tokensId).data.isNone then fail .notFound "tokens buffer missing"
  else
    let n := (s.floats tokensId).length
    if n = 0 then fail .invalidArgument "tokens buffer empty"
    else .ok { s with floats := Function.update s.floats tokensId ((List.range n).map (tokenRow n token)) }

def KvSession.sampleToken (buffers : Nat → TensorView K) (s : KvSession K) (scoresId : TensorId) (p : SampleParams K)
    (history : List Int) (rng : G) : Result (Int × G) :=
  if (buffers scoresId).data.isNone then fail .notFound "scores buffer missing"
  else if s.floats scoresId = [] then fail .invalidArgument "scores empty"
  else sampleTokenF32 lib (scoresRow (buffers scoresId).shape (s.floats scoresId)) p history rng

variable (buffers : Nat → TensorView K) (ops : List (KvOp K)) (limit : Option Int) (tokensId scoresId : TensorId)
  (call : GenerateCall K)

/-- `write_tokens_step` and `run`. -/
def GenState.feed (st : GenState K) (token : Int) : Option Fault × GenState K :=
  match st.session.writeToken buffers tokensId token with
  | .error e => (some e, st)
  | .ok session =>
    let k := st.runs.length
    let r := runSession buffers (env.run k) (opsFor session.cache ops) session
    let cache := if env.warned k then r.2.cache.dropAll else r.2.cache
    let st : GenState K := ⟨{ r.2 with cache := cache }, st.out, st.runs ++ [session]⟩
    match r.1 with
    | .error e => (some e, st)
    | .ok () => (none, st)

/-- The first loop; none when it comes to its end. -/
def prefillLoop : List Int → GenState K → Option Exit × GenState K
  | [], st => (none, st)
  | token :: tokens, st =>
    match env.paused st.out.length with
    | some e => (some (.failed e), st)
    | none =>
      if limit.any (· < (st.out.length : Int) + 1) then (some (.exceeded "prefill"), st)
      else match st.feed env buffers ops tokensId token with
        | (some e, st) => (some (.failed e), st)
        | (none, st) => prefillLoop tokens { st with out := st.out ++ [token] }

/-- The second loop; the first argument is `max_new_tokens - n`. -/
def decodeLoop : Nat → G → GenState K → Exit × GenState K
  | 0, _, st => (.done, st)
  | remaining + 1, rng, st =>
    match env.paused st.out.length with
    | some e => (.failed e, st)
    | none =>
      if limit.any (· ≤ (st.out.length : Int)) then (.exceeded "decode", st)
      else match st.session.sampleToken lib buffers scoresId call.sample st.out rng with
        | .error e => (.failed e, st)
        | .ok (next, rng) =>
          let st : GenState K := { st with out := st.out ++ [next] }
          if call.onNewToken.any (fun f => !f st.out) then (.done, st)
          else if next ∈ call.stopTokenIds then (.done, st)
          else if remaining = 0 then (.done, st)
          else if limit.any (· ≤ (st.out.length : Int)) then (.exceeded "decode", st)
          else match st.feed env buffers ops tokensId next with
            | (some e, st) => (.failed e, st)
            | (none, st) => decodeLoop remaining rng st

end Call

/-- `set_rope_scale_len(0)`, between the loops and on the way out. -/
def GenState.unscaled (st : GenState K) : GenState K :=
  { st with session := { st.session with cache := st.session.cache.setRopeScaleLen 0 } }

/-- `a + b`, where no `int64_t` overflows. -/
def addI64 (a b : Int) : Result Int := if a + b < 2 ^ 63 then .ok (a + b) else .error (.undefined "signed overflow")

/-- `out_tokens->reserve`. -/
def reserveTokens (total : Int) : Result Unit := if 2 ^ 60 ≤ total then .error (.thrown "length_error") else .ok ()

namespace GenerateSession

variable [Field K] [LinearOrder K] (s : GenerateSession R K) (lib : SamplerLib K G) (env : GenerateEnv G) (call : GenerateCall K)

def kvMax (total : Int) : Int :=
  if 0 < s.options.kvWindow then s.options.kvWindow
  else if 0 < maxContextOf s.options s.graph then maxContextOf s.options s.graph
  else max total (call.promptTokens.length + max call.maxNewTokens 1)

/-- Up to the first loop: the tensors that are written and read, and the cache. -/
def prepare (kv : Option (KvCache K)) : Result (TensorId × TensorId × Option (KvCache K)) :=
  if !s.ready then fail .invalidArgument "session not ready"
  else if call.promptTokens = [] then fail .invalidArgument "prompt_tokens empty"
  else if call.maxNewTokens < 0 then fail .invalidArgument "max_new_tokens < 0"
  else match env.entry with
    | some e => .error e
    | none => do
      let promptLen : Int := call.promptTokens.length
      let total ← addI64 promptLen call.maxNewTokens
      checkLengths (contextLimit s.options s.graph) promptLen total
      let tokensId ← tokensTensor s.graph
      let scoresId ← scoresTensor s.graph call.sample.greedy
      let kv ← ensureKvCache s.graph s.kvSink (s.kvMax call total) kv
      reserveTokens total
      .ok (tokensId, scoresId, kv.map (·.setRopeScaleLen promptLen))

/-- `generate` on the floats and the cache that the session has. -/
def generate (kv : Option (KvCache K)) (floats : Nat → List K) : Exit × GenState K :=
  match s.prepare env call kv with
  | .error e => (.failed e, ⟨⟨floats, kv.getD .unconfigured⟩, [], []⟩)
  | .ok (tokensId, scoresId, kv) =>
    let limit := contextLimit s.options s.graph
    match prefillLoop env s.buffers s.ops limit tokensId call.promptTokens ⟨⟨floats, kv.getD .unconfigured⟩, [], []⟩ with
    | (some exit, st) => (exit, st.unscaled)
    | (none, st) =>
      let rng := if call.sample.hasSeed then lib.seeded call.sample.seed else env.device
      let r := decodeLoop lib env s.buffers s.ops limit tokensId scoresId call call.maxNewTokens.toNat rng st.unscaled
      (r.1, r.2.unscaled)

end GenerateSession

/-! ## One run -/

/-- The rows a view appends. -/
def rowsOf (t : TensorView K) : Int :=
  match t.shape with
  | [_, seq, _] => seq
  | _ => 1

/-- The operator appends at most one row. -/
def KvOp.OneRow (buffers : Nat → TensorView K) (op : KvOp K) : Prop :=
  op.layer ≠ none → rowsOf (op.arg buffers (fun _ => []) 1) ≤ 1

section Rows

variable {buffers : Nat → TensorView K}

theorem parseKvShape_rows {t : TensorView K} {b seq d : Int} (h : KvCache.parseKvShape t = .ok (b, seq, d)) : seq = rowsOf t := by
  unfold KvCache.parseKvShape at h
  split at h
  · exact absurd h (fail_ne_ok _ _ _)
  · unfold rowsOf
    split at h
    · rename_i hs
      cases h
      rw [hs]
    · rename_i hs
      cases h
      rw [hs]
    · exact absurd h (fail_ne_ok _ _ _)

theorem appendChecks_rows {c : KvCache K} {layer : Int} {k v : TensorView K} {seq : Int}
    (h : c.appendChecks layer k v = .ok seq) : seq = rowsOf k := by
  unfold KvCache.appendChecks at h
  split at h
  · exact absurd h (fail_ne_ok _ _ _)
  split at h
  · exact absurd h (fail_ne_ok _ _ _)
  obtain ⟨⟨b, n, d⟩, hk, h⟩ := bind_ok h
  obtain ⟨⟨b', n', d'⟩, -, h⟩ := bind_ok h
  dsimp only at h
  split at h
  · exact absurd h (fail_ne_ok _ _ _)
  split at h
  · exact absurd h (fail_ne_ok _ _ _)
  cases h
  exact parseKvShape_rows hk

/-- What an append does to the counters. -/
theorem appendLayer_counts (c : KvCache K) (layer : Int) (k v : TensorView K) :
    ((c.appendLayer layer k v).2.nLayers = c.nLayers ∧ (c.appendLayer layer k v).2.maxSeq = c.maxSeq) ∧
      (c.appendLayer layer k v).2.pastLen ≤ c.pastLen ∧
      ((c.appendLayer layer k v).2.pendingSeq = c.pendingSeq ∨ (c.appendLayer layer k v).2.pendingSeq = rowsOf k) := by
  have hpast := (KvCache.appendLayer_past c layer k v).1
  have hcompact : ∀ n, ((c.compactToFit n).nLayers = c.nLayers ∧ (c.compactToFit n).maxSeq = c.maxSeq) ∧
      (c.compactToFit n).pendingSeq = c.pendingSeq := by
    intro n
    unfold KvCache.compactToFit
    dsimp only
    split_ifs <;> exact ⟨⟨rfl, rfl⟩, rfl⟩
  refine ⟨?_, hpast, ?_⟩
  · unfold KvCache.appendLayer
    split
    · exact ⟨rfl, rfl⟩
    · dsimp only
      split
      · exact (hcompact _).1
      · split
        · exact (hcompact _).1
        · exact (hcompact _).1
  · unfold KvCache.appendLayer
    split
    · exact .inl rfl
    · rename_i seq hseq
      dsimp only
      split
      · exact .inl (hcompact _).2
      · split
        · exact .inl (hcompact _).2
        · exact .inr (appendChecks_rows hseq)

theorem rowsOf_arg (op : KvOp K) (floats : Nat → List K) (i : Nat) :
    rowsOf (op.arg buffers floats i) = rowsOf (op.arg buffers (fun _ => []) i) := by
  unfold KvOp.arg
  cases op.inputs[i]? with
  | none => rfl
  | some t => rfl

/-- A run's counters, when each operator appends at most one row. -/
structure Counts (c d : KvCache K) : Prop where
  sizes : d.nLayers = c.nLayers ∧ d.maxSeq = c.maxSeq
  past : d.pastLen ≤ c.pastLen
  pending : c.pendingSeq ≤ 1 → d.pendingSeq ≤ 1

theorem Counts.refl (c : KvCache K) : Counts c c := ⟨⟨rfl, rfl⟩, Int.le_refl _, id⟩

theorem Counts.trans {c d e : KvCache K} (h : Counts c d) (h' : Counts d e) : Counts c e :=
  ⟨⟨h'.sizes.1.trans h.sizes.1, h'.sizes.2.trans h.sizes.2⟩, h'.past.trans h.past, fun hc => h'.pending (h.pending hc)⟩

theorem dispatch_counts {op : KvOp K} (h : op.OneRow buffers) (s : KvSession K) :
    Counts s.cache (op.dispatch buffers s).2.cache := by
  rcases op.dispatch_cache s with hsame | ⟨-, hsame⟩
  · rw [hsame]
    exact Counts.refl _
  · rw [hsame]
    unfold KvOp.append
    cases hl : op.layer with
    | none => exact Counts.refl _
    | some layer =>
      obtain ⟨hmax, hpast, hpending⟩ := appendLayer_counts s.cache layer (op.arg buffers s.floats 1) (op.arg buffers s.floats 2)
      refine ⟨hmax, hpast, fun hc => ?_⟩
      have hrows := h (by simp [hl])
      rw [← rowsOf_arg op s.floats] at hrows
      rcases hpending with he | he
      · exact he.trans_le hc
      · exact he.trans_le hrows

theorem runPlan_counts (o : Outside) {ops : List (KvOp K)} {i : Nat} {s : KvSession K} (hone : ∀ op ∈ ops, op.OneRow buffers) :
    Counts s.cache (runPlan buffers o i ops s).2.cache :=
  runPlan_preserves (r := fun a b => Counts a.cache b.cache) (fun s => Counts.refl s.cache) (fun h h' => h.trans h')
    fun op hop s => dispatch_counts (hone op hop) s

theorem runForward_counts (o : Outside) {ops : List (KvOp K)} {s : KvSession K} (hone : ∀ op ∈ ops, op.OneRow buffers) :
    Counts s.cache (runForward buffers o ops s).2.cache := by
  have hplan := runPlan_counts o (i := 0) (s := s) hone
  unfold runForward
  cases o.start with
  | some e => exact Counts.refl _
  | none =>
    dsimp only
    rcases hrun : runPlan buffers o 0 ops s with ⟨_ | _, s'⟩
    · rw [hrun] at hplan
      exact hplan
    · rw [hrun] at hplan
      cases o.synchronize with
      | some e => exact hplan
      | none => exact hplan

/-- A run commits at most one row. -/
theorem runSession_counts (o : Outside) {ops : List (KvOp K)} {s : KvSession K} (hone : ∀ op ∈ ops, op.OneRow buffers)
    (hpending : s.cache.pendingSeq ≤ 1) : ((runSession buffers o ops s).2.cache.nLayers = s.cache.nLayers ∧
      (runSession buffers o ops s).2.cache.maxSeq = s.cache.maxSeq) ∧
        (runSession buffers o ops s).2.cache.pastLen ≤ s.cache.pastLen + 1 ∧
          (runSession buffers o ops s).2.cache.pendingSeq ≤ 1 := by
  have hforward := runForward_counts o (s := s) hone
  unfold runSession
  rcases hrun : runForward buffers o ops s with ⟨_ | _, s'⟩
  · rw [hrun] at hforward
    have hpast := hforward.past
    exact ⟨hforward.sizes, by dsimp only at hpast ⊢; omega, hforward.pending hpending⟩
  · rw [hrun] at hforward
    have hsizes := hforward.sizes
    have hpast := hforward.past
    have hpend := hforward.pending hpending
    dsimp only at hsizes hpast hpend
    have hcommit : ∀ c, c = (if s'.cache.configured then s'.cache.commitStep else s'.cache) →
        (c.nLayers = s.cache.nLayers ∧ c.maxSeq = s.cache.maxSeq) ∧ c.pastLen ≤ s.cache.pastLen + 1 ∧ c.pendingSeq ≤ 1 := by
      intro c hc
      split at hc
      · rw [hc]
        refine ⟨hsizes, ?_, ?_⟩
        · show s'.cache.pastLen + s'.cache.pendingSeq ≤ _
          omega
        · show (0 : Int) ≤ 1
          omega
      · rw [hc]
        exact ⟨hsizes, by omega, hpend⟩
    cases o.trace with
    | some e => exact hcommit _ rfl
    | none => exact hcommit _ rfl

end Rows

/-! ## The loops -/

/-- In every run of the call, each append that is reached drops no committed rows. -/
def RunsKeep (env : GenerateEnv G) (buffers : Nat → TensorView K) (ops : List (KvOp K)) (st : GenState K) : Prop :=
  ∀ (k : Nat) (s : KvSession K), st.runs[k]? = some s →
    ∀ op ∈ runAppends buffers (env.run k) (opsFor s.cache ops) s, op.Keeps buffers s.cache

/-- The cache has a row for each run of the call. -/
structure CacheFits (window : Int) (st : GenState K) : Prop where
  window : st.session.cache.configured = true → st.session.cache.maxSeq = window
  past : st.session.cache.pastLen ≤ st.runs.length
  pending : st.session.cache.pendingSeq ≤ 1

section Loops

variable {lib : SamplerLib K G} {env : GenerateEnv G} {buffers : Nat → TensorView K} {ops : List (KvOp K)}
  {limit : Option Int} {tokensId scoresId : TensorId} {call : GenerateCall K} {window : Int} {st : GenState K}

/-- An append of one row drops nothing while there is room. -/
theorem keeps_of_room {op : KvOp K} (hone : op.OneRow buffers) {c : KvCache K} (hroom : c.pastLen + 1 ≤ c.maxSeq) :
    op.Keeps buffers c := by
  intro layer seq hl hseq hdrops
  have hrows := hone (by simp [hl])
  rw [← appendChecks_rows hseq] at hrows
  have hover := hdrops.1
  omega

theorem runAppends_subset {o : Outside} {s : KvSession K} {op : KvOp K} (h : op ∈ runAppends buffers o ops s) : op ∈ ops := by
  unfold runAppends at h
  split at h
  · cases h
  · exact mem_of_reached h

theorem opsFor_oneRow (hone : ∀ op ∈ ops, op.OneRow buffers) (c : KvCache K) : ∀ op ∈ opsFor c ops, op.OneRow buffers := by
  intro op hop
  unfold opsFor at hop
  split at hop
  · exact hone op hop
  · obtain ⟨q, -, rfl⟩ := List.mem_map.mp hop
    exact fun hl => absurd rfl hl

/-- Without a cache nothing is dropped; with one there is room. -/
theorem opsFor_keeps (hone : ∀ op ∈ ops, op.OneRow buffers) {c : KvCache K}
    (hroom : c.configured = true → c.pastLen + 1 ≤ c.maxSeq) : ∀ op ∈ opsFor c ops, op.Keeps buffers c := by
  intro op hop
  unfold opsFor at hop
  split at hop
  · rename_i hconf
    exact keeps_of_room (hone op hop) (hroom hconf)
  · obtain ⟨q, -, rfl⟩ := List.mem_map.mp hop
    intro layer seq hl
    cases hl

/-- What holds between two steps of the loops: when a run appends at most one row, the runs
    so far have kept all rows and the cache has a row for each. -/
def Steady (env : GenerateEnv G) (buffers : Nat → TensorView K) (ops : List (KvOp K)) (window : Int) (st : GenState K) : Prop :=
  (∀ op ∈ ops, op.OneRow buffers) → CacheFits window st ∧ RunsKeep env buffers ops st

theorem Steady.emit {out : List Int} (h : Steady env buffers ops window st) : Steady env buffers ops window { st with out := out } :=
  fun hone => ⟨⟨(h hone).1.window, (h hone).1.past, (h hone).1.pending⟩, (h hone).2⟩

variable [Field K]

theorem writeToken_cache {s s' : KvSession K} {token : Int} (h : s.writeToken buffers tokensId token = .ok s') :
    s'.cache = s.cache := by
  unfold KvSession.writeToken at h
  split at h
  · exact absurd h (fail_ne_ok _ _ _)
  · dsimp only at h
    split at h
    · exact absurd h (fail_ne_ok _ _ _)
    · cases h
      rfl

/-- What one `feed` does to the counters. -/
theorem feed_counts (token : Int) : (st.feed env buffers ops tokensId token).1 = none →
    (st.feed env buffers ops tokensId token).2.out = st.out ∧
      (st.feed env buffers ops tokensId token).2.runs.length = st.runs.length + 1 := by
  unfold GenState.feed
  split
  · intro h
    cases h
  · dsimp only
    split
    · intro h
      cases h
    · intro _
      exact ⟨rfl, by simp⟩

theorem feed_fits (hone : ∀ op ∈ ops, op.OneRow buffers) (hfits : CacheFits window st) (hkeep : RunsKeep env buffers ops st)
    (hroom : (st.runs.length : Int) < window) (token : Int) :
    RunsKeep env buffers ops (st.feed env buffers ops tokensId token).2 ∧
      ((st.feed env buffers ops tokensId token).1 = none → CacheFits window (st.feed env buffers ops tokensId token).2) := by
  unfold GenState.feed
  cases hwrite : st.session.writeToken buffers tokensId token with
  | error e => exact ⟨hkeep, fun h => by cases h⟩
  | ok session =>
    have hcache := writeToken_cache hwrite
    have hpast := hfits.past
    have hkeepNew : ∀ out s', RunsKeep env buffers ops ⟨s', out, st.runs ++ [session]⟩ := by
      intro out s' k s hs op hop
      rcases Nat.lt_trichotomy k st.runs.length with hlt | heq | hgt
      · rw [List.getElem?_append_left hlt] at hs
        exact hkeep k s hs op hop
      · subst heq
        obtain rfl : session = s := by simpa using hs
        refine opsFor_keeps hone (fun hconf => ?_) op (runAppends_subset hop)
        rw [hcache] at hconf ⊢
        have hmax := hfits.window hconf
        omega
      · have hnone : (st.runs ++ [session])[k]? = none := by simp; omega
        rw [hnone] at hs
        cases hs
    obtain ⟨⟨hlayers, hmax⟩, hpast', hpend⟩ := runSession_counts (env.run st.runs.length) (s := session)
      (opsFor_oneRow hone session.cache) (hcache ▸ hfits.pending)
    rw [hcache] at hlayers hmax hpast' hpend
    have hwindow : ∀ c : KvCache K, c.nLayers = st.session.cache.nLayers → c.maxSeq = st.session.cache.maxSeq →
        c.configured = true → c.maxSeq = window := by
      intro c hl hm hconf
      rw [hm]
      refine hfits.window ?_
      unfold KvCache.configured at hconf ⊢
      rwa [← hl]
    dsimp only
    rw [hcache]
    split
    · exact ⟨hkeepNew _ _, fun h => by cases h⟩
    · refine ⟨hkeepNew _ _, fun _ => ?_⟩
      by_cases hwarned : env.warned st.runs.length = true
      · refine ⟨?_, ?_, ?_⟩
        · simp only [if_pos hwarned]
          exact hwindow _ hlayers hmax
        · simp only [if_pos hwarned]
          show (0 : Int) ≤ _
          omega
        · simp only [if_pos hwarned]
          show (0 : Int) ≤ 1
          omega
      · simp only [if_neg hwarned]
        refine ⟨hwindow _ hlayers hmax, ?_, hpend⟩
        simp only [List.length_append, List.length_singleton]
        push_cast
        omega

/-- What one `feed` does, for the loops. -/
structure Fed (env : GenerateEnv G) (buffers : Nat → TensorView K) (ops : List (KvOp K)) (window : Int) (st : GenState K)
    (r : Option Fault × GenState K) : Prop where
  out : r.1 = none → r.2.out = st.out
  runs : r.1 = none → r.2.runs.length = st.runs.length + 1
  keeps : (∀ op ∈ ops, op.OneRow buffers) → RunsKeep env buffers ops r.2
  steady : r.1 = none → Steady env buffers ops window r.2

theorem feed_spec (hsteady : Steady env buffers ops window st) (hroom : (st.runs.length : Int) < window) (token : Int) :
    Fed env buffers ops window st (st.feed env buffers ops tokensId token) where
  out h := (feed_counts token h).1
  runs h := (feed_counts token h).2
  keeps hone := (feed_fits hone (hsteady hone).1 (hsteady hone).2 hroom token).1
  steady h hone :=
    have hfit := feed_fits hone (hsteady hone).1 (hsteady hone).2 hroom token
    ⟨hfit.2 h, hfit.1⟩

/-- The check inside the loops does not fire below the limit. -/
theorem limit_quiet {total used : Int} (hlimit : ∀ m ∈ limit, total ≤ m) (hused : used < total) : limit.any (· ≤ used) = false := by
  rw [Option.any_eq_false]
  intro m hm
  have hle := hlimit m hm
  have hnot : ¬ m ≤ used := by omega
  simpa using hnot

/-- How the first loop ends. -/
structure Prefilled (env : GenerateEnv G) (buffers : Nat → TensorView K) (ops : List (KvOp K)) (window : Int) (tokens : List Int)
    (st : GenState K) (r : Option Exit × GenState K) : Prop where
  not_done : r.1 ≠ some .done
  not_exceeded : ∀ phase, r.1 ≠ some (.exceeded phase)
  keeps : (∀ op ∈ ops, op.OneRow buffers) → RunsKeep env buffers ops r.2
  out : r.1 = none → r.2.out = st.out ++ tokens
  runs : r.1 = none → r.2.runs.length = st.out.length + tokens.length
  steady : r.1 = none → Steady env buffers ops window r.2

theorem prefillLoop_spec {total : Int} (hlimit : ∀ m ∈ limit, total ≤ m) (hwindow : total ≤ window) :
    ∀ {tokens : List Int} {st : GenState K}, Steady env buffers ops window st → st.runs.length = st.out.length →
      (st.out.length : Int) + tokens.length ≤ total →
      Prefilled env buffers ops window tokens st (prefillLoop env buffers ops limit tokensId tokens st) := by
  intro tokens
  induction tokens with
  | nil =>
    intro st hsteady hruns _
    exact ⟨nofun, fun _ => nofun, fun hone => (hsteady hone).2, fun _ => by simp [prefillLoop], fun _ => by simpa [prefillLoop] using hruns,
      fun _ => hsteady⟩
  | cons token tokens ih =>
    intro st hsteady hruns htotal
    rw [List.length_cons] at htotal
    push_cast at htotal
    have hquiet : limit.any (· < (st.out.length : Int) + 1) = false := by
      rw [Option.any_eq_false]
      intro m hm
      have hle := hlimit m hm
      have hnot : ¬ m < (st.out.length : Int) + 1 := by omega
      simpa using hnot
    have hfed : Fed env buffers ops window st (st.feed env buffers ops tokensId token) := feed_spec hsteady (by omega) token
    unfold prefillLoop
    cases env.paused st.out.length with
    | some e => exact ⟨nofun, fun _ => nofun, fun hone => (hsteady hone).2, nofun, nofun, nofun⟩
    | none =>
      rw [hquiet]
      rcases hfeed : st.feed env buffers ops tokensId token with ⟨_ | e, st'⟩
      · rw [hfeed] at hfed
        have hout := hfed.out rfl
        have hlen := hfed.runs rfl
        dsimp only at hout hlen
        have hsteady' : Steady env buffers ops window { st' with out := st'.out ++ [token] } := (hfed.steady rfl).emit
        have hrest := ih hsteady' (by simp [hout, hlen, hruns]) (by simp [hout]; omega)
        have houtAll : (st'.out ++ [token]) ++ tokens = st.out ++ token :: tokens := by simp [hout]
        have hlenAll : (st'.out ++ [token]).length + tokens.length = st.out.length + (token :: tokens).length := by
          simp [hout]
          omega
        exact ⟨hrest.not_done, hrest.not_exceeded, hrest.keeps, fun h => (hrest.out h).trans houtAll,
          fun h => (hrest.runs h).trans hlenAll, hrest.steady⟩
      · rw [hfeed] at hfed
        exact ⟨nofun, fun _ => nofun, hfed.keeps, nofun, nofun, nofun⟩

/-- How the second loop ends, after the prompt and the tokens `g`. -/
structure Decoded (env : GenerateEnv G) (buffers : Nat → TensorView K) (ops : List (KvOp K)) (call : GenerateCall K)
    (maxNew : Nat) (r : Exit × GenState K) : Prop where
  not_exceeded : ∀ phase, r.1 ≠ .exceeded phase
  keeps : (∀ op ∈ ops, op.OneRow buffers) → RunsKeep env buffers ops r.2
  done : r.1 = .done → ∃ g, r.2.out = call.promptTokens ++ g ∧ g.length ≤ maxNew ∧ (∀ t ∈ g.dropLast, t ∉ call.stopTokenIds) ∧
    r.2.runs.length = call.promptTokens.length + (g.length - 1)

variable [LinearOrder K]

theorem decodeLoop_spec {total : Int} {maxNew : Nat} (hlimit : ∀ m ∈ limit, total ≤ m) (hwindow : total ≤ window)
    (htotal : (call.promptTokens.length : Int) + maxNew ≤ total) :
    ∀ {remaining : Nat} {rng : G} {st : GenState K} {g : List Int}, Steady env buffers ops window st →
      st.out = call.promptTokens ++ g → st.runs.length = call.promptTokens.length + g.length →
      (∀ t ∈ g, t ∉ call.stopTokenIds) → g.length + remaining = maxNew → (remaining = 0 → g = []) →
      Decoded env buffers ops call maxNew (decodeLoop lib env buffers ops limit tokensId scoresId call remaining rng st) := by
  intro remaining
  induction remaining with
  | zero =>
    intro rng st g hsteady hout hruns hstop hlen hnil
    obtain rfl := hnil rfl
    unfold decodeLoop
    exact ⟨fun _ => nofun, fun hone => (hsteady hone).2, fun _ => ⟨[], hout, by simp, by simp, hruns⟩⟩
  | succ remaining ih =>
    intro rng st g hsteady hout hruns hstop hlen _
    have houtlen : st.out.length = call.promptTokens.length + g.length := by simp [hout]
    unfold decodeLoop
    cases env.paused st.out.length with
    | some e => exact ⟨fun _ => nofun, fun hone => (hsteady hone).2, nofun⟩
    | none =>
      rw [limit_quiet hlimit (show (st.out.length : Int) < total by omega)]
      cases st.session.sampleToken lib buffers scoresId call.sample st.out rng with
      | error e => exact ⟨fun _ => nofun, fun hone => (hsteady hone).2, nofun⟩
      | ok sampled =>
        obtain ⟨next, rng'⟩ := sampled
        dsimp only
        have hends : ∃ g', st.out ++ [next] = call.promptTokens ++ g' ∧ g'.length ≤ maxNew ∧
            (∀ t ∈ g'.dropLast, t ∉ call.stopTokenIds) ∧ st.runs.length = call.promptTokens.length + (g'.length - 1) := by
          refine ⟨g ++ [next], by simp [hout], ?_, ?_, by simp [hruns]⟩
          · simp only [List.length_append, List.length_singleton]
            omega
          · simpa using hstop
        have hkeep : (∀ op ∈ ops, op.OneRow buffers) → RunsKeep env buffers ops { st with out := st.out ++ [next] } :=
          fun hone => (hsteady hone).2
        split
        · rename_i hno
          cases hno
        split
        · exact ⟨fun _ => nofun, hkeep, fun _ => hends⟩
        split
        · exact ⟨fun _ => nofun, hkeep, fun _ => hends⟩
        rename_i hgo
        split
        · exact ⟨fun _ => nofun, hkeep, fun _ => hends⟩
        rename_i hmore
        have hroom : (st.runs.length : Int) + 1 < total := by omega
        rw [limit_quiet hlimit (show (((st.out ++ [next]).length : Nat) : Int) < total by simp; omega)]
        have hfed : Fed env buffers ops window { st with out := st.out ++ [next] }
            (GenState.feed env buffers ops tokensId { st with out := st.out ++ [next] } next) :=
          feed_spec hsteady.emit (by dsimp only; omega) next
        rcases hfeed : GenState.feed env buffers ops tokensId { st with out := st.out ++ [next] } next with ⟨_ | e, st'⟩
        · rw [hfeed] at hfed
          have hout' := hfed.out rfl
          have hlen' := hfed.runs rfl
          dsimp only at hout' hlen'
          refine ih (hfed.steady rfl) (g := g ++ [next]) ?_ ?_ ?_ ?_ ?_
          · rw [hout', hout, List.append_assoc]
          · rw [hlen', hruns, List.length_append, List.length_singleton, Nat.add_assoc]
          · intro t ht
            rcases List.mem_append.mp ht with ht | ht
            · exact hstop t ht
            · rw [List.mem_singleton.mp ht]
              exact hgo
          · rw [List.length_append, List.length_singleton]
            omega
          · intro hz
            exact absurd hz hmore
        · rw [hfeed] at hfed
          exact ⟨fun _ => nofun, hfed.keeps, nofun⟩

end Loops

/-! ## A call -/

/-- What `generate` promises of a call. -/
structure Generated (s : GenerateSession R K) (env : GenerateEnv G) (call : GenerateCall K) (r : Exit × GenState K) : Prop where
  tokens : r.1 = .done → ∃ g, r.2.out = call.promptTokens ++ g ∧ (g.length : Int) ≤ call.maxNewTokens ∧
    (∀ t ∈ g.dropLast, t ∉ call.stopTokenIds) ∧ r.2.runs.length = call.promptTokens.length + (g.length - 1)
  within : r.1 = .done → 0 < maxContextOf s.options s.graph → (r.2.out.length : Int) ≤ maxContextOf s.options s.graph
  not_exceeded : ∀ phase, r.1 ≠ .exceeded phase
  keeps : (∀ op ∈ s.ops, op.OneRow s.buffers) → RunsKeep env s.buffers s.ops r.2

section Generated

variable {lib : SamplerLib K G} {env : GenerateEnv G} {s : GenerateSession R K} {call : GenerateCall K}

theorem checkLengths_ok {limit : Option Int} {promptLen total : Int} (h : checkLengths limit promptLen total = .ok ()) :
    ∀ m ∈ limit, total ≤ m := by
  intro m hm
  obtain rfl := Option.mem_def.mp hm
  unfold checkLengths at h
  dsimp only at h
  split at h
  · exact absurd h (fail_ne_ok _ _ _)
  · split at h
    · exact absurd h (fail_ne_ok _ _ _)
    · omega

/-- The cache has room for the whole output. -/
theorem total_le_kvMax {total : Int} (hwindow : s.options.kvWindow = 0)
    (hlimit : ∀ m ∈ contextLimit s.options s.graph, total ≤ m) : total ≤ s.kvMax call total := by
  have hno : ¬ 0 < s.options.kvWindow := by omega
  unfold GenerateSession.kvMax
  rw [if_neg hno]
  by_cases hctx : 0 < maxContextOf s.options s.graph
  · rw [if_pos hctx]
    exact hlimit _ (by simp [contextLimit, hctx, hno])
  · rw [if_neg hctx]
    exact le_max_left _ _

variable [Field K]

/-- A cache for the call is empty, and has `max_seq` rows. -/
theorem ensureKvCache_fits {kvSink maxSeq : Int} {kv kv' : Option (KvCache K)} {g : Graph R}
    (h : ensureKvCache g kvSink maxSeq kv = .ok kv') : ∀ c ∈ kv', c.maxSeq = maxSeq ∧ c.pastLen = 0 ∧ c.pendingSeq = 0 := by
  intro c hc
  obtain rfl := Option.mem_def.mp hc
  unfold ensureKvCache at h
  obtain ⟨k, -, h⟩ := bind_ok h
  split at h
  · cases h
  · obtain ⟨d, hd, h⟩ := bind_ok h
    cases h
    unfold KvCache.configure at hd
    split at hd
    · exact absurd hd (fail_ne_ok _ _ _)
    · split at hd
      · exact absurd hd (fail_ne_ok _ _ _)
      · cases hd
        exact ⟨rfl, rfl, rfl⟩

variable [LinearOrder K]

/-- What the checks before the loops establish. -/
theorem prepare_ok {kv kv' : Option (KvCache K)} {tokensId scoresId : TensorId}
    (h : s.prepare env call kv = .ok (tokensId, scoresId, kv')) : 0 ≤ call.maxNewTokens ∧
      (∀ m ∈ contextLimit s.options s.graph, call.promptTokens.length + call.maxNewTokens ≤ m) ∧
        ∀ c ∈ kv', c.maxSeq = s.kvMax call (call.promptTokens.length + call.maxNewTokens) ∧ c.pastLen = 0 ∧ c.pendingSeq = 0 := by
  unfold GenerateSession.prepare at h
  split at h
  · exact absurd h (fail_ne_ok _ _ _)
  split at h
  · exact absurd h (fail_ne_ok _ _ _)
  split at h
  · exact absurd h (fail_ne_ok _ _ _)
  rename_i hneg
  split at h
  · cases h
  obtain ⟨total, htotal, h⟩ := bind_ok h
  obtain ⟨u, hcheck, h⟩ := bind_ok h
  obtain ⟨tokens, -, h⟩ := bind_ok h
  obtain ⟨scores, -, h⟩ := bind_ok h
  obtain ⟨cache, hcache, h⟩ := bind_ok h
  obtain ⟨u', -, h⟩ := bind_ok h
  cases h
  have hsum : total = call.promptTokens.length + call.maxNewTokens := by
    unfold addI64 at htotal
    split at htotal
    · cases htotal
      rfl
    · cases htotal
  subst hsum
  refine ⟨by omega, checkLengths_ok hcheck, fun c hc => ?_⟩
  obtain ⟨d, hd, rfl⟩ := Option.map_eq_some_iff.mp hc
  exact ensureKvCache_fits hcache d hd

/-- Without a sliding window, every call keeps its promises. -/
theorem generate_spec (hwindow : s.options.kvWindow = 0) (kv : Option (KvCache K)) (floats : Nat → List K) :
    Generated s env call (s.generate lib env call kv floats) := by
  unfold GenerateSession.generate
  cases hprep : s.prepare env call kv with
  | error e => exact ⟨nofun, nofun, fun _ => nofun, fun _ k session hs => by simp at hs⟩
  | ok prepared =>
    obtain ⟨tokensId, scoresId, kv'⟩ := prepared
    obtain ⟨hmaxNew, hlimit, hcache⟩ := prepare_ok hprep
    have htotal : _ ≤ s.kvMax call _ := total_le_kvMax hwindow hlimit
    have hsteady : Steady env s.buffers s.ops (s.kvMax call (call.promptTokens.length + call.maxNewTokens))
        ⟨⟨floats, kv'.getD .unconfigured⟩, [], []⟩ := by
      refine fun _ => ⟨⟨fun hconf => ?_, ?_, ?_⟩, fun k session hs => by simp at hs⟩
      · cases hkv : kv' with
        | none =>
          rw [hkv] at hconf
          cases hconf
        | some c => exact (hcache c hkv).1
      · cases hkv : kv' with
        | none => exact Int.le_refl 0
        | some c => exact ((hcache c hkv).2.1).le
      · cases hkv : kv' with
        | none =>
          show (0 : Int) ≤ 1
          omega
        | some c =>
          have hpend := (hcache c hkv).2.2
          show c.pendingSeq ≤ 1
          omega
    have hprefill : Prefilled env s.buffers s.ops _ call.promptTokens _ (prefillLoop env s.buffers s.ops _ tokensId _ _) :=
      prefillLoop_spec hlimit htotal hsteady rfl (by simp; omega)
    dsimp only
    rcases hloop : prefillLoop env s.buffers s.ops (contextLimit s.options s.graph) tokensId call.promptTokens
        ⟨⟨floats, kv'.getD .unconfigured⟩, [], []⟩ with ⟨_ | exit, st⟩
    · rw [hloop] at hprefill
      have hout := hprefill.out rfl
      have hruns := hprefill.runs rfl
      have hstate := hprefill.steady rfl
      rw [List.nil_append] at hout
      have hunscaled : Steady env s.buffers s.ops (s.kvMax call (call.promptTokens.length + call.maxNewTokens)) st.unscaled :=
        fun hone => ⟨⟨(hstate hone).1.window, (hstate hone).1.past, (hstate hone).1.pending⟩, (hstate hone).2⟩
      have hprompt : st.unscaled.out = call.promptTokens ++ [] := by simpa [GenState.unscaled] using hout
      have hfed : st.unscaled.runs.length = call.promptTokens.length + ([] : List Int).length := by
        simpa [GenState.unscaled] using hruns
      have hdecode : Decoded env s.buffers s.ops call call.maxNewTokens.toNat (decodeLoop lib env s.buffers s.ops
          (contextLimit s.options s.graph) tokensId scoresId call call.maxNewTokens.toNat
          (if call.sample.hasSeed then lib.seeded call.sample.seed else env.device) st.unscaled) :=
        decodeLoop_spec hlimit htotal (by omega) hunscaled hprompt hfed (by simp) (by simp) (by simp)
      refine ⟨fun hdone => ?_, fun hdone hctx => ?_, hdecode.not_exceeded, fun hone => hdecode.keeps hone⟩
      · obtain ⟨g, hg, hlen, hstop, hcount⟩ := hdecode.done hdone
        exact ⟨g, hg, by omega, hstop, hcount⟩
      · obtain ⟨g, hg, hlen, -, -⟩ := hdecode.done hdone
        have hle := hlimit (maxContextOf s.options s.graph) (by simp [contextLimit, hctx, hwindow])
        show ((decodeLoop lib env s.buffers s.ops _ tokensId scoresId call _ _ st.unscaled).2.out.length : Int) ≤ _
        rw [hg, List.length_append]
        push_cast
        omega
    · rw [hloop] at hprefill
      refine ⟨fun hdone => ?_, fun hdone => ?_, fun phase hexit => ?_, hprefill.keeps⟩
      · exact absurd (congrArg some hdone) hprefill.not_done
      · exact absurd (congrArg some hdone) hprefill.not_done
      · exact absurd (congrArg some hexit) (hprefill.not_exceeded phase)

end Generated

/-! ## Two positions a run -/

/-- `seq` tokens that attend to themselves, and their scores. -/
def echoGraph (seq : Int) : Graph Unit :=
  { version := kCurrentIrVersion, name := "echo", producer := "", domain := "", nodes := [], inputs := [1], outputs := [2]
    tensors := [⟨1, "tokens", .f32, [1, seq, 1], .unspecified, false, "", .f32⟩,
      ⟨2, "probs", .f32, [1, seq, 1], .unspecified, false, "", .f32⟩]
    metadata := [("n_layers", "1"), ("n_heads", "1"), ("n_kv_heads", "1"), ("kv_dim", "1")] }

def echoOp (seq : Nat) : KvOp Rat :=
  attentionOp (fun _ => 1) id id ⟨1, 1, true, 0, 0⟩ 1 0 1 1 1 2 (.ofF32 [1, seq, 1] (List.replicate seq 0))

def echoSession (seq : Nat) : GenerateSession Unit Rat where
  options := ⟨.zeros, "", false, "", true, false, true, true, .f32, true, 0, 0⟩
  kvSink := 4
  ready := true
  graph := echoGraph seq
  buffers _ := .ofF32 [1, seq, 1] []
  ops := [echoOp seq]

def quietEnv : GenerateEnv Unit := ⟨none, fun _ => none, fun _ => ⟨none, fun _ => none, none, none⟩, fun _ => false, ()⟩

def fixedLib : SamplerLib Rat Unit := ⟨fun _ => 1, fun _ xs => xs, id, fun _ => (), fun g => (0, g)⟩

/-- Two tokens in, one out. -/
def echoCall : GenerateCall Rat := ⟨[5, 7], 1, [], none, ⟨0, 1, 0, 1, 0, false⟩⟩

def echoed (seq : Nat) : Exit × GenState Rat :=
  (echoSession seq).generate fixedLib quietEnv echoCall none fun _ => List.replicate seq 0

theorem echo_generated : (echoed 1).1 = .done ∧ Generated (echoSession 1) quietEnv echoCall (echoed 1) :=
  ⟨by decide +kernel, generate_spec rfl none _⟩

/-- The second run makes room for two rows where one is left. -/
theorem two_rows_slide : (echoed 2).1 = .done ∧ ¬ RunsKeep quietEnv (echoSession 2).buffers (echoSession 2).ops (echoed 2).2 := by
  refine ⟨by decide +kernel, fun h => ?_⟩
  have hfacts : ((echoed 2).2.runs[1]?).map (fun s => (s.cache.configured, decide (s.cache.Drops 2),
      decide ((echoOp 2).appendSeq (echoSession 2).buffers s.cache 0 = .ok 2),
      (runAppends (echoSession 2).buffers (quietEnv.run 1) (opsFor s.cache (echoSession 2).ops) s).length)) =
        some (true, true, true, 1) := by
    decide +kernel
  obtain ⟨s, hs, hfacts⟩ := Option.map_eq_some_iff.mp hfacts
  simp only [Prod.mk.injEq, decide_eq_true_eq] at hfacts
  obtain ⟨hconf, hdrops, hseq, hreached⟩ := hfacts
  obtain ⟨op, hop⟩ := List.exists_mem_of_length_pos (by rw [hreached]; decide)
  have hmem : op ∈ opsFor s.cache (echoSession 2).ops := runAppends_subset hop
  rw [opsFor, if_pos hconf] at hmem
  obtain rfl : op = echoOp 2 := List.mem_singleton.mp hmem
  exact h 1 s hs (echoOp 2) hop 0 2 rfl hseq hdrops

end Uaii.Runtime
