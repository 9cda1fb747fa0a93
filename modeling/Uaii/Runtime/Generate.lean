/-
  Uaii.Runtime.Generate — `Session::create`, `run` and `generate`
  (`libs/uaii-runtime/src/session.cpp`), without streaming.

  `create` fuses the graph when the option is set, plans it, and allocates its tensors,
  one slot for several of them when memory reuse is on. `run` executes the plan over the
  allocations. `generate` feeds the prompt token by token and then samples from the
  tensor named `logits` or `probs`, whatever the run has left in its memory.

  An operator is a pure function of its attributes, the shapes of its tensors, and its
  inputs in this and the earlier runs (`past`, which stands for the key-value cache). A
  packed weight is read as the floats it decodes to.
-/

import Mathlib.Data.List.TakeWhile
import Uaii.Ir.Calls
import Uaii.Lib.Decimal
import Uaii.Planner.Fusion
import Uaii.Runtime.LoadWeights
import Uaii.Runtime.Sampling

namespace Uaii.Runtime

open Uaii.Ir Uaii.Planner Uaii.Quant

variable {R K G : Type}

/-! ## Creating -/

def supportsCpuOp (opName : String) : Bool :=
  opName ∈ ["MatMul", "MatMulRelu", "Softmax", "LayerNorm", "RMSNorm", "Relu", "Gelu", "Silu", "Relu2", "Softcap", "Add",
    "Mul", "Neg", "Identity", "Embedding", "Positions", "RoPE", "MLAExpandK", "Attention", "MoERouter", "MoEExperts",
    "MoEExpertsSwiGLU", "Reshape", "Transpose", "Slice", "MLP"]

structure Session (R : Type) where
  graph : Graph R
  plan : ExecutionPlan
  buffers : Buffers
  owned : List OwnedSlot

/-- `name_to_id_[name]`. -/
def nameToId (g : Graph R) (name : String) : Option TensorId :=
  if name = "" then none else (g.tensors.reverse.find? (·.name == name)).map (·.id)

/-- The graph that is planned. -/
def optimized (o : SessionOptions) (g : Graph R) : Graph R := if o.enableFusion then (applyFusionPasses g).1 else g

/-- `MemoryReusePlan{}` when reuse is off. -/
def memoryPlan (h : HashOrder) (o : SessionOptions) (g : Graph R) (plan : ExecutionPlan) : MemoryReusePlan :=
  if o.enableMemoryReuse then buildMemoryReusePlan h g plan.ops else ⟨[], [], [], 0, 0, 0⟩

/-- `validate_graph_error`. -/
def validateGraphError (g : Graph R) (registry : OperatorRegistry) (options : ValidationOptions) : Result Unit :=
  let issues := validateGraph g registry options
  if issuesOk issues then .ok ()
  else
    let errors := issues.filter (·.severity == .error)
    fail .invalidArgument ("graph validation failed with " ++ Nat.repr errors.length ++ " error(s):" ++
      String.join (errors.map fun i => " [" ++ i.code ++ "] " ++ i.message ++ ";"))

def checkKernels : List (Node R) → Result Unit
  | [] => .ok ()
  | n :: ns =>
    if !supportsCpuOp n.opName then fail .notImplemented ("no CPU kernel for " ++ n.opName ++ "@" ++ n.opVersion)
    else checkKernels ns

def createSession (h : HashOrder) (registry : OperatorRegistry) (o : SessionOptions) (a : Allocator) (g : Graph R) :
    Result (Session R) := do
  let g := optimized o g
  let plan ← buildExecutionPlan h g
  if o.validate then validateGraphError g registry { ValidationOptions.default with allowUnknownOps := o.allowUnknownOps }
  else .ok ()
  checkKernels g.nodes
  let (buffers, owned) ← allocateAllTensors o (fun _ => false) g (memoryPlan h o g plan) a
  .ok ⟨g, plan, buffers, owned⟩

/-! ## Memory -/

/-- What a run changes: the floats of every allocation, and what each node has read. -/
structure Machine (K : Type) where
  mem : Nat → Nat → K
  past : Past K

/-- Floats a kernel sees in a buffer. -/
def floatsIn (b : TensorBuffer) : Nat := if isGgufBlockQuant b.quantFormat then floatCount b.shape else b.nbytes / 4

/-- The memory of a buffer that is used: none for a null pointer. -/
def bufferMemory (s : Session R) (b : TensorBuffer) : Result (Option Nat) :=
  match b.data with
  | none => .ok none
  | some ptr =>
    if ((destOf s.owned b).room.getD 0) < b.nbytes then .error (.undefined "access past the allocation") else .ok (some ptr)

/-- A buffer of the run, or `missing <what> tensor <id>`. -/
def findView (s : Session R) (what : String) (tid : TensorId) : Result (TensorBuffer × Nat) :=
  match s.buffers.find tid with
  | none => fail .notFound ("missing " ++ what ++ " tensor " ++ Nat.repr tid)
  | some b => do
    match ← bufferMemory s b with
    | none => fail .notFound ("missing " ++ what ++ " tensor " ++ Nat.repr tid)
    | some ptr => .ok (b, ptr)

def findViews (s : Session R) (what : String) : List TensorId → Result (List (TensorBuffer × Nat))
  | [] => .ok []
  | tid :: tids => do
    let v ← findView s what tid
    let vs ← findViews s what tids
    .ok (v :: vs)

variable [Field K]

def readFloats (mem : Nat → Nat → K) (v : TensorBuffer × Nat) : List K := (List.range (floatsIn v.1)).map (mem v.2)

/-- The first floats of a buffer's memory are overwritten. -/
def writeFloats (mem : Nat → Nat → K) (v : TensorBuffer × Nat) (xs : List K) : Nat → Nat → K :=
  Function.update mem v.2 fun j => if j < floatsIn v.1 then xs.getD j 0 else mem v.2 j

/-! ## Running -/

def writeOutputs (f : Nat → List K) : List (TensorBuffer × Nat) → Nat → (Nat → Nat → K) → Nat → Nat → K
  | [], _, mem => mem
  | v :: vs, i, mem => writeOutputs f vs (i + 1) (writeFloats mem v (f i))

def runNode (κ : Kernel R K) (s : Session R) (n : Node R) (m : Machine K) : Result (Machine K) := do
  let ins ← findViews s "input" n.inputs
  let outs ← findViews s "output" n.outputs
  let vals := ins.map (readFloats m.mem)
  let call : OpCall R := ⟨⟨n.opName, n.opVersion, n.attributes⟩, ins.map (·.1.shape), outs.map (·.1.shape)⟩
  .ok ⟨writeOutputs (kernelOutput κ (m.past n.id) call vals) outs 0 m.mem,
    Function.update m.past n.id (m.past n.id ++ [vals])⟩

def runOps (κ : Kernel R K) (s : Session R) : List PlannedOp → Machine K → Result (Machine K)
  | [], m => .ok m
  | op :: ops, m =>
    match s.graph.findNode op.nodeId with
    | none => fail .internal ("missing node " ++ Nat.repr op.nodeId)
    | some n => do
      let m ← runNode κ s n m
      runOps κ s ops m

def Session.run (κ : Kernel R K) (s : Session R) (m : Machine K) : Result (Machine K) := runOps κ s s.plan.ops m

/-! ## Generating -/

/-- `std::stoll`, none when it throws. -/
def stoll (str : String) : Option Int :=
  let s := str.toList.dropWhile (·.isWhitespace)
  let (neg, s) :=
    match s with
    | '-' :: r => (true, r)
    | '+' :: r => (false, r)
    | r => (false, r)
  let digits := s.takeWhile (·.isDigit)
  let n : Int := (digits.foldl (fun n c => n * 10 + (c.toNat - 48)) 0 : Nat)
  let n := if neg then -n else n
  if digits = [] ∨ n < -2 ^ 63 ∨ 2 ^ 63 ≤ n then none else some n

/-- A minus or none, and digits. -/
theorem stoll_signed (neg : Bool) {ds : List Char} (hne : ds ≠ []) (hds : ∀ c ∈ ds, c.isDigit = true) {n : Int}
    (hn : n = if neg then -(Decimal.digits ds : Int) else Decimal.digits ds) :
    stoll (String.ofList ((if neg then ['-'] else []) ++ ds)) = if n < -2 ^ 63 ∨ 2 ^ 63 ≤ n then none else some n := by
  obtain ⟨d, ds, rfl⟩ := List.exists_cons_of_ne_nil hne
  have hd := hds d List.mem_cons_self
  have htake : (d :: ds).takeWhile (·.isDigit) = d :: ds := List.takeWhile_eq_self_iff.mpr hds
  have hvalue : (d :: ds).foldl (fun n c => n * 10 + (c.toNat - 48)) 0 = Decimal.digits (d :: ds) := by
    show _ = List.foldl _ 0 (d :: ds)
    congr 1
    funext n c
    rw [Nat.mul_comm]
    rfl
  have hspace : d.isWhitespace = false := by
    by_contra hsp
    simp only [Char.isWhitespace, Bool.not_eq_false, Bool.or_eq_true, decide_eq_true_eq] at hsp
    rcases hsp with ((rfl | rfl) | rfl) | rfl <;> cases hd
  have hsign : d ≠ '-' ∧ d ≠ '+' := by
    constructor <;> rintro rfl <;> cases hd
  unfold stoll
  rw [String.toList_ofList]
  cases neg with
  | true =>
    have hdrop : ('-' :: d :: ds).dropWhile (·.isWhitespace) = '-' :: d :: ds := rfl
    simp only [if_true, List.cons_append, List.nil_append, hdrop, htake, hvalue, hn]
    simp
  | false =>
    have hdrop : (d :: ds).dropWhile (·.isWhitespace) = d :: ds := by simp [hspace]
    simp only [Bool.false_eq_true, if_false, List.nil_append, hdrop, hn]
    split
    · next r he => exact absurd (List.cons.inj he).1 hsign.1
    · next r he => exact absurd (List.cons.inj he).1 hsign.2
    · simp [htake, hvalue]

def metaI64 (g : Graph R) (key : String) (default : Int) : Int :=
  match g.metadata.find? (·.1 == key) with
  | none => default
  | some e => (stoll e.2).getD default

/-- `max_ctx`. -/
def maxContextOf (o : SessionOptions) (g : Graph R) : Int :=
  if 0 < o.maxContext then o.maxContext
  else if 0 < metaI64 g "max_context" 0 then metaI64 g "max_context" 0
  else if 0 < metaI64 g "context_length" 0 then metaI64 g "context_length" 0
  else metaI64 g "llama.context_length" 0

/-- The arguments of `generate`. -/
structure Request (K : Type) where
  promptTokens : List Int
  maxNewTokens : Int
  stopTokenIds : List Int
  onNewToken : Option (Int → Bool)
  sample : SampleParams K

/-- A limit on the context: none when it is unknown or the cache slides. -/
def contextLimit (o : SessionOptions) (g : Graph R) : Option Int :=
  if 0 < maxContextOf o g ∧ ¬ 0 < o.kvWindow then some (maxContextOf o g) else none

def checkLengths (limit : Option Int) (promptLen total : Int) : Result Unit :=
  match limit with
  | none => .ok ()
  | some maxCtx =>
    if maxCtx < promptLen then fail .invalidArgument ("prompt length exceeds max_context (" ++ toString promptLen ++ " > " ++
      toString maxCtx ++ ")")
    else if maxCtx < total then fail .invalidArgument ("prompt+max_new_tokens exceeds max_context (" ++ toString total ++
      " > " ++ toString maxCtx ++ ")")
    else .ok ()

def checkRoom (limit : Option Int) (used : Int) (phase : String) : Result Unit :=
  match limit with
  | none => .ok ()
  | some maxCtx => if maxCtx ≤ used then fail .invalidArgument ("context length exceeded during " ++ phase) else .ok ()

def tokensTensor (g : Graph R) : Result TensorId :=
  match nameToId g "tokens" with
  | some id => .ok id
  | none =>
    match g.inputs with
    | id :: _ => .ok id
    | [] => fail .notFound "generate: no tokens input"

def scoresTensor (g : Graph R) (greedy : Bool) : Result TensorId :=
  match (if greedy then none else nameToId g "logits").or ((nameToId g "probs").or (nameToId g "logits")) with
  | some id => .ok id
  | none =>
    match g.outputs with
    | id :: _ => .ok id
    | [] => fail .notFound "generate: no probs/logits output"

/-- The floats of the tokens buffer for a token. -/
def tokenRow (n : Nat) (token : Int) (j : Nat) : K := if j + 1 = n then (token : K) else 0

def writeTokensStep (s : Session R) (tokensId : TensorId) (token : Int) (m : Machine K) : Result (Machine K) :=
  match s.buffers.find tokensId with
  | none => fail .notFound "tokens buffer missing"
  | some b => do
    match ← bufferMemory s b with
    | none => fail .notFound "tokens buffer missing"
    | some ptr =>
      if b.nbytes / 4 = 0 then fail .invalidArgument "tokens buffer empty"
      else .ok { m with mem := Function.update m.mem ptr fun j =>
        if j < b.nbytes / 4 then tokenRow (b.nbytes / 4) token j else m.mem ptr j }

/-- The last row of the scores. -/
def scoresRow (shape : List Int) (scores : List K) : List K :=
  if 2 ≤ shape.length then
    let vocab := shape.getLastD 0
    if 0 < vocab ∧ scores.length % vocab.toNat = 0 then scores.drop (scores.length - vocab.toNat) else scores
  else scores

variable [LinearOrder K] (lib : SamplerLib K G)

def readSampleToken (s : Session R) (scoresId : TensorId) (p : SampleParams K) (history : List Int) (rng : G)
    (m : Machine K) : Result (Int × G) :=
  match s.buffers.find scoresId with
  | none => fail .notFound "scores buffer missing"
  | some b => do
    match ← bufferMemory s b with
    | none => fail .notFound "scores buffer missing"
    | some ptr =>
      if b.nbytes / 4 = 0 then fail .invalidArgument "scores empty"
      else sampleTokenF32 lib (scoresRow b.shape ((List.range (b.nbytes / 4)).map (m.mem ptr))) p history rng

variable (κ : Kernel R K) (s : Session R) (limit : Option Int) (tokensId scoresId : TensorId) (req : Request K)

/-- Feeds the prompt. -/
def prefill : List Int → Int → Machine K → Result (Machine K)
  | [], _, m => .ok m
  | token :: tokens, i, m => do
    match limit with
    | none => .ok ()
    | some maxCtx =>
      if maxCtx < i + 1 then fail .invalidArgument "context length exceeded during prefill" else .ok ()
    let m ← writeTokensStep s tokensId token m
    let m ← s.run κ m
    prefill tokens (i + 1) m

/-- `remaining` is `max_new_tokens - n`. -/
def decode : Nat → List Int → G → Machine K → Result (List Int)
  | 0, out, _, _ => .ok out
  | remaining + 1, out, rng, m => do
    checkRoom limit out.length "decode"
    let (next, rng) ← readSampleToken lib s scoresId req.sample out rng m
    let out := out ++ [next]
    if (req.onNewToken.map (· next)) = some false then .ok out
    else if next ∈ req.stopTokenIds then .ok out
    else if remaining = 0 then .ok out
    else do
      checkRoom limit out.length "decode"
      let m ← writeTokensStep s tokensId next m
      let m ← s.run κ m
      decode remaining out rng m

/-- `generate`; `device` is what `std::random_device` seeds the generator with. -/
def Session.generate (o : SessionOptions) (device : G) (m : Machine K) : Result (List Int) :=
  if req.promptTokens = [] then fail .invalidArgument "prompt_tokens empty"
  else if req.maxNewTokens < 0 then fail .invalidArgument "max_new_tokens < 0"
  else do
    let limit := contextLimit o s.graph
    checkLengths limit req.promptTokens.length (req.promptTokens.length + req.maxNewTokens)
    let tokensId ← tokensTensor s.graph
    let scoresId ← scoresTensor s.graph req.sample.greedy
    let rng := if req.sample.hasSeed then lib.seeded req.sample.seed else device
    let m ← prefill κ s limit tokensId req.promptTokens 0 m
    decode lib κ s limit tokensId scoresId req req.maxNewTokens.toNat req.promptTokens rng m

/-! ## The first state -/

/-- What `load_or_init_weights` leaves: a weight's floats as they are read in a buffer of
    the given format. -/
abbrev Loaded (K : Type) := TensorId → QuantFormat → Nat → K

omit [LinearOrder K] in
/-- The weights are loaded, and the other allocations hold zeros. -/
def Session.initial (loaded : Loaded K) : Machine K where
  mem ptr j :=
    match s.graph.tensors.find? fun t => t.isWeight && ((s.buffers.find t.id).bind (·.data)) == some ptr with
    | some t => loaded t.id (((s.buffers.find t.id).map (·.quantFormat)).getD .f32) j
    | none => 0
  past _ := []

end Uaii.Runtime
