/-
  Uaii.Planner.StoragePlan — `build_storage_plan`
  (`include/uaii/planner/storage_plan.hpp`, `libs/uaii-planner/src/storage_plan.cpp`).

  Weights stream from disk when they exceed the RAM budget. Under a budget of at least
  1 MiB the planner turns a dial: fewer pinned layers, then no pinned lm_head, then no
  pinned embedding, until what is pinned and the staging buffers fit. It tries at most
  64 turns.

  `lower_ascii` is the C locale's; the plan's `summary` line is left out.
-/

import Mathlib.Algebra.BigOperators.Group.List.Basic
import Uaii.Ir.Graph

namespace Uaii.Planner

open Uaii.Ir Uaii.Quant

inductive StorageTier where
  | unknown
  | ram
  | mmap
  | disk
  | nvme
  | objectStore
  | remote
  | compressed
  deriving DecidableEq, Repr

structure StoragePlacement where
  tensorId : TensorId
  name : String
  tier : StorageTier
  stream : Bool
  /-- Routed MoE expert weight. -/
  expert : Bool
  bytes : Nat
  uri : String
  deriving DecidableEq, Repr

structure StreamingWindow where
  tensorId : TensorId
  offset : Nat
  size : Nat
  deriving DecidableEq, Repr

structure StoragePlan where
  placements : List StoragePlacement
  windows : List StreamingWindow
  ramBudgetBytes : Nat
  totalWeightBytes : Nat
  stagingBytes : Nat
  stagingSlots : Int
  expertCacheBytes : Nat
  expertWindows : Nat
  streamingRequired : Bool
  deriving DecidableEq, Repr

structure StoragePlanOptions where
  ramBudgetBytes : Nat
  preferMmap : Bool
  enableStreaming : Bool
  pinLayers : Int
  expertCacheBytes : Nat
  stagingSlots : Int
  deriving DecidableEq, Repr

/-! ## Names -/

def lowerAscii (s : String) : String := s.map fun c => if 'A' ≤ c ∧ c ≤ 'Z' then Char.ofNat (c.toNat + 32) else c

/-- `s.find(pat) != npos`. -/
def contains (s pat : String) : Bool := s.toList.tails.any (pat.toList.isPrefixOf ·)

def isEmbedName (name : String) : Bool :=
  let n := lowerAscii name
  contains n "embed" || contains n "token_embd" || contains n "tok_embeddings" || contains n "wte"

def isLmHeadName (name : String) : Bool :=
  let n := lowerAscii name
  contains n "lm_head" || n == "output" || contains n "output.weight"

def isNormName (name : String) : Bool :=
  let n := lowerAscii name
  contains n "output_norm" || contains n "rms_out" || contains n "ln_f" || contains n "final_layernorm" ||
    contains n "final_layer_norm" || n == "norm" || n == "model.norm.weight" || n == "model.norm.bias"

def isTrunkAlwaysPin (name : String) : Bool := isEmbedName name || isLmHeadName name || isNormName name

def nameHasLayer (name : String) (i : Nat) : Bool :=
  let si := Nat.repr i
  ["blk.", "l", "model.layers.", "model.decoder.layers.", "transformer.h.", "transformer.layers.", "gpt_neox.layers."].any
    fun p => contains name (p ++ si ++ ".")

def isMoeExpertWeightName (name : String) : Bool :=
  contains name "ffn_gate_exps" || contains name "ffn_up_exps" || contains name "ffn_down_exps" ||
    contains name "block_sparse_moe.experts" || contains name ".exp." || contains name ".experts."

/-! ## Placements -/

/-- Bytes of a weight in RAM: packed when it is block-quantised. -/
def weightResidentBytes (t : Tensor) : Nat :=
  if t.isWeight && isGgufBlockQuant t.quantFormat then packedNbytes t.quantFormat (shapeNumel t.shape)
  else estimateTensorBytes t

def initialPlacement (options : StoragePlanOptions) (t : Tensor) : StoragePlacement where
  tensorId := t.id
  name := t.name
  tier := if t.isWeight then (if options.preferMmap then .mmap else .disk) else .ram
  stream := false
  expert := t.isWeight && isMoeExpertWeightName t.name
  bytes := weightResidentBytes t
  uri := if t.isWeight then t.weightRef else ""

/-- A weight that can stream: it has bytes, and a file. -/
def StoragePlacement.paged (p : StoragePlacement) : Bool := p.bytes ≠ 0 && (p.tier == .mmap || p.tier == .disk)

/-- `pin_layers`, `pin_lm` and `pin_embed`. -/
structure Dial where
  pinLayers : Int
  pinLm : Bool
  pinEmbed : Bool
  deriving DecidableEq, Repr

def isLayerPinned (d : Dial) (p : StoragePlacement) : Bool := (List.range d.pinLayers.toNat).any (nameHasLayer p.name)

/-- Also asks whether the weight can stream. -/
def wouldPin (tight : Bool) (d : Dial) (p : StoragePlacement) : Bool :=
  !p.expert && p.paged &&
    (isNormName p.name || (d.pinEmbed && isEmbedName p.name) || (d.pinLm && isLmHeadName p.name) || isLayerPinned d p ||
      (!tight && isTrunkAlwaysPin p.name))

/-- `pin`, `stage` and the name of the largest streamed weight, so far. -/
structure PinSums where
  pin : Nat
  stage : Nat
  biggest : String
  deriving DecidableEq, Repr

def PinSums.add (tight : Bool) (d : Dial) (s : PinSums) (p : StoragePlacement) : PinSums :=
  if !p.paged then s
  else if wouldPin tight d p then { s with pin := wrap64 (s.pin + p.bytes) }
  else if s.stage < p.bytes then { s with stage := p.bytes, biggest := p.name }
  else s

def pinAndStaging (tight : Bool) (ps : List StoragePlacement) (d : Dial) : PinSums := ps.foldl (PinSums.add tight d) ⟨0, 0, ""⟩

/-! ## The dial -/

/-- The next turn, while there is one. -/
def Dial.turn (d : Dial) : Option Dial :=
  if 0 < d.pinLayers then some { d with pinLayers := d.pinLayers - 1 }
  else if d.pinLm then some { d with pinLm := false }
  else if d.pinEmbed then some { d with pinEmbed := false }
  else none

/-- The search loop with `steps` turns left. -/
def searchDial (fits : Dial → Bool) : Nat → Dial → Dial
  | 0, d => d
  | steps + 1, d =>
    if fits d then d
    else match d.turn with
      | none => d
      | some d' => searchDial fits steps d'

def stagingSlotsOf (options : StoragePlanOptions) : Nat :=
  if options.stagingSlots ≤ 0 ∨ 2 < options.stagingSlots then 2 else options.stagingSlots.toNat

/-- `need`. -/
def PinSums.need (s : PinSums) (slots : Nat) : Nat := wrap64 (s.pin + wrap64 (s.stage * slots))

def totalBytes (ps : List StoragePlacement) : Nat := ps.foldl (fun n p => wrap64 (n + p.bytes)) 0

/-- Pin or stream, as the dial says. -/
def settlePlacement (tight : Bool) (d : Dial) (p : StoragePlacement) : StoragePlacement :=
  if !p.paged then p
  else if p.expert || !wouldPin tight d p then { p with stream := true }
  else { p with stream := false, tier := .ram }

def maxBytes (ps : List StoragePlacement) : Nat := ps.foldl (fun n p => max n p.bytes) 0

variable {R : Type}

def weightPlacements (options : StoragePlanOptions) (g : Graph R) : List StoragePlacement :=
  (g.tensors.filter (·.isWeight)).map (initialPlacement options)

/-- More weight than RAM. -/
def pressure (options : StoragePlanOptions) (g : Graph R) : Bool :=
  options.enableStreaming && 0 < options.ramBudgetBytes && options.ramBudgetBytes < totalBytes (weightPlacements options g)

def expertPage (options : StoragePlanOptions) (g : Graph R) : Bool :=
  options.enableStreaming && 0 < totalBytes ((weightPlacements options g).filter (·.expert)) &&
    (pressure options g || 0 < options.expertCacheBytes)

def tightBudget (options : StoragePlanOptions) : Bool := 2 ^ 20 ≤ options.ramBudgetBytes

def buildStoragePlan (g : Graph R) (options : StoragePlanOptions) : Result StoragePlan :=
  let placements := g.tensors.map (initialPlacement options)
  let slots := stagingSlotsOf options
  let finish (streaming : Bool) (cache : Nat) (ps : List StoragePlacement) : StoragePlan :=
    let streamed := ps.filter (·.stream)
    { placements := ps
      windows := streamed.map fun p => ⟨p.tensorId, 0, p.bytes⟩
      ramBudgetBytes := options.ramBudgetBytes
      totalWeightBytes := totalBytes (weightPlacements options g)
      stagingBytes := if 0 < maxBytes streamed then maxBytes streamed else maxBytes (weightPlacements options g)
      stagingSlots := slots
      expertCacheBytes := cache
      expertWindows := (streamed.filter (·.expert)).length
      streamingRequired := streaming }
  if pressure options g || expertPage options g then
    let tight := tightBudget options
    let sums := pinAndStaging tight placements
    let start : Dial := ⟨options.pinLayers, true, true⟩
    if tight then
      let d := searchDial (fun d => (sums d).need slots ≤ options.ramBudgetBytes) 64 start
      if 0 < (sums d).stage ∧ options.ramBudgetBytes < (sums d).need slots then
        fail .invalidArgument ("weight " ++ (sums d).biggest ++ " is " ++ Nat.repr (sums d).stage ++
          " bytes which exceeds the memory preset. Convert to GGUF Q4_K or use --preset desktop|server.")
      else
        .ok (finish true (min options.expertCacheBytes (options.ramBudgetBytes - (sums d).need slots))
          (placements.map (settlePlacement tight d)))
    else .ok (finish true options.expertCacheBytes (placements.map (settlePlacement tight start)))
  else .ok (finish false options.expertCacheBytes placements)

end Uaii.Planner
