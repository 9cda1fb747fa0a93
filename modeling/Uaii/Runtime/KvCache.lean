/-
  Uaii.Runtime.KvCache — `runtime::KvCache` (`include/uaii/runtime/kv_cache.hpp`).

  Storage is `[batch, max_seq, dim]` a layer: a row of `dim` floats at every batch
  index and position, copied and moved whole. A view lists the rows of the first
  `past_len` positions, batch after batch, whether the code packs them or points into
  the storage.

  `append_layer` can fail after `compact_to_fit` has moved rows, so it returns what
  became of the cache beside its error.

  Proved: what an append does (`appendLayer_step`), and that a configured cache
  stays within its window (`Wf`).
-/

import Uaii.Kernels.TensorView

namespace Uaii.Runtime

open Uaii.Kernels

variable {K : Type}

/-- Layer, batch index, position. -/
abbrev Rows (K : Type) := Nat → Nat → Nat → List K

structure KvCache (K : Type) where
  nLayers : Int
  batch : Int
  maxSeq : Int
  kDim : Int
  vDim : Int
  nHeads : Int
  pastLen : Int
  pendingSeq : Int
  absPos : Int
  ropeScaleLen : Int
  sink : Int
  k : Rows K
  v : Rows K

namespace KvCache

/-- `KvCache()`. -/
def unconfigured : KvCache K := ⟨0, 0, 0, 0, 0, 0, 0, 0, 0, 0, 4, fun _ _ _ => [], fun _ _ _ => []⟩

def zeroRows [Zero K] (dim : Int) : Rows K := fun _ _ _ => List.replicate dim.toNat 0

/-- `rope_scale_len_` keeps its value. -/
def configure [Zero K] (c : KvCache K) (nLayers batch maxSeq kDim vDim nHeads sink : Int) : Result (KvCache K) :=
  if nLayers ≤ 0 ∨ batch ≤ 0 ∨ maxSeq ≤ 0 ∨ kDim ≤ 0 ∨ vDim ≤ 0 ∨ nHeads ≤ 0 then
    fail .invalidArgument "KvCache::configure invalid dims"
  else if kDim.tmod nHeads ≠ 0 then fail .invalidArgument "KvCache k_dim not divisible by n_heads"
  else
    let sink := if sink < 0 then 0 else sink
    let sink := if maxSeq ≤ sink then 0 else sink
    .ok ⟨nLayers, batch, maxSeq, kDim, vDim, nHeads, 0, 0, 0, c.ropeScaleLen, sink, zeroRows kDim, zeroRows vDim⟩

def reset [Zero K] (c : KvCache K) : KvCache K :=
  { c with pastLen := 0, pendingSeq := 0, absPos := 0, ropeScaleLen := 0, k := zeroRows c.kDim, v := zeroRows c.vDim }

def ropePos (c : KvCache K) : Int := c.absPos

def setRopeScaleLen (c : KvCache K) (n : Int) : KvCache K := { c with ropeScaleLen := if 0 < n then n else 0 }

def configured (c : KvCache K) : Bool := 0 < c.nLayers

def ensureCapacity (c : KvCache K) (seq : Int) : Result Unit :=
  if !c.configured then fail .invalidArgument "KvCache not configured"
  else if seq < 0 ∨ c.maxSeq < seq then
    fail .invalidArgument ("KvCache capacity exceeded: seq=" ++ toString seq ++ " max_seq=" ++ toString c.maxSeq)
  else .ok ()

/-- `memmove` of `tail` positions by `drop`, in every layer and batch row. -/
def moveRows (keep drop tail : Int) (rows : Rows K) : Rows K := fun layer b p =>
  if keep ≤ p ∧ p < keep + tail then rows layer b (p + drop.toNat) else rows layer b p

def compactToFit (c : KvCache K) (incoming : Int) : KvCache K :=
  let need := c.pastLen + incoming
  if need ≤ c.maxSeq then c
  else
    let drop := need - c.maxSeq
    let keepSink := min c.sink c.pastLen
    let movable := c.pastLen - keepSink
    let drop := if movable < drop then movable else drop
    if drop ≤ 0 then c
    else
      let tail := c.pastLen - keepSink - drop
      { c with
        k := moveRows keepSink drop tail c.k
        v := moveRows keepSink drop tail c.v
        pastLen := c.pastLen - drop }

def parseKvShape (t : TensorView K) : Result (Int × Int × Int) :=
  if t.dtype ≠ .f32 ∨ t.data.isNone then fail .invalidArgument "KvCache expects f32 views"
  else
    match t.shape with
    | [batch, dim] => .ok (batch, 1, dim)
    | [batch, seq, dim] => .ok (batch, seq, dim)
    | _ => fail .invalidArgument "KvCache expects rank 2 or 3"

/-- The checks `append_layer` makes before it touches the cache; the result is `seq`. -/
def appendChecks (c : KvCache K) (layer : Int) (k v : TensorView K) : Result Int :=
  if !c.configured then fail .invalidArgument "KvCache not configured"
  else if layer < 0 ∨ c.nLayers ≤ layer then fail .invalidArgument "KvCache layer out of range"
  else do
    let (batch, seq, kd) ← parseKvShape k
    let (vb, vs, vd) ← parseKvShape v
    if batch ≠ c.batch ∨ vb ≠ c.batch ∨ kd ≠ c.kDim ∨ vd ≠ c.vDim ∨ seq ≠ vs then
      fail .invalidArgument "KvCache append shape mismatch"
    else if c.maxSeq < seq then fail .invalidArgument "KvCache append seq exceeds window"
    else .ok seq

section Sizes

variable {c d : KvCache K} (hn : c.nLayers = d.nLayers) (hb : c.batch = d.batch) (hm : c.maxSeq = d.maxSeq)
  (hk : c.kDim = d.kDim) (hv : c.vDim = d.vDim)

include hn hm

theorem ensureCapacity_congr (seq : Int) : c.ensureCapacity seq = d.ensureCapacity seq := by
  unfold ensureCapacity configured
  rw [hn, hm]

include hb hk hv

/-- The checks read the sizes only. -/
theorem appendChecks_congr (layer : Int) (k v : TensorView K) : c.appendChecks layer k v = d.appendChecks layer k v := by
  simp only [appendChecks, configured, hn, hb, hm, hk, hv]

end Sizes

/-- Row `i` of a view of rows of `dim` floats. -/
def rowOf (xs : List K) (dim : Int) (i : Nat) : List K := (xs.drop (i * dim.toNat)).take dim.toNat

/-- `src`'s `seq` rows a batch index, written to one layer from position `past` on. -/
def writeRows (layer batch past seq dim : Int) (src : List K) (rows : Rows K) : Rows K := fun l b p =>
  if l = layer.toNat ∧ b < batch ∧ past ≤ p ∧ p < past + seq then rowOf src dim (b * seq.toNat + (p - past.toNat))
  else rows l b p

def appendLayer (c : KvCache K) (layer : Int) (k v : TensorView K) : Result Unit × KvCache K :=
  match c.appendChecks layer k v with
  | .error e => (.error e, c)
  | .ok seq =>
    let c := c.compactToFit seq
    match c.ensureCapacity (c.pastLen + seq) with
    | .error e => (.error e, c)
    | .ok () =>
      if k.f32.length < (c.batch * seq * c.kDim).toNat ∨ v.f32.length < (c.batch * seq * c.vDim).toNat then
        (.error (.undefined "read past the view"), c)
      else
        (.ok (), { c with
          k := writeRows layer c.batch c.pastLen seq c.kDim k.f32 c.k
          v := writeRows layer c.batch c.pastLen seq c.vDim v.f32 c.v
          pendingSeq := seq })

def commitStep (c : KvCache K) : KvCache K :=
  { c with absPos := c.absPos + c.pendingSeq, pastLen := c.pastLen + c.pendingSeq, pendingSeq := 0 }

/-- The rows of the committed positions, batch after batch. -/
def pastRows (c : KvCache K) (rows : Rows K) (layer : Int) : List K :=
  (List.range c.batch.toNat).flatMap fun b => (List.range c.pastLen.toNat).flatMap fun p => rows layer.toNat b p

def makePastView (c : KvCache K) (rows : Rows K) (layer dim : Int) : TensorView K :=
  if !c.configured ∨ layer < 0 ∨ c.nLayers ≤ layer ∨ c.pastLen ≤ 0 then .null
  else .ofF32 [c.batch, c.pastLen, dim] (c.pastRows rows layer)

def kView (c : KvCache K) (layer : Int) : TensorView K := c.makePastView c.k layer c.kDim

def vView (c : KvCache K) (layer : Int) : TensorView K := c.makePastView c.v layer c.vDim

/-! ## The window -/

/-- A configured cache. -/
structure Wf (c : KvCache K) : Prop where
  layers : 0 < c.nLayers
  batch : 0 < c.batch
  kDim : 0 < c.kDim
  vDim : 0 < c.vDim
  sink : 0 ≤ c.sink
  sink_lt : c.sink < c.maxSeq
  past : 0 ≤ c.pastLen
  past_le : c.pastLen ≤ c.maxSeq

theorem configure_wf [Zero K] {c c' : KvCache K} {nLayers batch maxSeq kDim vDim nHeads sink : Int}
    (h : c.configure nLayers batch maxSeq kDim vDim nHeads sink = .ok c') : c'.Wf ∧ c'.pastLen = 0 := by
  unfold configure at h
  split at h
  · exact absurd h (fail_ne_ok _ _ _)
  · next hdims =>
    split at h
    · exact absurd h (fail_ne_ok _ _ _)
    · cases h
      refine ⟨⟨?_, ?_, ?_, ?_, ?_, ?_, ?_, ?_⟩, rfl⟩
      all_goals dsimp only; omega

/-- What compaction leaves: the window's layout, and room for what it made room for. -/
theorem compactToFit_wf {c : KvCache K} (h : c.Wf) (incoming : Int) : (c.compactToFit incoming).Wf := by
  have hsink := h.sink
  have hlt := h.sink_lt
  have hpast := h.past
  have hle := h.past_le
  unfold compactToFit
  dsimp only
  split_ifs with h1 h2 h3 h4
  all_goals first | exact h | skip
  all_goals exact ⟨h.layers, h.batch, h.kDim, h.vDim, h.sink, h.sink_lt, by dsimp only; omega, by dsimp only; omega⟩

theorem compactToFit_of_fits {c : KvCache K} {incoming : Int} (h : c.pastLen + incoming ≤ c.maxSeq) :
    c.compactToFit incoming = c := if_pos h

/-- A step of at most `max_seq - sink` tokens always fits after compaction. -/
theorem compactToFit_fits {c : KvCache K} (h : c.Wf) {incoming : Int} (hin : incoming ≤ c.maxSeq - c.sink) :
    (c.compactToFit incoming).pastLen + incoming ≤ c.maxSeq := by
  have hle := h.past_le
  have hpast := h.past
  unfold compactToFit
  dsimp only
  split_ifs <;> (try dsimp only) <;> omega

/-! ## An append that succeeds -/

/-- The dimensions, which nothing but `configure` changes. -/
def dims (c : KvCache K) : Int × Int × Int × Int × Int × Int := (c.nLayers, c.batch, c.maxSeq, c.kDim, c.vDim, c.sink)

theorem dims_inj {c c' : KvCache K} (h : c'.dims = c.dims) :
    c'.nLayers = c.nLayers ∧ c'.batch = c.batch ∧ c'.maxSeq = c.maxSeq ∧ c'.kDim = c.kDim ∧ c'.vDim = c.vDim ∧
      c'.sink = c.sink := by
  simpa only [dims, Prod.mk.injEq] using h

@[simp] theorem compactToFit_dims (c : KvCache K) (n : Int) : (c.compactToFit n).dims = c.dims := by
  unfold compactToFit
  dsimp only
  split_ifs <;> rfl

/-- The floats of one append to one layer. -/
structure AppendView (batch seq dim : Int) (t : TensorView K) : Prop where
  dtype : t.dtype = .f32
  shape : t.shape = [batch, seq, dim] ∨ seq = 1 ∧ t.shape = [batch, dim]
  data : t.data.isSome
  length : (batch * seq * dim).toNat ≤ t.f32.length

theorem parseKvShape_view {batch seq dim : Int} {t : TensorView K} (h : AppendView batch seq dim t) :
    parseKvShape t = .ok (batch, seq, dim) := by
  have hdata : t.data.isNone = false := by
    cases hd : t.data with
    | none => exact absurd h.data (by simp [hd])
    | some xs => rfl
  unfold parseKvShape
  rw [if_neg (by simp [h.dtype, hdata])]
  rcases h.shape with hs | hs
  · rw [hs]
  · rw [hs.1, hs.2]

theorem appendChecks_view {c : KvCache K} (hc : c.Wf) {layer : Nat} (hl : layer < c.nLayers) {seq : Int}
    (hseq : seq ≤ c.maxSeq - c.sink) {k v : TensorView K} (hk : AppendView c.batch seq c.kDim k)
    (hv : AppendView c.batch seq c.vDim v) : c.appendChecks layer k v = .ok seq := by
  have hconf : c.configured = true := by simpa [configured] using hc.layers
  have hlayer : ¬ ((layer : Int) < 0 ∨ c.nLayers ≤ layer) := by omega
  have hbound : ¬ c.maxSeq < seq := by
    have := hc.sink
    omega
  simp only [appendChecks, hconf, Bool.not_true, Bool.false_eq_true, if_false, if_neg hlayer, parseKvShape_view hk,
    parseKvShape_view hv, ok_bind, ne_eq, not_true_eq_false, or_self, if_neg hbound]

/-- Appending at most `max_seq - sink` tokens at a layer of the model never fails. -/
theorem appendLayer_step {c : KvCache K} (hc : c.Wf) {layer : Nat} (hl : layer < c.nLayers) {seq : Int} (hpos : 0 ≤ seq)
    (hseq : seq ≤ c.maxSeq - c.sink) {k v : TensorView K} (hk : AppendView c.batch seq c.kDim k)
    (hv : AppendView c.batch seq c.vDim v) : c.appendLayer layer k v = (.ok (),
      { c.compactToFit seq with
        k := writeRows layer c.batch (c.compactToFit seq).pastLen seq c.kDim k.f32 (c.compactToFit seq).k
        v := writeRows layer c.batch (c.compactToFit seq).pastLen seq c.vDim v.f32 (c.compactToFit seq).v
        pendingSeq := seq }) := by
  obtain ⟨-, hb, hm, hkd, hvd, -⟩ := dims_inj (compactToFit_dims c seq)
  have hwf := compactToFit_wf hc seq
  have hfits := compactToFit_fits hc hseq
  have hcap : (c.compactToFit seq).ensureCapacity ((c.compactToFit seq).pastLen + seq) = .ok () := by
    have hconf : (c.compactToFit seq).configured = true := by simpa [configured] using hwf.layers
    have := hwf.past
    simp only [ensureCapacity, hconf, Bool.not_true, Bool.false_eq_true, if_false]
    rw [if_neg (by omega)]
  have hklen := hk.length
  have hvlen := hv.length
  simp only [appendLayer, appendChecks_view hc hl hseq hk hv, hcap, hb, hkd, hvd]
  rw [if_neg (by omega)]

end KvCache

end Uaii.Runtime
