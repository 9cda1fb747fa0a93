/-
  Uaii.Runtime.KvStore — `runtime::KvCache` as it is stored: one vector of
  `batch * max_seq * dim` floats for a layer's K, one for its V, moved and copied by
  offsets.

  Proved: it refines the rows of `Uaii.Runtime.KvCache`. Related states (`Sim`) stay
  related over every call (`appendLayer_sim`, `commitStep_sim`), with the same errors, and
  show the same views (`kView_sim`), packed or in place.
-/

import Mathlib.Data.List.GetD
import Uaii.Lib.Rows
import Uaii.Runtime.KvCache

namespace Uaii.Runtime

open Uaii.Kernels Rows

variable {K : Type}

structure KvStore (K : Type) where
  nLayers : Int
  batch : Int
  maxSeq : Int
  kDim : Int
  vDim : Int
  nHeads : Int
  pastLen : Int
  pendingSeq : Int
  absPos : Int
  ropeScaleLen : Int
  sink : Int
  k : List (List K)
  v : List (List K)
  deriving DecidableEq, Repr

namespace KvStore

/-- The rows that are stored. -/
def rows (c : KvStore K) : KvCache K :=
  ⟨c.nLayers, c.batch, c.maxSeq, c.kDim, c.vDim, c.nHeads, c.pastLen, c.pendingSeq, c.absPos, c.ropeScaleLen, c.sink,
    fun layer b p => row c.kDim.toNat (c.k.getD layer []) (b * c.maxSeq.toNat + p),
    fun layer b p => row c.vDim.toNat (c.v.getD layer []) (b * c.maxSeq.toNat + p)⟩

def configure [Zero K] (c : KvStore K) (nLayers batch maxSeq kDim vDim nHeads sink : Int) : Result (KvStore K) :=
  if nLayers ≤ 0 ∨ batch ≤ 0 ∨ maxSeq ≤ 0 ∨ kDim ≤ 0 ∨ vDim ≤ 0 ∨ nHeads ≤ 0 then
    fail .invalidArgument "KvCache::configure invalid dims"
  else if kDim.tmod nHeads ≠ 0 then fail .invalidArgument "KvCache k_dim not divisible by n_heads"
  else
    let sink := if sink < 0 then 0 else sink
    let sink := if maxSeq ≤ sink then 0 else sink
    .ok ⟨nLayers, batch, maxSeq, kDim, vDim, nHeads, 0, 0, 0, c.ropeScaleLen, sink,
      List.replicate nLayers.toNat (List.replicate (batch * maxSeq * kDim).toNat 0),
      List.replicate nLayers.toNat (List.replicate (batch * maxSeq * vDim).toNat 0)⟩

/-- `compact_to_fit`'s loop over the batch rows of one buffer. -/
def compactBuffer (batch maxSeq keepSink drop tail dim : Int) (buf : List K) : List K :=
  (List.range batch.toNat).foldl (fun (buf : List K) (b : Nat) =>
    if 0 < tail then
      blit buf ((b * maxSeq + keepSink) * dim).toNat buf ((b * maxSeq + (keepSink + drop)) * dim).toNat (tail * dim).toNat
    else buf) buf

def compactToFit (c : KvStore K) (incoming : Int) : KvStore K :=
  let need := c.pastLen + incoming
  if need ≤ c.maxSeq then c
  else
    let drop := need - c.maxSeq
    let keepSink := min c.sink c.pastLen
    let movable := c.pastLen - keepSink
    let drop := if movable < drop then movable else drop
    if drop ≤ 0 then c
    else
      let tail := c.pastLen - keepSink - drop
      { c with
        k := c.k.map (compactBuffer c.batch c.maxSeq keepSink drop tail c.kDim)
        v := c.v.map (compactBuffer c.batch c.maxSeq keepSink drop tail c.vDim)
        pastLen := c.pastLen - drop }

/-- `append_layer`'s loop over the tokens of one batch row. -/
def writeTokens (maxSeq past seq dim : Int) (src : List K) (b : Nat) (buf : List K) : List K :=
  (List.range seq.toNat).foldl (fun (buf : List K) (s : Nat) =>
    blit buf ((b * maxSeq + (past + s)) * dim).toNat src ((b * seq + s) * dim).toNat dim.toNat) buf

def writeBuffer (batch maxSeq past seq dim : Int) (src buf : List K) : List K :=
  (List.range batch.toNat).foldl (fun (buf : List K) (b : Nat) => writeTokens maxSeq past seq dim src b buf) buf

/-- The checks read no storage. -/
def appendLayer (c : KvStore K) (layer : Int) (k v : TensorView K) : Result Unit × KvStore K :=
  match c.rows.appendChecks layer k v with
  | .error e => (.error e, c)
  | .ok seq =>
    let c := c.compactToFit seq
    match c.rows.ensureCapacity (c.pastLen + seq) with
    | .error e => (.error e, c)
    | .ok () =>
      if k.f32.length < (c.batch * seq * c.kDim).toNat ∨ v.f32.length < (c.batch * seq * c.vDim).toNat then
        (.error (.undefined "read past the view"), c)
      else
        (.ok (), { c with
          k := c.k.modify layer.toNat (writeBuffer c.batch c.maxSeq c.pastLen seq c.kDim k.f32)
          v := c.v.modify layer.toNat (writeBuffer c.batch c.maxSeq c.pastLen seq c.vDim v.f32)
          pendingSeq := seq })

def commitStep (c : KvStore K) : KvStore K :=
  { c with absPos := c.absPos + c.pendingSeq, pastLen := c.pastLen + c.pendingSeq, pendingSeq := 0 }

/-- In place for one batch row or a full window, else packed. -/
def makePastView (c : KvStore K) (bufs : List (List K)) (layer dim : Int) : TensorView K :=
  if !c.rows.configured ∨ layer < 0 ∨ c.nLayers ≤ layer ∨ c.pastLen ≤ 0 then .null
  else
    let src := bufs.getD layer.toNat []
    let n := (c.batch * c.pastLen * dim).toNat
    .ofF32 [c.batch, c.pastLen, dim] <|
      if c.batch = 1 ∨ c.pastLen = c.maxSeq then src.take n
      else (List.range c.batch.toNat).flatMap fun (b : Nat) =>
        (src.drop (b * c.maxSeq * dim).toNat).take (c.pastLen * dim).toNat

def kView (c : KvStore K) (layer : Int) : TensorView K := c.makePastView c.k layer c.kDim

def vView (c : KvStore K) (layer : Int) : TensorView K := c.makePastView c.v layer c.vDim

def ropePos (c : KvStore K) : Int := c.absPos

/-! ## One buffer -/

theorem offset_toNat (a b c d : Nat) : (((a : Int) * b + c) * d).toNat = (a * b + c) * d := by
  rw [← Int.natCast_mul, ← Int.natCast_add, ← Int.natCast_mul, Int.toNat_natCast]

/-- Row `p` of batch row `b` is in range. -/
theorem row_le {B M b p : Nat} (hb : b < B) (hp : p ≤ M) : b * M + p ≤ B * M := by
  have hmul := Nat.mul_le_mul_right M (show b + 1 ≤ B from hb)
  rw [Nat.add_mul] at hmul
  omega

/-- Rows of different batch rows are different. -/
theorem batch_eq_of_range {M b b' p lo n : Nat} (hp : p < M) (hfit : lo + n ≤ M) (h : b' * M + lo ≤ b * M + p)
    (h' : b * M + p < b' * M + lo + n) : b = b' := by
  by_contra hne
  rcases Nat.lt_or_gt_of_ne hne with hlt | hgt
  · have hmul := Nat.mul_le_mul_right M (show b + 1 ≤ b' from hlt)
    rw [Nat.add_mul] at hmul
    omega
  · have hmul := Nat.mul_le_mul_right M (show b' + 1 ≤ b from hgt)
    rw [Nat.add_mul] at hmul
    omega

theorem compactBuffer_rows {B M keep drop tail D : Nat} {buf : List K} (hlen : buf.length = B * M * D)
    (hfit : keep + drop + tail ≤ M) : (compactBuffer B M keep drop tail D buf).length = B * M * D ∧
      ∀ b < B, ∀ p < M, row D (compactBuffer B M keep drop tail D buf) (b * M + p) =
        if keep ≤ p ∧ p < keep + tail then row D buf (b * M + (p + drop)) else row D buf (b * M + p) := by
  -- after `n` batch rows, those below `n` have been moved
  have hloop : ∀ n ≤ B, ∃ out : List K, (List.range n).foldl (fun (buf : List K) (b : Nat) =>
        if (0 : Int) < tail then
          blit buf (((b : Int) * M + keep) * D).toNat buf (((b : Int) * M + ((keep : Int) + drop)) * D).toNat
            ((tail : Int) * D).toNat
        else buf) buf = out ∧ out.length = B * M * D ∧ ∀ b < B, ∀ p < M, row D out (b * M + p) =
        if b < n ∧ keep ≤ p ∧ p < keep + tail then row D buf (b * M + (p + drop)) else row D buf (b * M + p) := by
    intro n
    induction n with
    | zero => exact fun _ => ⟨buf, rfl, hlen, fun b _ p _ => by simp⟩
    | succ n ih =>
      intro hn
      obtain ⟨out, hout, hlen', hrows⟩ := ih (by omega)
      rw [List.range_succ, List.foldl_append, hout, List.foldl_cons, List.foldl_nil]
      by_cases htail : (0 : Int) < tail
      · have htarget : (n * M + keep + tail) * D ≤ out.length := by
          rw [hlen', Nat.add_assoc]
          exact Nat.mul_le_mul_right D (row_le (by omega) (by omega))
        have hsource : (n * M + (keep + drop) + tail) * D ≤ out.length := by
          rw [hlen', Nat.add_assoc]
          exact Nat.mul_le_mul_right D (row_le (by omega) (by omega))
        rw [if_pos htail, ← Int.natCast_add, offset_toNat, offset_toNat, ← Int.natCast_mul, Int.toNat_natCast]
        refine ⟨_, rfl, ?_, fun b hb p hp => ?_⟩
        · rw [blit_length, hlen']
          · rwa [← Nat.add_mul]
          · rwa [← Nat.add_mul]
        · rw [row_blit htarget hsource]
          by_cases hin : n * M + keep ≤ b * M + p ∧ b * M + p < n * M + keep + tail
          · obtain rfl := batch_eq_of_range hp (by omega) hin.1 hin.2
            rw [if_pos hin, if_pos ⟨by omega, by omega, by omega⟩]
            have hsrc := hrows b hb (p + drop) (by omega)
            rw [if_neg (by omega)] at hsrc
            rw [← hsrc]
            congr 1
            omega
          · rw [if_neg hin, hrows b hb p hp]
            by_cases hbn : b = n
            · subst hbn
              rw [if_neg (by omega), if_neg (by omega)]
            · by_cases hmoved : b < n ∧ keep ≤ p ∧ p < keep + tail
              · rw [if_pos hmoved, if_pos ⟨by omega, hmoved.2⟩]
              · rw [if_neg hmoved, if_neg (by omega)]
      · rw [if_neg htail]
        refine ⟨out, rfl, hlen', fun b hb p hp => ?_⟩
        rw [hrows b hb p hp, if_neg (by omega), if_neg (by omega)]
  obtain ⟨out, hout, hlen', hrows⟩ := hloop B (Nat.le_refl B)
  unfold compactBuffer
  rw [Int.toNat_natCast, hout]
  refine ⟨hlen', fun b hb p hp => ?_⟩
  rw [hrows b hb p hp]
  simp only [hb, true_and]

theorem writeTokens_rows {B M past seq D b : Nat} {src buf : List K} (hlen : buf.length = B * M * D)
    (hsrc : B * seq * D ≤ src.length) (hfit : past + seq ≤ M) (hb : b < B) :
    (writeTokens M past seq D src b buf).length = B * M * D ∧ ∀ b' < B, ∀ p < M,
      row D (writeTokens M past seq D src b buf) (b' * M + p) =
        if b' = b ∧ past ≤ p ∧ p < past + seq then row D src (b * seq + (p - past)) else row D buf (b' * M + p) := by
  -- after `n` tokens
  have hloop : ∀ n ≤ seq, ∃ out : List K, (List.range n).foldl (fun (buf : List K) (s : Nat) =>
        blit buf (((b : Int) * M + ((past : Int) + s)) * D).toNat src (((b : Int) * seq + s) * D).toNat D) buf = out ∧
          out.length = B * M * D ∧ ∀ b' < B, ∀ p < M, row D out (b' * M + p) =
        if b' = b ∧ past ≤ p ∧ p < past + n then row D src (b * seq + (p - past)) else row D buf (b' * M + p) := by
    intro n
    induction n with
    | zero => exact fun _ => ⟨buf, rfl, hlen, fun b' _ p _ => by rw [if_neg (by omega)]⟩
    | succ n ih =>
      intro hn
      obtain ⟨out, hout, hlen', hrows⟩ := ih (by omega)
      have htarget : (b * M + (past + n) + 1) * D ≤ out.length := by
        rw [hlen', Nat.add_assoc]
        exact Nat.mul_le_mul_right D (row_le hb (by omega))
      have hsource : (b * seq + n + 1) * D ≤ src.length := by
        rw [Nat.add_assoc]
        exact Nat.le_trans (Nat.mul_le_mul_right D (row_le hb hn)) hsrc
      rw [List.range_succ, List.foldl_append, hout, List.foldl_cons, List.foldl_nil, ← Int.natCast_add, offset_toNat,
        offset_toNat]
      refine ⟨_, rfl, ?_, fun b' hb' p hp => ?_⟩
      · rw [blit_length, hlen']
        · rwa [← Nat.succ_mul]
        · rwa [← Nat.succ_mul]
      · rw [row_blit_one htarget hsource]
        by_cases hin : b' * M + p = b * M + (past + n)
        · obtain rfl := batch_eq_of_range (n := 1) hp (by omega) (Nat.le_of_eq hin.symm) (by omega)
          rw [if_pos hin, if_pos ⟨rfl, by omega, by omega⟩]
          congr 1
          omega
        · rw [if_neg hin, hrows b' hb' p hp]
          by_cases hbb : b' = b
          · subst hbb
            by_cases hnew : past ≤ p ∧ p < past + n
            · rw [if_pos ⟨rfl, hnew⟩, if_pos ⟨rfl, by omega, by omega⟩]
            · rw [if_neg (by omega), if_neg (by omega)]
          · rw [if_neg (by omega), if_neg (by omega)]
  obtain ⟨out, hout, hlen', hrows⟩ := hloop seq (Nat.le_refl seq)
  unfold writeTokens
  rw [Int.toNat_natCast, Int.toNat_natCast, hout]
  exact ⟨hlen', hrows⟩

theorem writeBuffer_rows {B M past seq D : Nat} {src buf : List K} (hlen : buf.length = B * M * D)
    (hsrc : B * seq * D ≤ src.length) (hfit : past + seq ≤ M) : (writeBuffer B M past seq D src buf).length = B * M * D ∧
      ∀ b < B, ∀ p < M, row D (writeBuffer B M past seq D src buf) (b * M + p) =
        if past ≤ p ∧ p < past + seq then row D src (b * seq + (p - past)) else row D buf (b * M + p) := by
  have hloop : ∀ n ≤ B, ∃ out : List K,
      (List.range n).foldl (fun (buf : List K) (b : Nat) => writeTokens M past seq D src b buf) buf = out ∧
        out.length = B * M * D ∧ ∀ b < B, ∀ p < M, row D out (b * M + p) =
        if b < n ∧ past ≤ p ∧ p < past + seq then row D src (b * seq + (p - past)) else row D buf (b * M + p) := by
    intro n
    induction n with
    | zero => exact fun _ => ⟨buf, rfl, hlen, fun b _ p _ => by rw [if_neg (by omega)]⟩
    | succ n ih =>
      intro hn
      obtain ⟨out, hout, hlen', hrows⟩ := ih (by omega)
      obtain ⟨hlen'', hwrite⟩ := writeTokens_rows hlen' hsrc hfit (show n < B from hn)
      rw [List.range_succ, List.foldl_append, hout, List.foldl_cons, List.foldl_nil]
      refine ⟨_, rfl, hlen'', fun b hb p hp => ?_⟩
      rw [hwrite b hb p hp, hrows b hb p hp]
      by_cases hbn : b = n
      · subst hbn
        by_cases hnew : past ≤ p ∧ p < past + seq
        · rw [if_pos ⟨rfl, hnew⟩, if_pos ⟨by omega, hnew⟩]
        · rw [if_neg (by omega), if_neg (by omega), if_neg (by omega)]
      · by_cases hnew : b < n ∧ past ≤ p ∧ p < past + seq
        · rw [if_neg (by omega), if_pos hnew, if_pos ⟨by omega, hnew.2⟩]
        · rw [if_neg (by omega), if_neg hnew, if_neg (by omega)]
  obtain ⟨out, hout, hlen', hrows⟩ := hloop B (Nat.le_refl B)
  unfold writeBuffer
  rw [Int.toNat_natCast, hout]
  refine ⟨hlen', fun b hb p hp => ?_⟩
  rw [hrows b hb p hp]
  simp only [hb, true_and]

/-! ## Simulation -/

/-- The fields of a cache that are not storage. -/
def scalars (c : KvCache K) : Int × Int × Int × Int × Int × Int × Int × Int × Int × Int × Int :=
  (c.nLayers, c.batch, c.maxSeq, c.kDim, c.vDim, c.nHeads, c.pastLen, c.pendingSeq, c.absPos, c.ropeScaleLen, c.sink)

/-- Buffers that hold rows. -/
structure Stored (nLayers batch maxSeq dim : Nat) (bufs : List (List K)) (rs : Rows K) : Prop where
  layers : bufs.length = nLayers
  length : ∀ buf ∈ bufs, buf.length = batch * maxSeq * dim
  row : ∀ l < nLayers, ∀ b < batch, ∀ p < maxSeq, row dim (bufs.getD l []) (b * maxSeq + p) = rs l b p

structure Sim (f : KvStore K) (c : KvCache K) : Prop where
  wf : c.Wf
  scalars : scalars f.rows = scalars c
  k : Stored c.nLayers.toNat c.batch.toNat c.maxSeq.toNat c.kDim.toNat f.k c.k
  v : Stored c.nLayers.toNat c.batch.toNat c.maxSeq.toNat c.vDim.toNat f.v c.v

section Stored

variable {n B M D : Nat} {bufs : List (List K)} {rs : Rows K}

theorem Stored.length_getD (h : Stored n B M D bufs rs) {l : Nat} (hl : l < n) : (bufs.getD l []).length = B * M * D := by
  have hlt : l < bufs.length := h.layers ▸ hl
  rw [List.getD_eq_getElem _ _ hlt]
  exact h.length _ (List.getElem_mem hlt)

theorem Stored.compact (h : Stored n B M D bufs rs) {keep drop tail : Nat} (hfit : keep + drop + tail ≤ M) :
    Stored n B M D (bufs.map (compactBuffer B M keep drop tail D)) (KvCache.moveRows keep drop tail rs) := by
  refine ⟨by rw [List.length_map, h.layers], ?_, ?_⟩
  · intro buf hbuf
    obtain ⟨old, hold, rfl⟩ := List.mem_map.mp hbuf
    exact (compactBuffer_rows (h.length old hold) hfit).1
  · intro l hl b hb p hp
    have hlt : l < bufs.length := h.layers ▸ hl
    have hget : (bufs.map (compactBuffer B M keep drop tail D)).getD l [] =
        compactBuffer B M keep drop tail D (bufs.getD l []) := by
      rw [List.getD_eq_getElem _ _ (by rwa [List.length_map]), List.getD_eq_getElem _ _ hlt, List.getElem_map]
    rw [hget, (compactBuffer_rows (h.length_getD hl) hfit).2 b hb p hp]
    unfold KvCache.moveRows
    by_cases hin : keep ≤ p ∧ p < keep + tail
    · rw [if_pos hin, if_pos (by omega), Int.toNat_natCast]
      exact h.row l hl b hb (p + drop) (by omega)
    · rw [if_neg hin, if_neg (by omega)]
      exact h.row l hl b hb p hp

theorem Stored.write (h : Stored n B M D bufs rs) (layer : Nat) {past seq : Nat} {src : List K} (hsrc : B * seq * D ≤ src.length)
    (hfit : past + seq ≤ M) : Stored n B M D (bufs.modify layer (writeBuffer B M past seq D src))
      (KvCache.writeRows layer B past seq D src rs) := by
  refine ⟨by rw [List.length_modify, h.layers], ?_, ?_⟩
  · intro buf hbuf
    obtain ⟨l, hl, rfl⟩ := List.mem_iff_getElem.mp hbuf
    have hlt : l < bufs.length := by rwa [List.length_modify] at hl
    have hold := h.length _ (List.getElem_mem hlt)
    rw [List.getElem_modify]
    split
    · exact (writeBuffer_rows hold hsrc hfit).1
    · exact hold
  · intro l hl b hb p hp
    have hlt : l < bufs.length := h.layers ▸ hl
    have hget : (bufs.modify layer (writeBuffer B M past seq D src)).getD l [] =
        if layer = l then writeBuffer B M past seq D src (bufs.getD l []) else bufs.getD l [] := by
      rw [List.getD_eq_getElem _ _ (by rwa [List.length_modify]), List.getD_eq_getElem _ _ hlt, List.getElem_modify]
    rw [hget]
    unfold KvCache.writeRows
    by_cases hll : layer = l
    · subst hll
      rw [if_pos rfl, (writeBuffer_rows (h.length_getD hl) hsrc hfit).2 b hb p hp]
      by_cases hin : past ≤ p ∧ p < past + seq
      · rw [if_pos hin, if_pos (by omega)]
        rfl
      · rw [if_neg hin, if_neg (by omega)]
        exact h.row layer hl b hb p hp
    · rw [if_neg hll, if_neg (by omega)]
      exact h.row l hl b hb p hp

theorem Stored.zero [Zero K] (n B M : Nat) (dim : Int) :
    Stored n B M dim.toNat (List.replicate n (List.replicate (B * M * dim.toNat) (0 : K))) (KvCache.zeroRows dim) := by
  refine ⟨List.length_replicate, ?_, ?_⟩
  · intro buf hbuf
    rw [(List.mem_replicate.mp hbuf).2, List.length_replicate]
  · intro l hl b hb p hp
    have hfit := Nat.mul_le_mul_right dim.toNat (row_le hb (show p + 1 ≤ M from hp))
    rw [← Nat.add_assoc, Nat.add_mul _ 1, Nat.one_mul] at hfit
    rw [List.getD_eq_getElem _ _ (by rwa [List.length_replicate]), List.getElem_replicate, Rows.row, List.drop_replicate,
      List.take_replicate, Nat.min_eq_left (by omega)]
    rfl

/-- The packed rows of the committed positions. -/
theorem Stored.packed (h : Stored n B M D bufs rs) {l past : Nat} (hl : l < n) (hpast : past ≤ M) :
    ((List.range B).flatMap fun b => ((bufs.getD l []).drop (b * M * D)).take (past * D)) =
      (List.range B).flatMap fun b => (List.range past).flatMap fun p => rs l b p := by
  refine List.flatMap_congr fun b hb => ?_
  rw [slice_rows]
  refine List.flatMap_congr fun p hp => ?_
  exact h.row l hl b (List.mem_range.mp hb) p (Nat.lt_of_lt_of_le (List.mem_range.mp hp) hpast)

end Stored

theorem scalars_inj {c c' : KvCache K} (h : scalars c = scalars c') : c.nLayers = c'.nLayers ∧ c.batch = c'.batch ∧
    c.maxSeq = c'.maxSeq ∧ c.kDim = c'.kDim ∧ c.vDim = c'.vDim ∧ c.nHeads = c'.nHeads ∧ c.pastLen = c'.pastLen ∧
    c.pendingSeq = c'.pendingSeq ∧ c.absPos = c'.absPos ∧ c.ropeScaleLen = c'.ropeScaleLen ∧ c.sink = c'.sink := by
  simpa only [scalars, Prod.mk.injEq] using h

theorem compactToFit_sim {f : KvStore K} {c : KvCache K} (h : Sim f c) (incoming : Int) :
    Sim (f.compactToFit incoming) (c.compactToFit incoming) := by
  obtain ⟨-, hb, hm, hk, hv, -, hp, -, -, -, hs⟩ := scalars_inj h.scalars
  simp only [rows] at hb hm hk hv hp hs
  have hwf := KvCache.compactToFit_wf h.wf incoming
  unfold compactToFit KvCache.compactToFit at *
  dsimp only at *
  simp only [hp, hm, hs]
  by_cases hfits : c.pastLen + incoming ≤ c.maxSeq
  · rw [if_pos hfits, if_pos hfits]
    exact h
  rw [if_neg hfits] at hwf ⊢
  rw [if_neg hfits]
  generalize hdrop : (if c.pastLen - min c.sink c.pastLen < c.pastLen + incoming - c.maxSeq then
    c.pastLen - min c.sink c.pastLen else c.pastLen + incoming - c.maxSeq) = drop at hwf ⊢
  by_cases hnone : drop ≤ 0
  · rw [if_pos hnone, if_pos hnone]
    exact h
  rw [if_neg hnone] at hwf ⊢
  rw [if_neg hnone]
  have hsink := h.wf.sink
  have hpast := h.wf.past
  have hle := h.wf.past_le
  have hmove : drop ≤ c.pastLen - min c.sink c.pastLen := by
    rw [← hdrop]
    split <;> omega
  obtain ⟨keep, hkeep⟩ : ∃ keep : Nat, min c.sink c.pastLen = keep := ⟨(min c.sink c.pastLen).toNat, by omega⟩
  obtain ⟨d, rfl⟩ : ∃ d : Nat, drop = d := ⟨drop.toNat, by omega⟩
  obtain ⟨tail, htail⟩ : ∃ tail : Nat, c.pastLen - min c.sink c.pastLen - d = tail :=
    ⟨(c.pastLen - min c.sink c.pastLen - d).toNat, by omega⟩
  have hB : (c.batch.toNat : Int) = c.batch := Int.toNat_of_nonneg (Int.le_of_lt h.wf.batch)
  have hM : (c.maxSeq.toNat : Int) = c.maxSeq := Int.toNat_of_nonneg (by omega)
  have hK : (c.kDim.toNat : Int) = c.kDim := Int.toNat_of_nonneg (Int.le_of_lt h.wf.kDim)
  have hV : (c.vDim.toNat : Int) = c.vDim := Int.toNat_of_nonneg (Int.le_of_lt h.wf.vDim)
  have hfit : keep + d + tail ≤ c.maxSeq.toNat := by omega
  have hkrows := h.k.compact hfit
  have hvrows := h.v.compact hfit
  rw [hB, hM, hK] at hkrows
  rw [hB, hM, hV] at hvrows
  rw [hkeep] at htail
  simp only [hkeep, htail, hb, hk, hv]
  refine ⟨?_, ?_, hkrows, hvrows⟩
  · simpa only [hkeep, htail] using hwf
  · have hsc := scalars_inj h.scalars
    simp only [rows] at hsc
    simp only [scalars, rows, hsc]

/-- Views have no negative dimension. -/
theorem appendLayer_sim {f : KvStore K} {c : KvCache K} (h : Sim f c) {layer : Int} {k v : TensorView K}
    (hseq : ∀ seq, c.appendChecks layer k v = .ok seq → 0 ≤ seq) :
    (f.appendLayer layer k v).1 = (c.appendLayer layer k v).1 ∧
      Sim (f.appendLayer layer k v).2 (c.appendLayer layer k v).2 := by
  unfold appendLayer KvCache.appendLayer
  obtain ⟨hn₀, hb₀, hm₀, hk₀, hv₀, -⟩ := scalars_inj h.scalars
  rw [KvCache.appendChecks_congr hn₀ hb₀ hm₀ hk₀ hv₀]
  cases hchecks : c.appendChecks layer k v with
  | error e => exact ⟨rfl, h⟩
  | ok seq =>
    have hpos := hseq seq hchecks
    have hlayer : 0 ≤ layer := by
      unfold KvCache.appendChecks at hchecks
      split at hchecks
      · cases hchecks
      split at hchecks
      · cases hchecks
      · omega
    have hsim := compactToFit_sim h seq
    obtain ⟨hn, hb, hm, hk, hv, -, hp, hpend, -⟩ := scalars_inj hsim.scalars
    have hcapacity := KvCache.ensureCapacity_congr hn hm
    simp only [rows] at hn hb hm hk hv hp hpend
    dsimp only
    rw [hcapacity, hp, hb, hk, hv, hm]
    generalize hc' : c.compactToFit seq = c' at hsim hn hb hm hk hv hp hpend ⊢
    cases hcap : c'.ensureCapacity (c'.pastLen + seq) with
    | error e => exact ⟨rfl, hsim⟩
    | ok _ =>
      dsimp only
      by_cases hshort : k.f32.length < (c'.batch * seq * c'.kDim).toNat ∨ v.f32.length < (c'.batch * seq * c'.vDim).toNat
      · rw [if_pos hshort, if_pos hshort]
        exact ⟨rfl, hsim⟩
      rw [if_neg hshort, if_neg hshort]
      refine ⟨rfl, ?_⟩
      have hwf := hsim.wf
      have hroom : c'.pastLen + seq ≤ c'.maxSeq := by
        unfold KvCache.ensureCapacity at hcap
        split at hcap
        · cases hcap
        split at hcap
        · cases hcap
        · omega
      have hpast := hwf.past
      have hsinkpos := hwf.sink
      have hsink := hwf.sink_lt
      have hB : (c'.batch.toNat : Int) = c'.batch := Int.toNat_of_nonneg (Int.le_of_lt hwf.batch)
      have hM : (c'.maxSeq.toNat : Int) = c'.maxSeq := Int.toNat_of_nonneg (by omega)
      have hK : (c'.kDim.toNat : Int) = c'.kDim := Int.toNat_of_nonneg (Int.le_of_lt hwf.kDim)
      have hV : (c'.vDim.toNat : Int) = c'.vDim := Int.toNat_of_nonneg (Int.le_of_lt hwf.vDim)
      have hP : (c'.pastLen.toNat : Int) = c'.pastLen := Int.toNat_of_nonneg hpast
      have hS : (seq.toNat : Int) = seq := Int.toNat_of_nonneg hpos
      have hL : (layer.toNat : Int) = layer := Int.toNat_of_nonneg hlayer
      have hlen : ∀ dim : Int, (dim.toNat : Int) = dim → (c'.batch * seq * dim).toNat = c'.batch.toNat * seq.toNat * dim.toNat := by
        intro dim hdim
        rw [← hB, ← hS, ← hdim, ← Int.natCast_mul, ← Int.natCast_mul]
        simp only [Int.toNat_natCast]
      rw [hlen _ hK, hlen _ hV] at hshort
      have hfit : c'.pastLen.toNat + seq.toNat ≤ c'.maxSeq.toNat := by omega
      have hkrows := hsim.k.write layer.toNat (show _ ≤ k.f32.length by omega) hfit
      have hvrows := hsim.v.write layer.toNat (show _ ≤ v.f32.length by omega) hfit
      rw [hB, hM, hK, hP, hS, hL] at hkrows
      rw [hB, hM, hV, hP, hS, hL] at hvrows
      refine ⟨⟨hwf.layers, hwf.batch, hwf.kDim, hwf.vDim, hwf.sink, hwf.sink_lt, hwf.past, hwf.past_le⟩, ?_, hkrows, hvrows⟩
      have hsc := scalars_inj hsim.scalars
      simp only [rows] at hsc
      simp only [scalars, rows, hsc]

theorem commitStep_sim {f : KvStore K} {c : KvCache K} (h : Sim f c) (hwf : c.commitStep.Wf) :
    Sim f.commitStep c.commitStep := by
  refine ⟨hwf, ?_, h.k, h.v⟩
  have hsc := scalars_inj h.scalars
  simp only [rows] at hsc
  simp only [scalars, rows, commitStep, KvCache.commitStep, hsc]

theorem configure_sim [Zero K] {f : KvStore K} {c : KvCache K} (hscale : f.ropeScaleLen = c.ropeScaleLen)
    {nLayers batch maxSeq kDim vDim nHeads sink : Int} {f₀ : KvStore K}
    (hf : f.configure nLayers batch maxSeq kDim vDim nHeads sink = .ok f₀) :
    ∃ c₀, c.configure nLayers batch maxSeq kDim vDim nHeads sink = .ok c₀ ∧ Sim f₀ c₀ := by
  unfold configure at hf
  split at hf
  · cases hf
  rename_i hdims
  split at hf
  · cases hf
  rename_i hheads
  cases hf
  have hok : c.configure nLayers batch maxSeq kDim vDim nHeads sink = .ok ⟨nLayers, batch, maxSeq, kDim, vDim, nHeads, 0, 0, 0,
      c.ropeScaleLen, if maxSeq ≤ (if sink < 0 then 0 else sink) then 0 else (if sink < 0 then 0 else sink),
      KvCache.zeroRows kDim, KvCache.zeroRows vDim⟩ := by
    unfold KvCache.configure
    rw [if_neg hdims, if_neg hheads]
  refine ⟨_, hok, (KvCache.configure_wf hok).1, ?_, ?_, ?_⟩
  · simp only [scalars, rows, hscale]
  all_goals
    have hB : (batch.toNat : Int) = batch := Int.toNat_of_nonneg (by omega)
    have hM : (maxSeq.toNat : Int) = maxSeq := Int.toNat_of_nonneg (by omega)
    have hlen : ∀ dim : Int, 0 < dim → (batch * maxSeq * dim).toNat = batch.toNat * maxSeq.toNat * dim.toNat := by
      intro dim hdim
      rw [← hB, ← hM, ← Int.toNat_of_nonneg (Int.le_of_lt hdim), ← Int.natCast_mul, ← Int.natCast_mul]
      simp only [Int.toNat_natCast]
    dsimp only
    rw [hlen _ (by omega)]
    exact Stored.zero _ _ _ _

/-- Both show the same rows. -/
theorem makePastView_sim {f : KvStore K} {c : KvCache K} (h : Sim f c) {bufs : List (List K)} {rs : Rows K} {dim : Int}
    (hdim : 0 < dim) (hrows : Stored c.nLayers.toNat c.batch.toNat c.maxSeq.toNat dim.toNat bufs rs) (layer : Int) :
    f.makePastView bufs layer dim = c.makePastView rs layer dim := by
  obtain ⟨hn, hb, hm, -, -, -, hp, -⟩ := scalars_inj h.scalars
  simp only [rows] at hn hb hm hp
  unfold makePastView KvCache.makePastView KvCache.configured rows
  dsimp only
  rw [hn, hb, hm, hp]
  by_cases hnull : (!decide (0 < c.nLayers)) = true ∨ layer < 0 ∨ c.nLayers ≤ layer ∨ c.pastLen ≤ 0
  · rw [if_pos hnull, if_pos hnull]
  rw [if_neg hnull, if_neg hnull]
  have hle := h.wf.past_le
  have hB : (c.batch.toNat : Int) = c.batch := Int.toNat_of_nonneg (Int.le_of_lt h.wf.batch)
  have hM : (c.maxSeq.toNat : Int) = c.maxSeq := Int.toNat_of_nonneg (by omega)
  have hP : (c.pastLen.toNat : Int) = c.pastLen := Int.toNat_of_nonneg h.wf.past
  have hD : (dim.toNat : Int) = dim := Int.toNat_of_nonneg (Int.le_of_lt hdim)
  have hpacked := hrows.packed (show layer.toNat < c.nLayers.toNat by omega) (show c.pastLen.toNat ≤ c.maxSeq.toNat by omega)
  have hoffset : ∀ b : Nat, ((b : Int) * c.maxSeq * dim).toNat = b * c.maxSeq.toNat * dim.toNat := by
    intro b
    rw [← hM, ← hD, ← Int.natCast_mul, ← Int.natCast_mul]
    simp only [Int.toNat_natCast]
  have hsize : (c.pastLen * dim).toNat = c.pastLen.toNat * dim.toNat := by
    rw [← hP, ← hD, ← Int.natCast_mul]
    simp only [Int.toNat_natCast]
  have htotal : (c.batch * c.pastLen * dim).toNat = c.batch.toNat * (c.pastLen.toNat * dim.toNat) := by
    rw [← hB, ← hP, ← hD, ← Int.natCast_mul, ← Int.natCast_mul]
    simp only [Int.toNat_natCast, Nat.mul_assoc]
  congr 1
  simp only [hoffset, hsize, htotal]
  refine Eq.trans ?_ hpacked
  by_cases hplace : c.batch = 1 ∨ c.pastLen = c.maxSeq
  · rw [if_pos hplace]
    rcases hplace with hone | hfull
    · rw [hone]
      simp
    · rw [hfull]
      have hslice := slice_rows (c.maxSeq.toNat * dim.toNat) (bufs.getD layer.toNat []) 0 c.batch.toNat
      simp only [Nat.zero_mul, List.drop_zero, Nat.zero_add] at hslice
      rw [hslice]
      refine List.flatMap_congr fun b _ => ?_
      rw [Rows.row, Nat.mul_assoc]
  · rw [if_neg hplace]

theorem kView_sim {f : KvStore K} {c : KvCache K} (h : Sim f c) (layer : Int) : f.kView layer = c.kView layer := by
  obtain ⟨-, -, -, hk, -⟩ := scalars_inj h.scalars
  simp only [rows] at hk
  unfold kView KvCache.kView
  rw [hk]
  exact makePastView_sim h h.wf.kDim h.k layer

theorem vView_sim {f : KvStore K} {c : KvCache K} (h : Sim f c) (layer : Int) : f.vView layer = c.vView layer := by
  obtain ⟨-, -, -, -, hv, -⟩ := scalars_inj h.scalars
  simp only [rows] at hv
  unfold vView KvCache.vView
  rw [hv]
  exact makePastView_sim h h.wf.vDim h.v layer

end KvStore

end Uaii.Runtime
