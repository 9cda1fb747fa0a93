/-
  Uaii.Kernels.Rope — `rope_f32` and `rope_scaled_inv_freq`
  (`libs/uaii-kernels/src/transformer.cpp`).

  Numbers are exact; the functions of `<cmath>` are parameters. Of the active KV cache a
  call reads its position and its scale length. `in` and `out` are buffers of their own;
  the longrope factors are as many as `n_factors` says.

  Proved, for every layout of heads and spans and either pairing: each channel of the
  output is written with the value that the pair it is in has (`ropeRows_fills`), and where
  the frequencies do not depend on the position, moving queries and keys by the same
  distance keeps the dot product of every head (`rope_relative`).
-/

import Uaii.Kernels.TensorView
import Uaii.Lib.Cells
import Uaii.Lib.Rotary
import Uaii.Lib.Rows
import Mathlib.Analysis.SpecialFunctions.Trigonometric.Basic
import Mathlib.Analysis.SpecialFunctions.Pow.Real

namespace Uaii.Kernels

/-- The functions of `<cmath>` that the kernel calls. -/
structure MathLib (K : Type) where
  cos : K → K
  sin : K → K
  log : K → K
  floor : K → K
  ceil : K → K
  pow : K → K → K

structure RopeParams (K : Type) where
  theta : K
  headDim : Int
  mode : Int
  rotaryDim : Int
  scaleType : Option String
  scaleFactor : K
  lowFreqFactor : K
  highFreqFactor : K
  oldContextLen : K
  attnFactor : K
  shortFactor : Option (List K)
  longFactor : Option (List K)
  nFactors : Int
  rotaryAlign : Int

/-- What is read of `active_kv_cache()`. -/
structure RopeCache where
  ropePos : Int
  ropeScaleLen : Int

structure RopeCall (K : Type) where
  cache : Option RopeCache
  input : TensorView K
  positions : Option (TensorView K)
  out : Option (TensorView K)

variable {K : Type}

/-! ## Frequencies -/

section

variable [Field K] [LinearOrder K]

/-- `digits / 10^scale`. -/
def decimal (digits scale : Nat) : K := (digits : K) / ((10 ^ scale : Nat) : K)

def kPi : K := decimal 314159265358979323846 20

def orElse (x : K) (n : Nat) : K := if 0 < x then x else (n : K)

def RopeParams.kind (p : RopeParams K) : String := p.scaleType.getD ""

/-- The base frequency, `1 / pow(base, 2i / dim)`. -/
def invFreq (m : MathLib K) (base i dim : K) : K := 1 / m.pow base (decimal 2 0 * i / dim)

def dynamicInvFreq (m : MathLib K) (base i dim factor oldCtx seq : K) : K :=
  if decimal 2 0 < dim ∧ oldCtx < seq then
    let ntk := factor * (seq / oldCtx) - (factor - 1)
    if 0 < ntk then invFreq m (base * m.pow ntk (dim / (dim - decimal 2 0))) i dim else invFreq m base i dim
  else invFreq m base i dim

def longropeInvFreq (p : RopeParams K) (inv oldCtx seq : K) (pairIndex : Int) : K :=
  match (if oldCtx < seq then p.longFactor else p.shortFactor).or p.shortFactor with
  | none => inv
  | some fac =>
    if pairIndex < p.nFactors then
      let f := fac.getD pairIndex.toNat 0
      if 0 < f then inv / f else inv
    else inv

def llama3InvFreq (p : RopeParams K) (inv factor oldCtx : K) : K :=
  let lowF := orElse p.lowFreqFactor 1
  let highF := orElse p.highFreqFactor 4
  let wavelen := decimal 2 0 * kPi / inv
  if wavelen < oldCtx / highF then inv
  else if oldCtx / lowF < wavelen then inv / factor
  else
    let denom := highF - lowF
    let smooth := if denom ≠ 0 then (oldCtx / wavelen - lowF) / denom else 0
    (1 - smooth) * (inv / factor) + smooth * inv

def correctionDim (m : MathLib K) (base dim yarnCtx numRotations : K) : K :=
  if ¬ 1 < base ∨ ¬ 0 < yarnCtx ∨ numRotations ≤ 0 then 0
  else dim * m.log (yarnCtx / (numRotations * decimal 2 0 * kPi)) / (decimal 2 0 * m.log base)

def yarnInvFreq (m : MathLib K) (p : RopeParams K) (base i dim inv factor : K) : K :=
  let yarnCtx := orElse p.oldContextLen 2048
  let low := m.floor (correctionDim m base dim yarnCtx (decimal 32 0))
  let high := m.ceil (correctionDim m base dim yarnCtx 1)
  let low := if low < 0 then 0 else low
  let high := if dim - 1 < high then dim - 1 else high
  let high := if low = high then high + decimal 1 3 else high
  let ramp := (i - low) / (high - low)
  let ramp := if ramp < 0 then 0 else ramp
  let ramp := if 1 < ramp then 1 else ramp
  inv / factor * ramp + inv * (1 - ramp)

def ropeScaledInvFreq (m : MathLib K) (p : RopeParams K) (pairIndex nPairs : Int) (seqLen : K) : K :=
  if nPairs ≤ 0 ∨ pairIndex < 0 then 0
  else
    let dim : K := ((nPairs * 2 : Int) : K)
    let i : K := (pairIndex : K)
    let base := orElse p.theta 10000
    let inv := invFreq m base i dim
    let factor := orElse p.scaleFactor 1
    let oldCtx := orElse p.oldContextLen 8192
    let seq := if 0 < seqLen then seqLen else oldCtx
    if p.kind = "" ∨ p.kind = "none" ∨ p.kind = "default" then inv
    else if p.kind = "linear" then inv / factor
    else if p.kind = "dynamic" then dynamicInvFreq m base i dim factor oldCtx seq
    else if p.kind = "longrope" ∨ p.kind = "su" then longropeInvFreq p inv oldCtx seq pairIndex
    else if p.kind = "llama3" then llama3InvFreq p inv factor oldCtx
    else if p.kind = "yarn" then yarnInvFreq m p base i dim inv factor
    else inv

def yarnMscale (m : MathLib K) (p : RopeParams K) : K :=
  if p.kind = "yarn" ∧ 1 < orElse p.scaleFactor 1 then
    decimal 1 1 * orElse p.attnFactor 1 * m.log (orElse p.scaleFactor 1) + 1
  else 1

end

/-- The types that `rope_f32` does not refuse. -/
def ropeScalings : List String := ["", "none", "default", "linear", "llama3", "dynamic", "yarn", "longrope", "su"]

/-! ## Layout -/

/-- `dim`, `rope_chunk`, `rot` and the two choices, as the checks leave them. -/
@[ext] structure RopeLayout where
  dim : Int
  chunk : Nat
  half : Nat
  leading : Bool
  neox : Bool
  chunk_dvd : (chunk : Int) ∣ dim
  half_pos : 0 < half
  rot_le : 2 * half ≤ chunk

namespace RopeLayout

variable (l : RopeLayout)

def rot : Nat := 2 * l.half

def rotOff : Nat := if l.leading then 0 else l.chunk - l.rot

def copyN : Nat := l.chunk - l.rot

def copyOff : Nat := if l.leading then l.rot else 0

def nChunks : Nat := (l.dim.tdiv l.chunk).toNat

def rows (numel : Nat) : Nat := numel / l.dim.toNat

/-- Where head `h` of row `r` starts. -/
def headAt (r h : Nat) : Nat := r * l.dim.toNat + h * l.chunk

end RopeLayout

def ropeChunk (p : RopeParams K) (dim : Int) : Int := if 0 < p.headDim then p.headDim else dim

def ropeRot (p : RopeParams K) (dim : Int) : Int := if 0 < p.rotaryDim then p.rotaryDim else ropeChunk p dim

def ropeLayout (p : RopeParams K) (dim : Int) : Result RopeLayout :=
  if dim.tmod 2 ≠ 0 then fail .invalidArgument "rope dim must be even"
  else if hchunk : ropeChunk p dim ≤ 0 ∨ dim.tmod (ropeChunk p dim) ≠ 0 ∨ (ropeChunk p dim).tmod 2 ≠ 0 then
    fail .invalidArgument "rope head_dim invalid"
  else if hrot : ropeChunk p dim < ropeRot p dim ∨ ropeRot p dim ≤ 0 ∨ (ropeRot p dim).tmod 2 ≠ 0 then
    fail .invalidArgument "rope rotary_dim invalid"
  else .ok {
    dim := dim
    chunk := (ropeChunk p dim).toNat
    half := (ropeRot p dim / 2).toNat
    leading := p.rotaryAlign = 0 ∧ ropeRot p dim < ropeChunk p dim
    neox := p.mode = 2
    chunk_dvd := by
      rw [Int.toNat_of_nonneg (by omega)]
      exact Int.dvd_of_tmod_eq_zero (by omega)
    half_pos := by
      have hmod : (ropeRot p dim).tmod 2 = ropeRot p dim % 2 := Int.tmod_eq_emod_of_nonneg (by omega)
      omega
    rot_le := by omega }

/-! ## The loops -/

section

variable [Field K]

/-- One pair: `i` and `j` in the buffers. -/
def ropePair (x : List K) (c s : K) (i j : Nat) (y : List K) : List K :=
  (y.set i (x.getD i 0 * c - x.getD j 0 * s)).set j (x.getD i 0 * s + x.getD j 0 * c)

/-- The pairs of a span that starts at `start`. -/
def ropeSpan (l : RopeLayout) (cos sin : Nat → K) (x : List K) (start : Nat) (y : List K) : List K :=
  if l.neox then
    (List.range l.half).foldl (fun y i => ropePair x (cos i) (sin i) (start + i) (start + (i + l.half)) y) y
  else
    (List.range' 0 l.half 2).foldl (fun y i => ropePair x (cos (i / 2)) (sin (i / 2)) (start + i) (start + (i + 1)) y) y

def ropeHead (l : RopeLayout) (cos sin : Nat → K) (x : List K) (start : Nat) (y : List K) : List K :=
  ropeSpan l cos sin x (start + l.rotOff)
    (if 0 < l.copyN then Rows.blit y (start + l.copyOff) x (start + l.copyOff) l.copyN else y)

/-- `cos r` and `sin r` are those of row `r`, pair by pair. -/
def ropeRows (l : RopeLayout) (rows : Nat) (cos sin : Nat → Nat → K) (x y : List K) : List K :=
  (List.range rows).foldl
    (fun y r => (List.range l.nChunks).foldl (fun y h => ropeHead l (cos r) (sin r) x (l.headAt r h) y) y) y

end

/-! ## The call -/

namespace RopeCall

variable (c : RopeCall K)

def dim : Int := c.input.dim (c.input.rank - 1)

def basePos : Int := (c.cache.map (·.ropePos)).getD 0

def scaleLen : Int := (c.cache.map (·.ropeScaleLen)).getD 0

variable [Field K] [LinearOrder K]

/-- `scale_seq_override`. -/
def scaleSeqOverride : K := if 0 < c.scaleLen then (c.scaleLen : K) else 0

def pos (r : Nat) : K :=
  match c.positions with
  | some t => if t.data.isSome ∧ r < t.numel then t.f32.getD r 0 else ((c.basePos + r : Int) : K)
  | none => ((c.basePos + r : Int) : K)

def scaleSeq (r : Nat) : K := if 0 < (c.scaleSeqOverride : K) then c.scaleSeqOverride else c.pos r + 1

def angle (m : MathLib K) (p : RopeParams K) (l : RopeLayout) (r i : Nat) : K :=
  c.pos r * ropeScaledInvFreq m p i l.half (c.scaleSeq r)

/-- The reads of `positions` for the rows stay in its memory. -/
def positionsRead (rows : Nat) : Prop := ∀ t ∈ c.positions, t.data.isSome → min rows t.numel ≤ t.f32.length

instance (rows : Nat) : Decidable (c.positionsRead rows) :=
  inferInstanceAs (Decidable (∀ t ∈ c.positions, t.data.isSome → min rows t.numel ≤ t.f32.length))

end RopeCall

/-- The words of `out` after the call. -/
def ropeF32 [Field K] [LinearOrder K] (m : MathLib K) (p : RopeParams K) (c : RopeCall K) : Result (List K) :=
  match c.out with
  | none => fail .invalidArgument "rope null"
  | some out =>
    if c.input.data.isNone ∨ out.data.isNone then fail .invalidArgument "rope null"
    else if c.input.dtype ≠ .f32 ∨ out.dtype ≠ .f32 then fail .invalidArgument "rope f32"
    else if c.input.numel ≠ out.numel ∨ c.input.rank < 2 then fail .invalidArgument "rope shape"
    else do
      let l ← ropeLayout p c.dim
      if l.dim = 0 then .error (.undefined "division by zero")
      else if p.kind ∉ ropeScalings then fail .notImplemented ("unsupported rope_scaling.type=" ++ p.kind)
      else
        let rows := l.rows c.input.numel
        if c.input.f32.length < rows * l.dim.toNat ∨ out.f32.length < rows * l.dim.toNat ∨ ¬ c.positionsRead rows then
          .error (.undefined "access past a view")
        else .ok (ropeRows l rows (fun r i => m.cos (c.angle m p l r i) * yarnMscale m p)
          (fun r i => m.sin (c.angle m p l r i) * yarnMscale m p) c.input.f32 out.f32)

/-! ## What the loops write -/

namespace RopeLayout

variable (l : RopeLayout)

def pairing : Rotary.Pairing l.half := if l.neox then .halves l.half else .adjacent l.half

theorem chunk_pos : 0 < l.chunk := by
  have := l.half_pos
  have := l.rot_le
  omega

theorem rot_le_chunk : l.rot ≤ l.chunk := l.rot_le

theorem rotOff_le : l.rotOff + l.rot ≤ l.chunk := by
  have := l.rot_le_chunk
  unfold rotOff
  split <;> omega

theorem dim_toNat : l.dim.toNat = l.nChunks * l.chunk := by
  obtain ⟨k, hk⟩ := l.chunk_dvd
  have hne : (l.chunk : Int) ≠ 0 := by exact_mod_cast Nat.ne_of_gt l.chunk_pos
  rw [nChunks, hk, Int.mul_tdiv_cancel_left k hne]
  rcases Int.le_total 0 k with hpos | hneg
  · obtain ⟨n, rfl⟩ := Int.eq_ofNat_of_zero_le hpos
    rw [Int.toNat_natCast, Nat.mul_comm]
    exact Int.toNat_natCast _
  · have hprod : (l.chunk : Int) * k ≤ 0 := Int.mul_nonpos_of_nonneg_of_nonpos (Int.natCast_nonneg _) hneg
    rw [Int.toNat_of_nonpos hprod, Int.toNat_of_nonpos hneg, Nat.zero_mul]

variable {l} {r h i : Nat}

theorem headAt_eq : l.headAt r h = (r * l.nChunks + h) * l.chunk := by
  rw [headAt, dim_toNat, ← Nat.mul_assoc, ← Nat.add_mul]

theorem headAt_lt (hh : h < l.nChunks) (hi : i < l.chunk) : l.headAt r h + i < (r + 1) * l.dim.toNat := by
  have hle : (h + 1) * l.chunk ≤ l.nChunks * l.chunk := Nat.mul_le_mul_right _ hh
  rw [Nat.succ_mul, ← l.dim_toNat] at hle
  rw [headAt, Nat.succ_mul]
  omega

/-- The row, the head and the channel of a cell. -/
theorem headAt_split (hh : h < l.nChunks) (hi : i < l.chunk) :
    (l.headAt r h + i) / l.dim.toNat = r ∧ (l.headAt r h + i) / l.chunk * l.chunk = l.headAt r h ∧
      (l.headAt r h + i) % l.chunk = i := by
  have hlt := headAt_lt (r := r) hh hi
  refine ⟨?_, ?_, ?_⟩
  · have hle : r * l.dim.toNat ≤ l.headAt r h + i := by
      unfold headAt
      omega
    exact Nat.div_eq_of_lt_le hle hlt
  · rw [headAt_eq, Nat.mul_comm (r * l.nChunks + h), Nat.mul_add_div l.chunk_pos, Nat.div_eq_of_lt hi, Nat.add_zero,
      Nat.mul_comm]
  · rw [headAt_eq, Nat.mul_comm, Nat.mul_add_mod, Nat.mod_eq_of_lt hi]

end RopeLayout

section

open Cells

variable [Field K] {l : RopeLayout} {cos sin : Nat → K} {x y : List K} {start n : Nat} {value : Nat → K}

/-- Channel `i` of the head that starts at `start`. -/
def headValue (l : RopeLayout) (cos sin : Nat → K) (x : List K) (start i : Nat) : K :=
  if l.rotOff ≤ i ∧ i < l.rotOff + l.rot then
    Rotary.rotate l.pairing cos sin (fun u => x.getD (start + l.rotOff + u) 0) (i - l.rotOff)
  else x.getD (start + i) 0

theorem range'_two (n : Nat) : List.range' 0 n 2 = (List.range n).map (2 * ·) :=
  List.ext_getElem (by simp) fun i _ _ => by simp

/-- Both loops, pair by pair. -/
theorem ropeSpan_eq : ropeSpan l cos sin x start y = (List.range l.half).foldl
    (fun y j => ropePair x (cos j) (sin j) (start + l.pairing.fst j) (start + l.pairing.snd j) y) y := by
  unfold ropeSpan RopeLayout.pairing
  by_cases hn : l.neox
  · rw [if_pos hn, if_pos hn]
    rfl
  · rw [if_neg hn, if_neg hn, range'_two, List.foldl_map]
    refine congrFun (congrFun (congrArg _ (funext fun y => funext fun j => ?_)) _) _
    rw [Nat.mul_div_cancel_left j (by decide)]
    rfl

theorem ropePair_fills {c s : K} {i j : Nat} (hi : x.getD i 0 * c - x.getD j 0 * s = value i)
    (hj : x.getD i 0 * s + x.getD j 0 * c = value j) : Fills n value (fun m => m = i ∨ m = j) (ropePair x c s i j) :=
  (Fills.set hi).comp (Fills.set hj)

/-- The pairs are the cells of the span. -/
theorem RopeLayout.span_cells (l : RopeLayout) (start m : Nat) :
    (∃ j ∈ List.range l.half, m = start + l.pairing.fst j ∨ m = start + l.pairing.snd j) ↔ start ≤ m ∧ m < start + l.rot := by
  constructor
  · intro h
    obtain ⟨j, hj, hm⟩ := h
    have hfst := l.pairing.fst_lt j (List.mem_range.mp hj)
    have hsnd := l.pairing.snd_lt j (List.mem_range.mp hj)
    unfold RopeLayout.rot
    omega
  · intro h
    obtain ⟨hle, hlt⟩ := h
    have hu : m - start < 2 * l.half := by
      unfold RopeLayout.rot at hlt
      omega
    refine ⟨_, List.mem_range.mpr (l.pairing.index_lt _ hu), ?_⟩
    have hchannel := l.pairing.channel _ hu
    split at hchannel
    · exact .inr (by omega)
    · exact .inl (by omega)

theorem ropeSpan_fills
    (hvalue : ∀ u < l.rot, Rotary.rotate l.pairing cos sin (fun u => x.getD (start + u) 0) u = value (start + u)) :
    Fills n value (fun m => start ≤ m ∧ m < start + l.rot) (ropeSpan l cos sin x start) := by
  have hpair : ∀ j ∈ List.range l.half, Fills n value (fun m => m = start + l.pairing.fst j ∨ m = start + l.pairing.snd j)
      (ropePair x (cos j) (sin j) (start + l.pairing.fst j) (start + l.pairing.snd j)) := by
    intro j hj
    have hlt := List.mem_range.mp hj
    refine ropePair_fills ?_ ?_
    · rw [← hvalue _ (l.pairing.fst_lt j hlt), Rotary.rotate_fst hlt]
    · rw [← hvalue _ (l.pairing.snd_lt j hlt), Rotary.rotate_snd hlt]
  have hfold := (Fills.foldl hpair).congr fun m _ => l.span_cells start m
  intro y hy
  rw [ropeSpan_eq]
  exact hfold y hy

theorem copy_fills {off k : Nat} (hx : off + k ≤ x.length) (hn : off + k ≤ n)
    (hvalue : ∀ m, off ≤ m → m < off + k → x.getD m 0 = value m) :
    Fills n value (fun m => off ≤ m ∧ m < off + k) fun y => Rows.blit y off x off k := by
  intro y hy
  have hroom : off + k ≤ y.length := by omega
  refine ⟨by rw [Rows.blit_length hroom hx, hy], fun m _ => ⟨fun hm => ?_, fun hm => ?_⟩⟩
  · rw [Rows.getElem?_blit hroom hx, if_pos hm, Nat.add_sub_cancel' hm.1, ← hvalue m hm.1 hm.2, List.getD_eq_getElem?_getD,
      List.getElem?_eq_getElem (by omega), Option.getD_some]
  · rw [Rows.getElem?_blit hroom hx, if_neg hm]

/-- The channels of a head are copied or turned. -/
theorem RopeLayout.parts (l : RopeLayout) : l.copyOff + l.copyN ≤ l.chunk ∧ l.rotOff + l.rot ≤ l.chunk ∧
    ∀ i < l.chunk, (l.copyOff ≤ i ∧ i < l.copyOff + l.copyN) ↔ ¬(l.rotOff ≤ i ∧ i < l.rotOff + l.rot) := by
  have hle := l.rot_le_chunk
  have hoff : l.rotOff = (if l.leading then 0 else l.chunk - l.rot) ∧ l.copyOff = (if l.leading then l.rot else 0) := ⟨rfl, rfl⟩
  have hcopyN : l.copyN = l.chunk - l.rot := rfl
  cases hl : l.leading
  · simp only [hl, Bool.false_eq_true, if_false] at hoff
    refine ⟨by omega, by omega, fun i hi => by omega⟩
  · simp only [hl, if_true] at hoff
    refine ⟨by omega, by omega, fun i hi => by omega⟩

theorem ropeHead_fills (hx : start + l.chunk ≤ x.length) (hn : start + l.chunk ≤ n)
    (hvalue : ∀ i < l.chunk, headValue l cos sin x start i = value (start + i)) :
    Fills n value (fun m => start ≤ m ∧ m < start + l.chunk) (ropeHead l cos sin x start) := by
  obtain ⟨hcopy, hrot, hsplit⟩ := l.parts
  have hcopied : Fills n value (fun m => start + l.copyOff ≤ m ∧ m < start + l.copyOff + l.copyN)
      fun y => if 0 < l.copyN then Rows.blit y (start + l.copyOff) x (start + l.copyOff) l.copyN else y := by
    by_cases hpos : 0 < l.copyN
    · simp only [if_pos hpos]
      refine copy_fills (by omega) (by omega) fun m hm hlt => ?_
      have hi : m - start < l.chunk := by omega
      have hval := hvalue (m - start) hi
      rw [headValue, if_neg ((hsplit _ hi).mp (by omega)), Nat.add_sub_cancel' (by omega)] at hval
      exact hval
    · simp only [if_neg hpos]
      exact Fills.nothing.congr fun m _ => iff_of_false id (by omega)
  have hturned : Fills n value (fun m => start + l.rotOff ≤ m ∧ m < start + l.rotOff + l.rot)
      (ropeSpan l cos sin x (start + l.rotOff)) := by
    refine ropeSpan_fills fun u hu => ?_
    have hval := hvalue (l.rotOff + u) (by omega)
    rw [headValue, if_pos (by omega), Nat.add_sub_cancel_left, ← Nat.add_assoc] at hval
    exact hval
  refine (hcopied.comp hturned).congr fun m _ => ?_
  by_cases hin : start ≤ m ∧ m < start + l.chunk
  · have hiff := hsplit (m - start) (by omega)
    by_cases hc : l.copyOff ≤ m - start ∧ m - start < l.copyOff + l.copyN
    · exact iff_of_true (.inl (by omega)) hin
    · have hr := not_not.mp (mt hiff.mpr hc)
      exact iff_of_true (.inr (by omega)) hin
  · exact iff_of_false (by omega) hin

/-- The cell `m` of the output. -/
def cellValue (l : RopeLayout) (cos sin : Nat → Nat → K) (x : List K) (m : Nat) : K :=
  headValue l (cos (m / l.dim.toNat)) (sin (m / l.dim.toNat)) x (m / l.chunk * l.chunk) (m % l.chunk)

variable {rows r h i : Nat} {cosOf sinOf : Nat → Nat → K}

theorem cellValue_headAt (hh : h < l.nChunks) (hi : i < l.chunk) :
    cellValue l cosOf sinOf x (l.headAt r h + i) = headValue l (cosOf r) (sinOf r) x (l.headAt r h) i := by
  obtain ⟨hrow, hhead, hchannel⟩ := RopeLayout.headAt_split (r := r) hh hi
  rw [cellValue, hrow, hhead, hchannel]

/-- The heads of the rows are the cells of the rows. -/
theorem RopeLayout.rows_cells (l : RopeLayout) (rows m : Nat) :
    (∃ r ∈ List.range rows, ∃ h ∈ List.range l.nChunks, l.headAt r h ≤ m ∧ m < l.headAt r h + l.chunk) ↔ m < rows * l.dim.toNat := by
  constructor
  · intro h
    obtain ⟨r, hr, h, hh, hle, hlt⟩ := h
    have hend := RopeLayout.headAt_lt (r := r) (List.mem_range.mp hh) (i := m - l.headAt r h) (by omega)
    have hrow : (r + 1) * l.dim.toNat ≤ rows * l.dim.toNat := Nat.mul_le_mul_right _ (List.mem_range.mp hr)
    omega
  · intro hm
    have hpos : 0 < l.dim.toNat := Nat.pos_of_ne_zero fun h0 => by simp [h0] at hm
    have hrow : m / l.dim.toNat < rows := Nat.div_lt_of_lt_mul (by rwa [Nat.mul_comm])
    have hrest := Nat.mod_lt m hpos
    have hchunk : m % l.dim.toNat / l.chunk < l.nChunks := by
      refine Nat.div_lt_of_lt_mul ?_
      rw [l.dim_toNat] at hrest
      rwa [Nat.mul_comm, l.dim_toNat]
    refine ⟨_, List.mem_range.mpr hrow, _, List.mem_range.mpr hchunk, ?_⟩
    have hsplit := Nat.div_add_mod m l.dim.toNat
    have hsplit' := Nat.div_add_mod (m % l.dim.toNat) l.chunk
    have hlt := Nat.mod_lt (m % l.dim.toNat) l.chunk_pos
    rw [RopeLayout.headAt, Nat.mul_comm (m / _), Nat.mul_comm (_ / _)]
    omega

theorem ropeRows_fills (hx : rows * l.dim.toNat ≤ x.length) (hn : rows * l.dim.toNat ≤ n) :
    Fills n (cellValue l cosOf sinOf x) (fun m => m < rows * l.dim.toNat) (ropeRows l rows cosOf sinOf x) := by
  have hhead : ∀ r ∈ List.range rows, ∀ h ∈ List.range l.nChunks, Fills n (cellValue l cosOf sinOf x)
      (fun m => l.headAt r h ≤ m ∧ m < l.headAt r h + l.chunk) (ropeHead l (cosOf r) (sinOf r) x (l.headAt r h)) := by
    intro r hr h hh
    have hlt := List.mem_range.mp hh
    have hrow : (r + 1) * l.dim.toNat ≤ rows * l.dim.toNat := Nat.mul_le_mul_right _ (List.mem_range.mp hr)
    have hend : l.headAt r h + l.chunk ≤ (r + 1) * l.dim.toNat := by
      have hlast := RopeLayout.headAt_lt (r := r) hlt (Nat.sub_one_lt_of_lt l.chunk_pos)
      have hpos := l.chunk_pos
      omega
    exact ropeHead_fills (by omega) (by omega) fun i hi => (cellValue_headAt hlt hi).symm
  exact (Fills.foldl fun r hr => Fills.foldl (hhead r hr)).congr fun m _ => l.rows_cells rows m

/-- What a head of the output holds. -/
theorem ropeRows_getD (hx : rows * l.dim.toNat ≤ x.length) (hy : rows * l.dim.toNat ≤ y.length) (hr : r < rows)
    (hh : h < l.nChunks) (hi : i < l.chunk) :
    (ropeRows l rows cosOf sinOf x y).getD (l.headAt r h + i) 0 = headValue l (cosOf r) (sinOf r) x (l.headAt r h) i := by
  have hend := RopeLayout.headAt_lt (r := r) hh hi
  have hrow : (r + 1) * l.dim.toNat ≤ rows * l.dim.toNat := Nat.mul_le_mul_right _ hr
  rw [← cellValue_headAt hh hi]
  exact (ropeRows_fills hx hy).written rfl (by omega) (by omega) 0

end

/-! ## A call that succeeds -/

section

variable [Field K] [LinearOrder K] {m : MathLib K} {p : RopeParams K} {c : RopeCall K} {l : RopeLayout} {y : List K}

theorem ropeF32_ok (h : ropeF32 m p c = .ok y) (hl : ropeLayout p c.dim = .ok l) :
    ∃ out : List K, l.rows c.input.numel * l.dim.toNat ≤ c.input.f32.length ∧ l.rows c.input.numel * l.dim.toNat ≤ out.length ∧
      y = ropeRows l (l.rows c.input.numel) (fun r i => m.cos (c.angle m p l r i) * yarnMscale m p)
        (fun r i => m.sin (c.angle m p l r i) * yarnMscale m p) c.input.f32 out := by
  unfold ropeF32 at h
  split at h
  · exact absurd h (fail_ne_ok _ _ _)
  · rename_i out _
    split at h
    · exact absurd h (fail_ne_ok _ _ _)
    split at h
    · exact absurd h (fail_ne_ok _ _ _)
    split at h
    · exact absurd h (fail_ne_ok _ _ _)
    rw [hl, ok_bind] at h
    split at h
    · cases h
    split at h
    · exact absurd h (fail_ne_ok _ _ _)
    dsimp only at h
    split at h
    · cases h
    · rename_i haccess
      obtain ⟨hx, hrest⟩ := not_or.mp haccess
      cases h
      exact ⟨out.f32, Nat.le_of_not_lt hx, Nat.le_of_not_lt (not_or.mp hrest).1, rfl⟩

/-- What a call takes. -/
theorem ropeF32_eq {out : TensorView K} (hout : c.out = some out) (hdata : c.input.data.isNone = false ∧ out.data.isNone = false)
    (hdtype : c.input.dtype = .f32 ∧ out.dtype = .f32) (hnumel : c.input.numel = out.numel) (hrank : 2 ≤ c.input.rank)
    (hl : ropeLayout p c.dim = .ok l) (hdim : l.dim ≠ 0) (hkind : p.kind ∈ ropeScalings)
    (hroom : l.rows c.input.numel * l.dim.toNat ≤ c.input.f32.length ∧ l.rows c.input.numel * l.dim.toNat ≤ out.f32.length)
    (hpos : c.positionsRead (l.rows c.input.numel)) :
    ropeF32 m p c = .ok (ropeRows l (l.rows c.input.numel) (fun r i => m.cos (c.angle m p l r i) * yarnMscale m p)
      (fun r i => m.sin (c.angle m p l r i) * yarnMscale m p) c.input.f32 out.f32) := by
  have haccess : ¬(c.input.f32.length < l.rows c.input.numel * l.dim.toNat ∨
      out.f32.length < l.rows c.input.numel * l.dim.toNat ∨ ¬ c.positionsRead (l.rows c.input.numel)) := by
    simp [hroom.1, hroom.2, hpos]
  unfold ropeF32
  rw [hout]
  dsimp only
  rw [if_neg (by simp [hdata]), if_neg (by simp [hdtype]), if_neg (by omega), hl, ok_bind, if_neg hdim,
    if_neg (not_not.mpr hkind), if_neg haccess]

/-- The channels of a head, after a call. -/
theorem ropeF32_getD (h : ropeF32 m p c = .ok y) (hl : ropeLayout p c.dim = .ok l) {r k i : Nat}
    (hr : r < l.rows c.input.numel) (hk : k < l.nChunks) (hi : i < l.chunk) :
    y.getD (l.headAt r k + i) 0 = headValue l (fun i => m.cos (c.angle m p l r i) * yarnMscale m p)
      (fun i => m.sin (c.angle m p l r i) * yarnMscale m p) c.input.f32 (l.headAt r k) i := by
  obtain ⟨out, hx, hy, rfl⟩ := ropeF32_ok h hl
  exact ropeRows_getD hx hy hr hk hi

/-- Whatever the scaling: the channels outside the span are those of the input. -/
theorem ropeF32_copies (h : ropeF32 m p c = .ok y) (hl : ropeLayout p c.dim = .ok l) {r k i : Nat}
    (hr : r < l.rows c.input.numel) (hk : k < l.nChunks) (hi : i < l.chunk) (hout : ¬(l.rotOff ≤ i ∧ i < l.rotOff + l.rot)) :
    y.getD (l.headAt r k + i) 0 = c.input.f32.getD (l.headAt r k + i) 0 := by
  rw [ropeF32_getD h hl hr hk hi, headValue, if_neg hout]

end

/-! ## Layouts of one head size -/

theorem ropeLayout_ok {p : RopeParams K} {d : Int} {l : RopeLayout} (h : ropeLayout p d = .ok l) :
    l.dim = d ∧ (l.chunk : Int) = ropeChunk p d ∧ (l.rot : Int) = ropeRot p d ∧
      l.leading = decide (p.rotaryAlign = 0 ∧ l.rot < l.chunk) ∧ l.neox = decide (p.mode = 2) := by
  unfold ropeLayout at h
  split at h
  · exact absurd h (fail_ne_ok _ _ _)
  split at h
  · exact absurd h (fail_ne_ok _ _ _)
  rename_i hchunk
  split at h
  · exact absurd h (fail_ne_ok _ _ _)
  rename_i hrot
  have hchunkNat : ((ropeChunk p d).toNat : Int) = ropeChunk p d := Int.toNat_of_nonneg (by omega)
  have heven : (ropeRot p d).tmod 2 = ropeRot p d % 2 := Int.tmod_eq_emod_of_nonneg (by omega)
  have hrotNat : ((2 * (ropeRot p d / 2).toNat : Nat) : Int) = ropeRot p d := by omega
  cases h
  refine ⟨rfl, hchunkNat, hrotNat, ?_, rfl⟩
  show decide (p.rotaryAlign = 0 ∧ ropeRot p d < ropeChunk p d) =
    decide (p.rotaryAlign = 0 ∧ 2 * (ropeRot p d / 2).toNat < (ropeChunk p d).toNat)
  exact decide_eq_decide.mpr (and_congr_right fun _ => by omega)

/-- The layouts of two calls with the same attributes and heads of one size differ in `dim` only. -/
theorem ropeLayout_same {p : RopeParams K} {d d' : Int} {l l' : RopeLayout} (h : ropeLayout p d = .ok l)
    (h' : ropeLayout p d' = .ok l') (hchunk : l.chunk = l'.chunk) :
    ∃ hdvd, l' = { l with dim := d', chunk_dvd := hdvd } := by
  obtain ⟨-, hc, hrot, hleading, hneox⟩ := ropeLayout_ok h
  obtain ⟨hdim, hc', hrot', hleading', hneox'⟩ := ropeLayout_ok h'
  have hrotEq : l.rot = l'.rot := by
    unfold ropeRot at hrot hrot'
    rw [← hc] at hrot
    rw [← hc', ← hchunk, ← hrot] at hrot'
    exact_mod_cast hrot'.symm
  have hhalf : l.half = l'.half := Nat.eq_of_mul_eq_mul_left (by decide) hrotEq
  rw [← hrotEq, ← hchunk, ← hleading] at hleading'
  rw [← hneox] at hneox'
  have hdvd : (l.chunk : Int) ∣ d' := by
    rw [hchunk, ← hdim]
    exact l'.chunk_dvd
  exact ⟨hdvd, RopeLayout.ext hdim hchunk.symm hhalf.symm hleading' hneox'⟩

/-! ## The dot product of two heads -/

section

open Finset

/-- The dot product of the heads that start at `a` in `y` and at `b` in `z`. -/
def headDot [Field K] (chunk : Nat) (y z : List K) (a b : Nat) : K :=
  ∑ i ∈ range chunk, y.getD (a + i) 0 * z.getD (b + i) 0

section

variable [Field K] {l : RopeLayout} {x z : List K} {a b : Nat}

/-- The channels before the span, those of the span and those after it. -/
theorem sum_headValue (cos sin cos' sin' : Nat → K) :
    ∑ i ∈ range l.chunk, headValue l cos sin x a i * headValue l cos' sin' z b i =
      ∑ i ∈ range l.rotOff, x.getD (a + i) 0 * z.getD (b + i) 0 +
      ∑ u ∈ range (2 * l.half), Rotary.rotate l.pairing cos sin (fun u => x.getD (a + l.rotOff + u) 0) u *
        Rotary.rotate l.pairing cos' sin' (fun u => z.getD (b + l.rotOff + u) 0) u +
      ∑ i ∈ range (l.chunk - (l.rotOff + l.rot)),
        x.getD (a + (l.rotOff + l.rot + i)) 0 * z.getD (b + (l.rotOff + l.rot + i)) 0 := by
  have hchunk : l.chunk = l.rotOff + l.rot + (l.chunk - (l.rotOff + l.rot)) := (Nat.add_sub_cancel' l.rotOff_le).symm
  conv_lhs => rw [hchunk, sum_range_add, sum_range_add]
  refine congrArg₂ (· + ·) (congrArg₂ (· + ·) ?_ ?_) ?_
  · refine sum_congr rfl fun i hi => ?_
    have hlt := mem_range.mp hi
    rw [headValue, headValue, if_neg (by omega), if_neg (by omega)]
  · refine sum_congr rfl fun u hu => ?_
    have hlt : u < l.rot := mem_range.mp hu
    rw [headValue, headValue, if_pos (by omega), if_pos (by omega), Nat.add_sub_cancel_left]
  · refine sum_congr rfl fun i _ => ?_
    rw [headValue, headValue, if_neg (by omega), if_neg (by omega)]

/-- Turning the pairs of both heads by the same further angles. -/
theorem sum_headValue_shift {cos sin : K → K} (hcircle : Rotary.Circle cos sin) (mscale : K) (angle angle' shift : Nat → K) :
    ∑ i ∈ range l.chunk, headValue l (fun j => cos (angle j + shift j) * mscale) (fun j => sin (angle j + shift j) * mscale) x a i *
        headValue l (fun j => cos (angle' j + shift j) * mscale) (fun j => sin (angle' j + shift j) * mscale) z b i =
      ∑ i ∈ range l.chunk, headValue l (fun j => cos (angle j) * mscale) (fun j => sin (angle j) * mscale) x a i *
        headValue l (fun j => cos (angle' j) * mscale) (fun j => sin (angle' j) * mscale) z b i := by
  rw [sum_headValue, sum_headValue]
  have hspan := Rotary.dot_shift hcircle l.pairing mscale angle angle' shift (fun u => x.getD (a + l.rotOff + u) 0)
    (fun u => z.getD (b + l.rotOff + u) 0)
  unfold Rotary.dot at hspan
  rw [hspan]

variable [LinearOrder K] {m : MathLib K} {p : RopeParams K} {c d : RopeCall K} {l' : RopeLayout} {y w : List K}

/-- Two heads of one size, after two calls. -/
theorem ropeF32_headDot (hc : ropeF32 m p c = .ok y) (hd : ropeF32 m p d = .ok w) (hl : ropeLayout p c.dim = .ok l)
    (hl' : ropeLayout p d.dim = .ok l') (hchunk : l.chunk = l'.chunk) {r t h g : Nat} (hr : r < l.rows c.input.numel)
    (ht : t < l'.rows d.input.numel) (hh : h < l.nChunks) (hg : g < l'.nChunks) :
    headDot l.chunk y w (l.headAt r h) (l'.headAt t g) = ∑ i ∈ range l.chunk,
      headValue l (fun j => m.cos (c.angle m p l r j) * yarnMscale m p) (fun j => m.sin (c.angle m p l r j) * yarnMscale m p)
        c.input.f32 (l.headAt r h) i *
      headValue l (fun j => m.cos (d.angle m p l t j) * yarnMscale m p) (fun j => m.sin (d.angle m p l t j) * yarnMscale m p)
        d.input.f32 (l'.headAt t g) i := by
  refine sum_congr rfl fun i hi => ?_
  have hlt := mem_range.mp hi
  rw [ropeF32_getD hc hl hr hh hlt, ropeF32_getD hd hl' ht hg (hchunk ▸ hlt)]
  obtain ⟨hdvd, rfl⟩ := ropeLayout_same hl hl' hchunk
  rfl

end

/-! ## Frequencies that do not depend on the position -/

variable [Field K] [LinearOrder K] {m : MathLib K} {p : RopeParams K}

def PositionFree (kind : String) : Prop := kind ≠ "dynamic" ∧ kind ≠ "longrope" ∧ kind ≠ "su"

/-- The scaling does not look at the length, or all calls are under one fixed scale length. -/
def SameFrequencies (p : RopeParams K) (calls : List (RopeCall K)) : Prop :=
  PositionFree p.kind ∨ ∃ scaleLen : Int, 0 < scaleLen ∧ ∀ c ∈ calls, c.scaleLen = scaleLen

theorem positionFree_freq (h : PositionFree p.kind) (pairIndex nPairs : Int) (seqLen seqLen' : K) :
    ropeScaledInvFreq m p pairIndex nPairs seqLen = ropeScaledInvFreq m p pairIndex nPairs seqLen' := by
  obtain ⟨hdynamic, hlongrope, hsu⟩ := h
  unfold ropeScaledInvFreq
  simp only [hdynamic, hlongrope, hsu, if_false, or_self]

theorem same_freq [IsStrictOrderedRing K] {calls : List (RopeCall K)} (h : SameFrequencies p calls) (nPairs : Int) :
    ∃ freq : Nat → K, ∀ c ∈ calls, ∀ r i : Nat, ropeScaledInvFreq m p i nPairs (c.scaleSeq r) = freq i := by
  rcases h with hfree | ⟨scaleLen, hpos, hlen⟩
  · exact ⟨fun i => ropeScaledInvFreq m p i nPairs 0, fun c _ r i => positionFree_freq hfree ..⟩
  · refine ⟨fun i => ropeScaledInvFreq m p i nPairs (scaleLen : K), fun c hc r i => ?_⟩
    have hoverride : (c.scaleSeqOverride : K) = (scaleLen : K) := by
      rw [RopeCall.scaleSeqOverride, hlen c hc, if_pos hpos]
    rw [RopeCall.scaleSeq, hoverride, if_pos (Int.cast_pos.mpr hpos)]

end

/-! ## Over the reals -/

noncomputable def realMath : MathLib ℝ where
  cos := Real.cos
  sin := Real.sin
  log := Real.log
  floor x := ⌊x⌋
  ceil x := ⌈x⌉
  pow x y := x ^ y

theorem realMath_circle : Rotary.Circle realMath.cos realMath.sin where
  cos_add := Real.cos_add
  sin_add a b := by
    show Real.sin (a + b) = Real.sin a * Real.cos b + Real.cos a * Real.sin b
    exact Real.sin_add a b
  pythagoras a := by
    have h := Real.cos_sq_add_sin_sq a
    rw [pow_two, pow_two] at h
    exact h

/-- Queries and keys that are moved by the same distance have the same dot products, head by head, and the channels
outside the span are copied. -/
theorem rope_relative {p : RopeParams ℝ} {q q' k k' : RopeCall ℝ} {yq yq' yk yk' : List ℝ} {l l' : RopeLayout}
    (hfree : SameFrequencies p [q, q', k, k']) (hqin : q'.input = q.input) (hkin : k'.input = k.input)
    (hq : ropeF32 realMath p q = .ok yq) (hq' : ropeF32 realMath p q' = .ok yq')
    (hk : ropeF32 realMath p k = .ok yk) (hk' : ropeF32 realMath p k' = .ok yk')
    (hl : ropeLayout p q.dim = .ok l) (hl' : ropeLayout p k.dim = .ok l') (hchunk : l.chunk = l'.chunk)
    {r t h g : Nat} (hr : r < l.rows q.input.numel) (ht : t < l'.rows k.input.numel) (hh : h < l.nChunks) (hg : g < l'.nChunks)
    (s : ℝ) (hqpos : q'.pos r = q.pos r + s) (hkpos : k'.pos t = k.pos t + s) :
    headDot l.chunk yq' yk' (l.headAt r h) (l'.headAt t g) = headDot l.chunk yq yk (l.headAt r h) (l'.headAt t g) ∧
      ∀ i < l.chunk, ¬(l.rotOff ≤ i ∧ i < l.rotOff + l.rot) →
        yq.getD (l.headAt r h + i) 0 = q.input.f32.getD (l.headAt r h + i) 0 := by
  refine ⟨?_, fun i hi hout => ropeF32_copies hq hl hr hh hi hout⟩
  obtain ⟨freq, hfreq⟩ := same_freq (m := realMath) hfree l.half
  have hlq' : ropeLayout p q'.dim = .ok l := by rw [RopeCall.dim, hqin, ← RopeCall.dim, hl]
  have hlk' : ropeLayout p k'.dim = .ok l' := by rw [RopeCall.dim, hkin, ← RopeCall.dim, hl']
  have hangle : ∀ c ∈ [q, q', k, k'], ∀ i j : Nat, c.angle realMath p l i j = c.pos i * freq j := fun c hc i j => by
    rw [RopeCall.angle, hfreq c hc]
  have hqangle : ∀ j : Nat, q'.angle realMath p l r j = q.angle realMath p l r j + s * freq j := fun j => by
    rw [hangle q' (by simp), hangle q (by simp), hqpos, add_mul]
  have hkangle : ∀ j : Nat, k'.angle realMath p l t j = k.angle realMath p l t j + s * freq j := fun j => by
    rw [hangle k' (by simp), hangle k (by simp), hkpos, add_mul]
  rw [ropeF32_headDot hq' hk' hlq' hlk' hchunk (hqin ▸ hr) (hkin ▸ ht) hh hg, ropeF32_headDot hq hk hl hl' hchunk hr ht hh hg,
    hqin, hkin]
  simp only [hqangle, hkangle]
  exact sum_headValue_shift realMath_circle _ _ _ _

def plainRope : RopeParams ℝ where
  theta := 0
  headDim := 2
  mode := 2
  rotaryDim := 0
  scaleType := none
  scaleFactor := 0
  lowFreqFactor := 0
  highFreqFactor := 0
  oldContextLen := 0
  attnFactor := 0
  shortFactor := none
  longFactor := none
  nFactors := 0
  rotaryAlign := 1

def pairView : TensorView ℝ := .ofF32 [1, 2] [1, 1]

/-- One head at position `t`. -/
def onePair (t : ℝ) : RopeCall ℝ := ⟨none, pairView, some (.ofF32 [1] [t]), some pairView⟩

def onePairLayout : RopeLayout := ⟨2, 2, 1, false, true, by decide, by decide, by decide⟩

theorem onePair_layout (t : ℝ) : ropeLayout plainRope (onePair t).dim = .ok onePairLayout := rfl

theorem onePair_ok (t : ℝ) : ∃ y, ropeF32 realMath plainRope (onePair t) = .ok y := by
  have hout : (onePair t).out = some pairView := rfl
  have hroom : onePairLayout.rows pairView.numel * onePairLayout.dim.toNat ≤ pairView.f32.length := by decide
  have hpos : (onePair t).positionsRead (onePairLayout.rows pairView.numel) := by
    intro t' ht _
    cases ht
    exact Nat.min_le_left _ _
  exact ⟨_, ropeF32_eq hout ⟨rfl, rfl⟩ ⟨rfl, rfl⟩ rfl (Nat.le_refl 2) (onePair_layout t) (by decide) (by decide)
    ⟨hroom, hroom⟩ hpos⟩

theorem onePair_pos (t : ℝ) : (onePair t).pos 0 = t := by
  have hread : (TensorView.ofF32 [1] [t]).data.isSome ∧ 0 < (TensorView.ofF32 [1] [t]).numel := ⟨rfl, Nat.one_pos⟩
  unfold RopeCall.pos onePair
  exact if_pos hread

theorem onePair_relative : ∃ yq yq' yk yk' : List ℝ,
    ropeF32 realMath plainRope (onePair 0) = .ok yq ∧ ropeF32 realMath plainRope (onePair (0 + 1)) = .ok yq' ∧
      ropeF32 realMath plainRope (onePair 1) = .ok yk ∧ ropeF32 realMath plainRope (onePair (1 + 1)) = .ok yk' ∧
      headDot 2 yq' yk' 0 0 = headDot 2 yq yk 0 0 := by
  obtain ⟨yq, hq⟩ := onePair_ok 0
  obtain ⟨yq', hq'⟩ := onePair_ok (0 + 1)
  obtain ⟨yk, hk⟩ := onePair_ok 1
  obtain ⟨yk', hk'⟩ := onePair_ok (1 + 1)
  have hfree : SameFrequencies plainRope [onePair 0, onePair (0 + 1), onePair 1, onePair (1 + 1)] :=
    .inl ⟨by decide, by decide, by decide⟩
  have hlaw := rope_relative hfree rfl rfl hq hq' hk hk' (onePair_layout 0) (onePair_layout 1) rfl (r := 0) (t := 0) (h := 0) (g := 0)
    (by decide) (by decide) (by decide) (by decide) 1 (by rw [onePair_pos, onePair_pos]) (by rw [onePair_pos, onePair_pos])
  exact ⟨yq, yq', yk, yk', hq, hq', hk, hk', hlaw.1⟩

end Uaii.Kernels
