/-
  Uaii.Kernels.RopeTurn — what `rope_f32` does to a head, apart from the head's values.

  Proved: a query head and a key head that are turned on the same channels, as fast and to
  the same length have a rotary score that depends on the positions only through their
  difference (`Turn.score_shift`); a call under a scaling that does not reach the sequence
  length turns like one without (`Unscaled.freq`).
-/

import Uaii.Kernels.Rope

namespace Uaii.Kernels

open Finset

/-- The span of a head that is turned, its pairs, their frequencies and the factor on them. -/
structure Turn (K : Type) where
  first : Int
  half : Nat
  neox : Bool
  freq : Nat → K
  magnitude : K

variable {K : Type}

namespace Turn

def pairing (a : Turn K) : Rotary.Pairing a.half := if a.neox then .halves a.half else .adjacent a.half

/-- The channels are the same, and so is what happens to them. -/
structure Agrees (a b : Turn K) : Prop where
  first : a.first = b.first
  half : a.half = b.half
  neox : a.neox = b.neox
  freq : ∀ i < a.half, a.freq i = b.freq i
  magnitude : a.magnitude = b.magnitude

variable [Field K]

/-- The span of a head at a position. -/
def turned (m : MathLib K) (a : Turn K) (t : K) (x : Nat → K) (u : Nat) : K :=
  Rotary.rotate a.pairing (fun j => m.cos (t * a.freq j) * a.magnitude) (fun j => m.sin (t * a.freq j) * a.magnitude) x u

/-- The rotary part of the score of a query at `s` with a key at `t`. -/
def score (m : MathLib K) (a b : Turn K) (s t : K) (x y : Nat → K) : K :=
  ∑ u ∈ range (2 * a.half), a.turned m s x u * b.turned m t y u

theorem Agrees.turned {m : MathLib K} {a b : Turn K} (h : Agrees a b) (t : K) (x : Nat → K) {u : Nat} (hu : u < 2 * a.half) :
    b.turned m t x u = a.turned m t x u := by
  obtain ⟨first, half, neox, freq, magnitude⟩ := a
  obtain ⟨first', half', neox', freq', magnitude'⟩ := b
  obtain ⟨rfl, rfl, rfl, hfreq, rfl⟩ := h
  have hindex := (Turn.pairing ⟨first, half, neox, freq, magnitude⟩).index_lt u hu
  have hsame := hfreq _ hindex
  unfold Turn.turned Rotary.rotate
  show (if (Turn.pairing ⟨first, half, neox, freq, magnitude⟩).second u then _ else _) = _
  simp only at hsame
  simp only [hsame]
  rfl

/-- Only the distance matters. -/
theorem score_shift {m : MathLib K} (hcircle : Rotary.Circle m.cos m.sin) {a b : Turn K} (h : Agrees a b) (s t d : K)
    (x y : Nat → K) : score m a b (s + d) (t + d) x y = score m a b s t x y := by
  have hscore : ∀ s t : K, score m a b s t x y =
      Rotary.dot a.pairing m.cos m.sin a.magnitude (fun j => s * a.freq j) (fun j => t * a.freq j) x y := by
    intro s t
    exact sum_congr rfl fun u hu => by rw [h.turned t y (mem_range.mp hu)]; rfl
  rw [hscore, hscore]
  simp only [add_mul]
  exact Rotary.dot_shift hcircle _ _ _ _ _ _ _

end Turn

variable [Field K] [LinearOrder K]

/-- What a call does under a sequence length, to heads whose own channels begin at `first`. -/
def RopeLayout.turn (l : RopeLayout) (m : MathLib K) (p : RopeParams K) (seq : K) (first : Int) : Turn K :=
  ⟨first + l.rotOff, l.half, l.neox, fun i => ropeScaledInvFreq m p i l.half seq, yarnMscale m p⟩

/-- The sequence length of the only row of a call without positions. -/
def RopeCache.seq (c : RopeCache) : K := if 0 < c.ropeScaleLen then (c.ropeScaleLen : K) else (c.ropePos : K) + 1

theorem scaleSeq_cache [IsStrictOrderedRing K] (c : RopeCache) (x y : TensorView K) :
    (RopeCall.scaleSeq ⟨some c, x, none, some y⟩ 0 : K) = c.seq := by
  unfold RopeCall.scaleSeq RopeCall.scaleSeqOverride RopeCall.scaleLen RopeCache.seq RopeCall.pos RopeCall.basePos
  by_cases hpos : 0 < c.ropeScaleLen
  · simp [hpos]
  · simp [hpos]

/-- The span of a head after a call. -/
theorem ropeF32_turned {m : MathLib K} {p : RopeParams K} {c : RopeCall K} {y : List K} {l : RopeLayout} (h : ropeF32 m p c = .ok y)
    (hl : ropeLayout p c.dim = .ok l) {r k u : Nat} (hr : r < l.rows c.input.numel) (hk : k < l.nChunks) (hu : u < l.rot) (first : Int) :
    y.getD (l.headAt r k + (l.rotOff + u)) 0 = (l.turn m p (c.scaleSeq r) first).turned m (c.pos r)
      (fun u => c.input.f32.getD (l.headAt r k + l.rotOff + u) 0) u := by
  have hlt : l.rotOff + u < l.chunk := by
    have h := l.rotOff_le
    omega
  rw [ropeF32_getD h hl hr hk hlt, headValue, if_pos (by omega), Nat.add_sub_cancel_left]
  rfl

/-- The only row of a call without positions is at the cache's position. -/
theorem ropeF32_decode [IsStrictOrderedRing K] {m : MathLib K} {p : RopeParams K} {c : RopeCache} {x out : TensorView K} {y : List K}
    {l : RopeLayout} (h : ropeF32 m p ⟨some c, x, none, some out⟩ = .ok y)
    (hl : ropeLayout p (RopeCall.dim ⟨some c, x, none, some out⟩) = .ok l) {k u : Nat} (hr : 0 < l.rows x.numel) (hk : k < l.nChunks)
    (hu : u < l.rot) (first : Int) :
    y.getD (l.headAt 0 k + (l.rotOff + u)) 0 =
      (l.turn m p c.seq first).turned m (c.ropePos : K) (fun u => x.f32.getD (l.headAt 0 k + l.rotOff + u) 0) u := by
  have hpos : (RopeCall.pos ⟨some c, x, none, some out⟩ 0 : K) = (c.ropePos : K) := by
    simp [RopeCall.pos, RopeCall.basePos]
  rw [ropeF32_turned h hl hr hk hu first, scaleSeq_cache, hpos]

/-! ## Scalings that do nothing -/

/-- The sequence length from which on dynamic scaling sets in. -/
def RopeParams.oldCtx (p : RopeParams K) : K := orElse p.oldContextLen 8192

/-- Under this sequence length the scaling changes nothing. -/
def RopeParams.Unscaled (p : RopeParams K) (seq : K) : Prop :=
  p.kind ∉ ["linear", "llama3", "yarn", "dynamic", "longrope", "su"] ∨ (p.kind = "dynamic" ∧ seq ≤ p.oldCtx) ∨
    (p.kind ∈ ["longrope", "su"] ∧ p.shortFactor = none ∧ p.longFactor = none) ∨
    (p.kind ∈ ["linear", "llama3", "yarn"] ∧ orElse p.scaleFactor 1 = 1)

/-- Two sequence lengths under which the scaling does the same. -/
def RopeParams.SameScale (p : RopeParams K) (a b : K) : Prop :=
  PositionFree p.kind ∨ a = b ∨ (p.Unscaled a ∧ p.Unscaled b)

variable {m : MathLib K} {p : RopeParams K}

/-- The frequencies of a rotation without a scaling. -/
def RopeParams.plainFreq (p : RopeParams K) (m : MathLib K) (i n : Int) : K :=
  if n ≤ 0 ∨ i < 0 then 0 else invFreq m (orElse p.theta 10000) (i : K) ((n * 2 : Int) : K)

theorem RopeParams.Unscaled.freq {seq : K} (h : p.Unscaled seq) (i n : Int) : ropeScaledInvFreq m p i n seq = p.plainFreq m i n := by
  unfold ropeScaledInvFreq RopeParams.plainFreq
  by_cases hno : n ≤ 0 ∨ i < 0
  · rw [if_pos hno, if_pos hno]
  rw [if_neg hno, if_neg hno]
  dsimp only
  rcases h with hkind | ⟨hkind, hle⟩ | ⟨hkind, hshort, hlong⟩ | ⟨hkind, hfactor⟩
  · simp only [List.mem_cons, List.not_mem_nil, or_false, not_or] at hkind
    obtain ⟨hlinear, hllama, hyarn, hdynamic, hlong, hsu⟩ := hkind
    simp only [hlinear, hllama, hyarn, hdynamic, hlong, hsu, or_self, if_false, ite_self]
  · have hnot : ¬ (orElse p.oldContextLen 8192 < if 0 < seq then seq else orElse p.oldContextLen 8192) := by
      split
      · exact not_lt.mpr hle
      · exact lt_irrefl _
    simp only [hkind, dynamicInvFreq]
    simp only [String.reduceEq, or_self, if_false, if_true]
    rw [if_neg fun hlt => hnot hlt.2]
  · simp only [List.mem_cons, List.not_mem_nil, or_false] at hkind
    rcases hkind with hkind | hkind <;> simp [hkind, longropeInvFreq, hshort, hlong]
  · simp only [List.mem_cons, List.not_mem_nil, or_false] at hkind
    rcases hkind with hkind | hkind | hkind
    · simp [hkind, hfactor]
    · simp only [hkind, hfactor, llama3InvFreq, div_one]
      simp only [String.reduceEq, or_self, if_false, if_true]
      split
      · rfl
      split
      · rfl
      · ring
    · simp only [hkind, hfactor, yarnInvFreq, div_one]
      simp only [String.reduceEq, or_self, if_false, if_true]
      ring

/-- The first pair of a rotation without a scaling turns by its position. -/
theorem RopeParams.plainFreq_first (p : RopeParams ℝ) {n : Int} (hn : 0 < n) : p.plainFreq realMath 0 n = 1 := by
  have hyes : ¬ (n ≤ 0 ∨ (0 : Int) < 0) := by omega
  unfold RopeParams.plainFreq invFreq
  rw [if_neg hyes]
  simp [realMath]

theorem RopeParams.linear_freq (hkind : p.kind = "linear") (i n : Int) (seq : K) :
    ropeScaledInvFreq m p i n seq = p.plainFreq m i n / orElse p.scaleFactor 1 := by
  unfold ropeScaledInvFreq RopeParams.plainFreq
  by_cases hno : n ≤ 0 ∨ i < 0
  · rw [if_pos hno, if_pos hno, zero_div]
  · rw [if_neg hno, if_neg hno]
    simp [hkind]

theorem RopeParams.Unscaled.magnitude {seq : K} (h : p.Unscaled seq) : yarnMscale m p = 1 := by
  unfold yarnMscale
  refine if_neg fun ⟨hyarn, hlt⟩ => ?_
  rcases h with hkind | ⟨hkind, -⟩ | ⟨hkind, -⟩ | ⟨-, hfactor⟩
  · rw [hyarn] at hkind
    revert hkind
    decide
  · rw [hyarn] at hkind
    revert hkind
    decide
  · rw [hyarn] at hkind
    revert hkind
    decide
  · rw [hfactor] at hlt
    exact lt_irrefl _ hlt

theorem RopeParams.SameScale.freq {a b : K} (h : p.SameScale a b) (i n : Int) :
    ropeScaledInvFreq m p i n a = ropeScaledInvFreq m p i n b := by
  rcases h with hfree | rfl | ⟨hua, hub⟩
  · exact positionFree_freq hfree ..
  · rfl
  · rw [hua.freq, hub.freq]

end Uaii.Kernels
