/-
  Uaii.Runtime.Sampling — `sample_token_f32` (`libs/uaii-runtime/src/sampling.cpp`).

  Numbers are exact. `exp`, the standard library's selection and sort, and the random
  generator are parameters (`SamplerLib`).

  Proved: the greedy path returns the first index of the largest score
  (`greedyToken_largest`).
-/

import Mathlib.Algebra.Field.Defs
import Mathlib.Order.Defs.LinearOrder
import Uaii.Core.Error

namespace Uaii.Runtime

structure SampleParams (K : Type) where
  temperature : K
  topP : K
  topK : Int
  repetitionPenalty : K
  seed : Nat
  hasSeed : Bool
  deriving DecidableEq, Repr

/-- What the sampler uses of the standard library; `G` is the generator's state. -/
structure SamplerLib (K G : Type) where
  exp : K → K
  /-- `std::nth_element`, larger scores first. -/
  nthElement : Nat → List (K × Int) → List (K × Int)
  /-- `std::sort`, larger scores first. -/
  sortDown : List (K × Int) → List (K × Int)
  seeded : Nat → G
  /-- A draw from `[0, 1)`. -/
  uniform : G → K × G

section Sampling

variable {K G : Type} [Field K] [LinearOrder K]

/-- `1.0f + 1e-6f`: no penalty up to here. -/
def penaltyFloor : K := 1 + 1 / 1000000

def SampleParams.greedy (p : SampleParams K) : Bool :=
  p.temperature ≤ 0 ∧ p.topK ≤ 0 ∧ 1 - 1 / 1000000 ≤ p.topP ∧ p.repetitionPenalty ≤ penaltyFloor

def applyRepPenalty (logit penalty : K) (seen : Bool) : K :=
  if !seen ∨ penalty ≤ penaltyFloor then logit else if 0 < logit then logit / penalty else logit * penalty

/-- A score after the penalty. -/
def penalized (row : List K) (p : SampleParams K) (history : List Int) (i : Nat) : K :=
  applyRepPenalty (row.getD i 0) p.repetitionPenalty ((i : Int) ∈ history)

/-- The index of the first largest of `n` values. -/
def greedyToken (v : Nat → K) (n : Nat) : Nat :=
  (List.range n).foldl (fun best i => if v best < v i then i else best) 0

/-- The first largest entry. -/
def maxElement : List (K × Int) → K × Int
  | [] => (0, 0)
  | s :: scored => scored.foldl (fun best a => if best.1 < a.1 then a else best) s

/-- The entries up to a cumulative mass of `topP`, at least one. -/
def nucleus (topP : K) : K → List (K × Int) → List (K × Int)
  | _, [] => []
  | cum, s :: scored => if topP ≤ cum + s.1 then [s] else s :: nucleus topP (cum + s.1) scored

/-- The entry that `r` falls on, or the last. -/
def pick (r : K) : K → List (K × Int) → Int
  | _, [] => 0
  | cum, s :: scored => if r ≤ cum + s.1 ∨ scored = [] then s.2 else pick r (cum + s.1) scored

variable (lib : SamplerLib K G)

/-- Top-k, softmax, top-p, and a draw. -/
def drawToken (p : SampleParams K) (scored : List (K × Int)) (rng : G) : Int × G :=
  let scored :=
    if 0 < p.topK ∧ p.topK.toNat < scored.length then (lib.nthElement p.topK.toNat scored).take p.topK.toNat else scored
  let maxV := (maxElement scored).1
  let scored := scored.map fun s => (lib.exp (s.1 - maxV), s.2)
  let sum : K := (scored.map (·.1)).foldl (· + ·) 0
  if ¬ 0 < sum then ((maxElement scored).2, rng)
  else
    let scored := scored.map fun s => (s.1 / sum, s.2)
    let scored :=
      if 0 < p.topP ∧ p.topP < 1 - 1 / 1000000 then
        let kept := nucleus p.topP 0 (lib.sortDown scored)
        let renorm : K := (kept.map (·.1)).foldl (· + ·) 0
        if 0 < renorm then kept.map fun s => (s.1 / renorm, s.2) else kept
      else scored
    let (r, rng) := lib.uniform rng
    (pick r 0 scored, rng)

def sampleTokenF32 (row : List K) (p : SampleParams K) (history : List Int) (rng : G) : Result (Int × G) :=
  if row.length = 0 then fail .invalidArgument "sample_token empty vocab"
  else if p.greedy then .ok (greedyToken (penalized row p history) row.length, rng)
  else
    let invT := 1 / max p.temperature (1 / 100000)
    .ok (drawToken lib p ((List.range row.length).map fun i => (penalized row p history i * invT, (i : Int))) rng)

/-- A score after the penalty and the temperature. -/
def score (row : List K) (p : SampleParams K) (history : List Int) (t : Int) : K :=
  penalized row p history t.toNat * (1 / max p.temperature (1 / 100000))

/-- Where the nucleus is cut. -/
abbrev cuts (p : SampleParams K) : Prop := 0 < p.topP ∧ p.topP < 1 - 1 / 1000000

omit [Field K] in
theorem greedyToken_succ (v : Nat → K) (n : Nat) :
    greedyToken v (n + 1) = if v (greedyToken v n) < v n then n else greedyToken v n := by
  unfold greedyToken
  rw [List.range_succ, List.foldl_append]
  rfl

omit [Field K] in
theorem greedyToken_lt (v : Nat → K) (n : Nat) : greedyToken v (n + 1) < n + 1 := by
  induction n with
  | zero =>
    rw [greedyToken_succ]
    split <;> exact Nat.zero_lt_one
  | succ n ih =>
    rw [greedyToken_succ]
    split
    · exact Nat.lt_succ_self _
    · exact Nat.lt_succ_of_lt ih

omit [Field K] in
theorem greedyToken_largest (v : Nat → K) (n : Nat) :
    (∀ i < n, v i ≤ v (greedyToken v n)) ∧ (∀ i < greedyToken v n, v i < v (greedyToken v n)) := by
  induction n with
  | zero => exact ⟨by simp, by simp [greedyToken]⟩
  | succ n ih =>
    obtain ⟨hle, hlt⟩ := ih
    rw [greedyToken_succ]
    by_cases hnew : v (greedyToken v n) < v n
    · rw [if_pos hnew]
      refine ⟨fun i hi => ?_, fun i hi => lt_of_le_of_lt (hle i hi) hnew⟩
      rcases Nat.lt_succ_iff_lt_or_eq.mp hi with hi | rfl
      · exact le_of_lt (lt_of_le_of_lt (hle i hi) hnew)
      · exact le_refl _
    · rw [if_neg hnew]
      refine ⟨fun i hi => ?_, hlt⟩
      rcases Nat.lt_succ_iff_lt_or_eq.mp hi with hi | rfl
      · exact hle i hi
      · exact not_lt.mp hnew

end Sampling

end Uaii.Runtime
