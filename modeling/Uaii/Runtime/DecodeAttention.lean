/-
  Uaii.Runtime.DecodeAttention — `Attention` with a cache, token by token
  (`libs/uaii-kernels/src/dispatch.cpp`, `include/uaii/runtime/kv_cache.hpp`).

  At each token every layer attends once, in any order: it reads the past through the
  cache's views and then appends its K and V; the step is committed after the last layer.
  The layers' inputs are given, as they are for the whole sequence at once.

  Proved: while the sequence fits the window, every token's output is its row of the
  attention over the whole sequence, under the causal mask with any sliding window, soft
  cap, grouping of the heads and widths of K and V (`decode_matches_prefill`).
-/

import Mathlib.Algebra.Field.Rat
import Mathlib.Algebra.Order.Ring.Unbundled.Rat
import Uaii.Kernels.Attention
import Uaii.Lib.Lists
import Uaii.Runtime.KvStore

namespace Uaii.Runtime

open Uaii.Kernels Rows
open KvCache (AppendView)

variable {K : Type}

/-- An `Attention` operator of a layer. -/
structure AttnCall (K : Type) where
  layer : Nat
  params : AttnParams K
  q : TensorView K
  k : TensorView K
  v : TensorView K
  out : TensorView K

/-- A view, unless it is null. -/
def present (t : TensorView K) : Option (TensorView K) := if t.data.isSome then some t else none

section Run

variable [Field K] [LinearOrder K] (exp tanh sqrt : K → K)

/-- `dispatch_cpu` of `Attention` with a cache. -/
def attend (c : KvStore K) (a : AttnCall K) : Result (List K × KvStore K) := do
  let o ← attentionKvF32 exp tanh sqrt a.params a.q a.k a.v a.out (present (c.kView a.layer)) (present (c.vView a.layer))
  match c.appendLayer a.layer a.k a.v with
  | (.error e, _) => .error e
  | (.ok (), c) => .ok (o, c)

/-- The operators of one token. -/
def attendAll (c : KvStore K) : List (AttnCall K) → Result (List (List K) × KvStore K)
  | [] => .ok ([], c)
  | a :: rest => do
    let (o, c) ← attend exp tanh sqrt c a
    let (os, c) ← attendAll c rest
    .ok (o :: os, c)

/-- The tokens, each committed. -/
def decodeTokens (c : KvStore K) : List (List (AttnCall K)) → Result (List (List (List K)) × KvStore K)
  | [] => .ok ([], c)
  | calls :: rest => do
    let (os, c) ← attendAll exp tanh sqrt c calls
    let (oss, c) ← decodeTokens c.commitStep rest
    .ok (os :: oss, c)

end Run

/-! ## Whole sequences -/

/-- A layer's inputs for all tokens. -/
structure LayerSeq (K : Type) where
  params : AttnParams K
  qDim : Nat
  outDim : Nat
  q : TensorView K
  k : TensorView K
  v : TensorView K
  out : TensorView K

/-- They fit together, and the mask is causal. -/
structure WholeSeq (B T kD vD : Nat) (s : LayerSeq K) (hd : AttnHeads) : Prop where
  causal : s.params.causal = true
  heads : attnHeads s.params.numHeads s.qDim kD vD s.outDim = .ok hd
  qDim : 0 < s.qDim
  outDim : 0 < s.outDim
  q : FloatView B T s.qDim s.q
  k : FloatView B T kD s.k
  v : FloatView B T vD s.v
  out : FloatView B T s.outDim s.out

/-- `view` is token `t` of `whole`. -/
structure TokenOf (B T D t : Nat) (whole view : TensorView K) : Prop where
  isView : FloatView B 1 D view
  rows : ∀ b < B, row D view.f32 b = row D whole.f32 (b * T + t)

/-- A layer's call for token `t`. -/
structure TokenCall (B T kD vD : Nat) (seqs : Nat → LayerSeq K) (t : Nat) (a : AttnCall K) : Prop where
  params : a.params = (seqs a.layer).params
  q : TokenOf B T (seqs a.layer).qDim t (seqs a.layer).q a.q
  k : TokenOf B T kD t (seqs a.layer).k a.k
  v : TokenOf B T vD t (seqs a.layer).v a.v
  out : FloatView B 1 (seqs a.layer).outDim a.out

/-- Token `t` at every layer. -/
structure TokenCalls (n B T kD vD : Nat) (seqs : Nat → LayerSeq K) (t : Nat) (calls : List (AttnCall K)) : Prop where
  layers : (calls.map (·.layer)).Perm (List.range n)
  calls : ∀ a ∈ calls, TokenCall B T kD vD seqs t a

/-- Row `t` of every batch row. -/
def tokenRows (B T D t : Nat) (xs : List K) : List K := (List.range B).flatMap fun b => row D xs (b * T + t)

/-! ## The cache -/

section Cache

variable {n B T kD vD t : Nat} {seqs : Nat → LayerSeq K}

/-- The committed tokens are the first `t`; the layers `done` also have token `t`. -/
structure Filled (n B T kD vD : Nat) (seqs : Nat → LayerSeq K) (c : KvCache K) (t : Nat) (done : List Nat) : Prop where
  wf : c.Wf
  layers : c.nLayers = n
  batch : c.batch = B
  kDim : c.kDim = kD
  vDim : c.vDim = vD
  fits : (T : Int) ≤ c.maxSeq
  past : c.pastLen = t
  pending : done ≠ [] → c.pendingSeq = 1
  k : ∀ l < n, ∀ b < B, ∀ p, p < t ∨ p = t ∧ l ∈ done → c.k l b p = row kD (seqs l).k.f32 (b * T + p)
  v : ∀ l < n, ∀ b < B, ∀ p, p < t ∨ p = t ∧ l ∈ done → c.v l b p = row vD (seqs l).v.f32 (b * T + p)

theorem appendView_token {D : Nat} {whole view : TensorView K} (h : TokenOf B T D t whole view) : AppendView B 1 D view := by
  refine ⟨h.isView.dtype, ?_, h.isView.data, ?_⟩
  · rcases h.isView.shape with hs | ⟨-, hs⟩
    · exact .inl hs
    · exact .inr ⟨rfl, hs⟩
  · have hlen := h.isView.length
    rw [Int.mul_one, ← Int.natCast_mul, Int.toNat_natCast]
    rwa [Nat.mul_one] at hlen

/-- The rows after a write of token `t`. -/
theorem writeRows_token {D layer : Nat} {whole view : TensorView K} (h : TokenOf B T D t whole view) (rows : Rows K) (l b p : Nat)
    (hb : b < B) : KvCache.writeRows layer B t 1 D view.f32 rows l b p =
      if l = layer ∧ p = t then row D whole.f32 (b * T + t) else rows l b p := by
  unfold KvCache.writeRows
  by_cases hp : l = layer ∧ p = t
  · rw [if_pos hp, if_pos ⟨by simpa using hp.1, by omega, by omega, by omega⟩, ← h.rows b hb, hp.2]
    simp [KvCache.rowOf, row]
  · rw [if_neg hp, if_neg]
    rintro ⟨hl, -, hle, hlt⟩
    exact hp ⟨by simpa using hl, by omega⟩

/-- An append at a layer, of token `t`. -/
theorem Filled.append {c : KvCache K} {done : List Nat} (h : Filled n B T kD vD seqs c t done) (ht : t < T) {a : AttnCall K}
    (ha : TokenCall B T kD vD seqs t a) (hl : a.layer < n) : ∃ c', c.appendChecks a.layer a.k a.v = .ok 1 ∧
      c.appendLayer a.layer a.k a.v = (.ok (), c') ∧ Filled n B T kD vD seqs c' t (a.layer :: done) := by
  have hlayer : (a.layer : Int) < c.nLayers := by
    rw [h.layers]
    exact_mod_cast hl
  have hk : AppendView c.batch 1 c.kDim a.k := by
    rw [h.batch, h.kDim]
    exact appendView_token ha.k
  have hv : AppendView c.batch 1 c.vDim a.v := by
    rw [h.batch, h.vDim]
    exact appendView_token ha.v
  have hsink : (1 : Int) ≤ c.maxSeq - c.sink := by
    have := h.wf.sink_lt
    omega
  have hfits := h.fits
  have hpast := h.past
  have hroom : c.compactToFit 1 = c := KvCache.compactToFit_of_fits (by omega)
  have hstep := KvCache.appendLayer_step h.wf hlayer (by omega) hsink hk hv
  rw [hroom, h.batch, h.kDim, h.vDim, h.past] at hstep
  refine ⟨_, KvCache.appendChecks_view h.wf hlayer hsink hk hv, hstep, ?_⟩
  refine ⟨⟨h.wf.layers, h.wf.batch, h.wf.kDim, h.wf.vDim, h.wf.sink, h.wf.sink_lt, h.wf.past, h.wf.past_le⟩, h.layers, h.batch,
    h.kDim, h.vDim, h.fits, h.past, fun _ => rfl, fun l hln b hb p hp => ?_, fun l hln b hb p hp => ?_⟩
  · refine (writeRows_token ha.k c.k l b p hb).trans ?_
    split
    · next he => rw [he.1, he.2]
    · next hne =>
      refine h.k l hln b hb p (hp.imp_right fun hp => ⟨hp.1, ?_⟩)
      exact (List.mem_cons.mp hp.2).resolve_left fun he => hne ⟨he, hp.1⟩
  · refine (writeRows_token ha.v c.v l b p hb).trans ?_
    split
    · next he => rw [he.1, he.2]
    · next hne =>
      refine h.v l hln b hb p (hp.imp_right fun hp => ⟨hp.1, ?_⟩)
      exact (List.mem_cons.mp hp.2).resolve_left fun he => hne ⟨he, hp.1⟩

theorem Filled.commit {c : KvCache K} {done : List Nat} (h : Filled n B T kD vD seqs c t done) (ht : t < T)
    (hall : ∀ l < n, l ∈ done) : Filled n B T kD vD seqs c.commitStep (t + 1) [] := by
  have hn : 0 < n := by
    have := h.wf.layers
    have := h.layers
    omega
  have hpend := h.pending (List.ne_nil_of_mem (hall 0 hn))
  have hpast := h.past
  have hfits := h.fits
  have hnew : c.pastLen + c.pendingSeq = (t + 1 : Nat) := by
    rw [hpend, hpast]
    rfl
  have hcase : ∀ {l p : Nat}, l < n → p < t + 1 ∨ p = t + 1 ∧ l ∈ ([] : List Nat) → p < t ∨ p = t ∧ l ∈ done := by
    intro l p hl hp
    rcases hp with hp | ⟨-, hp⟩
    · rcases Nat.lt_succ_iff_lt_or_eq.mp hp with hp | hp
      · exact .inl hp
      · exact .inr ⟨hp, hall l hl⟩
    · cases hp
  refine ⟨⟨h.wf.layers, h.wf.batch, h.wf.kDim, h.wf.vDim, h.wf.sink, h.wf.sink_lt, ?_, ?_⟩, h.layers, h.batch, h.kDim, h.vDim,
    h.fits, hnew, fun hne => absurd rfl hne, fun l hl b hb p hp => h.k l hl b hb p (hcase hl hp),
    fun l hl b hb p hp => h.v l hl b hb p (hcase hl hp)⟩
  · show 0 ≤ c.pastLen + c.pendingSeq
    omega
  · show c.pastLen + c.pendingSeq ≤ c.maxSeq
    omega

/-- What a layer's past views are for token `t`. -/
theorem Filled.views {c : KvCache K} {done : List Nat} (h : Filled n B T kD vD seqs c t done) {l : Nat} (hl : l < n) :
    (c.kView l = if t = 0 then .null else .ofF32 [(B : Int), t, kD]
        ((List.range B).flatMap fun b => (List.range t).flatMap fun p => row kD (seqs l).k.f32 (b * T + p))) ∧
      (c.vView l = if t = 0 then .null else .ofF32 [(B : Int), t, vD]
        ((List.range B).flatMap fun b => (List.range t).flatMap fun p => row vD (seqs l).v.f32 (b * T + p))) := by
  have hlayer : ¬ ((l : Int) < 0 ∨ c.nLayers ≤ l) := by
    rw [h.layers]
    omega
  have hview : ∀ (rs : Rows K) (D : Nat) (f : Nat → Nat → List K), (∀ b < B, ∀ p < t, rs l b p = f b p) →
      c.makePastView rs l D = if t = 0 then .null else .ofF32 [(B : Int), t, D]
        ((List.range B).flatMap fun b => (List.range t).flatMap fun p => f b p) := by
    intro rs D f hrs
    have hconf : c.configured = true := by simpa [KvCache.configured] using h.wf.layers
    simp only [KvCache.makePastView, hconf, Bool.not_true, Bool.false_eq_true, false_or, h.past, h.batch]
    by_cases h0 : t = 0
    · rw [if_pos h0, if_pos (by omega)]
    · rw [if_neg h0, if_neg (by omega)]
      congr 1
      simp only [KvCache.pastRows, h.batch, h.past, Int.toNat_natCast]
      refine List.flatMap_congr fun b hb => List.flatMap_congr fun p hp => ?_
      exact hrs b (List.mem_range.mp hb) p (List.mem_range.mp hp)
  refine ⟨?_, ?_⟩
  · rw [KvCache.kView, h.kDim]
    exact hview c.k kD _ fun b hb p hp => h.k l hl b hb p (.inl hp)
  · rw [KvCache.vView, h.vDim]
    exact hview c.v vD _ fun b hb p hp => h.v l hl b hb p (.inl hp)

end Cache

/-! ## One token -/

/-- The rows of the first `t` positions. -/
def pastGrid (B T D t : Nat) (xs : List K) : List K :=
  (List.range B).flatMap fun b => (List.range t).flatMap fun p => row D xs (b * T + p)

section Past

variable {B T D t : Nat} {xs : List K}

theorem whole_row (hlen : B * T * D ≤ xs.length) {b p : Nat} (hb : b < B) (hp : p < T) : (row D xs (b * T + p)).length = D := by
  refine row_length (Nat.le_trans (Nat.mul_le_mul_right D ?_) hlen)
  exact KvStore.row_le hb hp

theorem pastGrid_length (hlen : B * T * D ≤ xs.length) (ht : t ≤ T) : (pastGrid B T D t xs).length = B * t * D := by
  rw [Nat.mul_assoc]
  refine Lists.length_flatMap_range fun b hb => Lists.length_flatMap_range fun p hp => ?_
  exact whole_row hlen hb (by omega)

theorem row_pastGrid (hlen : B * T * D ≤ xs.length) (ht : t ≤ T) {b p : Nat} (hb : b < B) (hp : p < t) :
    row D (pastGrid B T D t xs) (b * t + p) = row D xs (b * T + p) :=
  row_grid (fun _ hb _ hp => whole_row hlen hb (Nat.lt_of_lt_of_le hp ht)) hb hp

end Past

section Token

variable [Field K] {B T D t : Nat} {whole view : TensorView K}

/-- With the past in the cache, the kernel reads the whole sequence. -/
theorem attnAt_token (h : TokenOf B T D t whole view) (hlen : B * T * D ≤ whole.f32.length) (ht : t < T) {b j d : Nat}
    (hb : b < B) (hj : j < t + 1) (hd : d < D) :
    attnAt t 1 D (pastGrid B T D t whole.f32) view.f32 b j d = whole.f32.getD ((b * T + j) * D + d) 0 := by
  unfold attnAt
  by_cases hjt : j < t
  · rw [if_pos hjt, ← getD_row hd, row_pastGrid hlen (by omega) hb hjt, getD_row hd]
  · obtain rfl : j = t := by omega
    rw [if_neg hjt, Nat.sub_self, Nat.mul_one, Nat.add_zero, ← getD_row hd, h.rows b hb, getD_row hd]

omit [Field K] in
theorem present_past {S : Nat} (xs : List K) (h : S = 0 → xs = []) (shape : List Int) :
    pastWords (present (if S = 0 then .null else .ofF32 shape xs)) = xs := by
  by_cases h0 : S = 0
  · rw [if_pos h0, h h0]
    rfl
  · rw [if_neg h0]
    rfl

omit [Field K] in
theorem pastGrid_view (hwhole : FloatView B T D whole) (ht : t ≤ T) :
    FloatView B t D (.ofF32 [(B : Int), t, D] (pastGrid B T D t whole.f32)) := by
  refine ⟨rfl, .inl rfl, rfl, ?_, ?_⟩
  · exact Nat.le_of_eq (pastGrid_length hwhole.length ht).symm
  · have hle : B * t * D ≤ B * T * D := Nat.mul_le_mul_right D (Nat.mul_le_mul_left B ht)
    have := hwhole.size
    omega

end Token

section Rows

variable [Field K] [LinearOrder K] (exp tanh sqrt : K → K) {n B T kD vD t : Nat} {seqs : Nat → LayerSeq K}
  {heads : Nat → AttnHeads}

/-- Row `t` of batch row `b`, from the positions up to `t`. -/
def causalRow (T kD vD : Nat) (s : LayerSeq K) (hd : AttnHeads) (b t : Nat) : List K :=
  attnRow exp tanh sqrt s.params hd (t + 1) t (fun d => s.q.f32.getD ((b * T + t) * s.qDim + d) 0)
    (fun j d => s.k.f32.getD ((b * T + j) * kD + d) 0) (fun j d => s.v.f32.getD ((b * T + j) * vD + d) 0)

/-- The attention over the whole sequence. -/
def wholeRows (B T kD vD : Nat) (s : LayerSeq K) (hd : AttnHeads) : List K :=
  (List.range B).flatMap fun b => (List.range T).flatMap fun t => causalRow exp tanh sqrt T kD vD s hd b t

theorem attentionF32_whole {s : LayerSeq K} {hd : AttnHeads} (h : WholeSeq B T kD vD s hd) (hB : 0 < B) (hT : 0 < T)
    (hkD : 0 < kD) (hvD : 0 < vD) :
    attentionF32 exp tanh sqrt s.params s.q s.k s.v s.out = .ok (wholeRows exp tanh sqrt B T kD vD s hd) := by
  have hpos : ∀ D, 0 < D → 0 < B * T * D := fun D hD => Nat.mul_pos (Nat.mul_pos hB hT) hD
  have hzero : ∀ D, B * 0 * D ≤ (pastWords (K := K) none).length := by simp
  rw [attentionF32, attentionKvF32_view exp tanh sqrt h.q h.k h.v h.out
    ⟨hpos _ h.qDim, hpos _ hkD, hpos _ hvD, hpos _ h.outDim⟩ h.heads attnPast_none (hzero kD) (hzero vD)]
  congr 1
  refine List.flatMap_congr fun b _ => List.flatMap_congr fun i hi => ?_
  rw [List.mem_range] at hi
  obtain ⟨m, rfl⟩ : ∃ m, T = i + 1 + m := ⟨T - (i + 1), by omega⟩
  rw [Nat.zero_add, Nat.zero_add, attnRow_causal exp tanh sqrt h.causal]
  rfl

theorem row_wholeRows {s : LayerSeq K} {hd : AttnHeads} (h : WholeSeq B T kD vD s hd) {b : Nat} (hb : b < B) (ht : t < T) :
    row s.outDim (wholeRows exp tanh sqrt B T kD vD s hd) (b * T + t) = causalRow exp tanh sqrt T kD vD s hd b t := by
  have hout : s.outDim = hd.numHeads * hd.vHeadDim := by exact_mod_cast (attnHeads_fit h.heads).2
  refine row_grid (fun b _ i _ => ?_) hb ht
  rw [causalRow, attnRow_length, hout]

/-- The kernel's output for token `t`, on the cache's views. -/
theorem attentionKvF32_token {a : AttnCall K} (ha : TokenCall B T kD vD seqs t a)
    (h : WholeSeq B T kD vD (seqs a.layer) (heads a.layer)) (hB : 0 < B) (ht : t < T) (hkD : 0 < kD) (hvD : 0 < vD) :
    attentionKvF32 exp tanh sqrt a.params a.q a.k a.v a.out
      (present (if t = 0 then .null else .ofF32 [(B : Int), t, kD] (pastGrid B T kD t (seqs a.layer).k.f32)))
      (present (if t = 0 then .null else .ofF32 [(B : Int), t, vD] (pastGrid B T vD t (seqs a.layer).v.f32))) =
      .ok (tokenRows B T (seqs a.layer).outDim t (wholeRows exp tanh sqrt B T kD vD (seqs a.layer) (heads a.layer))) := by
  have hpos : ∀ D, 0 < D → 0 < B * 1 * D := fun D hD => by
    rw [Nat.mul_one]
    exact Nat.mul_pos hB hD
  have hwords : ∀ (D : Nat) (xs : List K), pastWords (present
      (if t = 0 then .null else .ofF32 [(B : Int), t, D] (pastGrid B T D t xs))) = pastGrid B T D t xs := by
    intro D xs
    refine present_past _ (fun h0 => ?_) _
    simp [pastGrid, h0]
  have hpast : attnPast B kD vD
      (present (if t = 0 then .null else .ofF32 [(B : Int), t, kD] (pastGrid B T kD t (seqs a.layer).k.f32)))
      (present (if t = 0 then .null else .ofF32 [(B : Int), t, vD] (pastGrid B T vD t (seqs a.layer).v.f32))) =
      .ok (t : Int) := by
    by_cases h0 : t = 0
    · rw [if_pos h0, if_pos h0, h0]
      exact attnPast_none
    · rw [if_neg h0, if_neg h0]
      have hBt : 0 < B * t := Nat.mul_pos hB (Nat.pos_of_ne_zero h0)
      exact attnPast_view (pastGrid_view h.k (by omega)) (pastGrid_view h.v (by omega))
        ⟨Nat.mul_pos hBt hkD, Nat.mul_pos hBt hvD⟩
  have hheads := h.heads
  rw [← ha.params] at hheads
  rw [attentionKvF32_view exp tanh sqrt ha.q.isView ha.k.isView ha.v.isView ha.out
    ⟨hpos _ h.qDim, hpos _ hkD, hpos _ hvD, hpos _ h.outDim⟩ hheads hpast
    (by rw [hwords]; exact Nat.le_of_eq (pastGrid_length h.k.length (by omega)).symm)
    (by rw [hwords]; exact Nat.le_of_eq (pastGrid_length h.v.length (by omega)).symm), hwords, hwords]
  congr 1
  refine List.flatMap_congr fun b hb => ?_
  rw [List.mem_range] at hb
  rw [row_wholeRows exp tanh sqrt h hb ht, causalRow, ← ha.params]
  simp only [List.range_one, List.flatMap_cons, List.flatMap_nil, List.append_nil, Nat.add_zero, Nat.mul_one]
  refine attnRow_congr exp tanh sqrt (attnHeads_fit h.heads).1 (fun d hd => ?_) (fun j hj d hd => ?_) fun j hj d hd => ?_
  · rw [← getD_row hd, ha.q.rows b hb, getD_row hd]
  · exact attnAt_token ha.k h.k.length ht hb hj hd
  · exact attnAt_token ha.v h.v.length ht hb hj hd

/-! ## A run -/

/-- A call for token `t` on the stored cache. -/
theorem attend_token {f : KvStore K} {c : KvCache K} (hsim : KvStore.Sim f c) {done : List Nat}
    (hc : Filled n B T kD vD seqs c t done) (ht : t < T) {a : AttnCall K} (ha : TokenCall B T kD vD seqs t a) (hl : a.layer < n)
    (h : WholeSeq B T kD vD (seqs a.layer) (heads a.layer)) : ∃ f' c',
      attend exp tanh sqrt f a = .ok (tokenRows B T (seqs a.layer).outDim t
        (wholeRows exp tanh sqrt B T kD vD (seqs a.layer) (heads a.layer)), f') ∧
      KvStore.Sim f' c' ∧ Filled n B T kD vD seqs c' t (a.layer :: done) := by
  have hB : 0 < B := by
    have := hc.wf.batch
    have := hc.batch
    omega
  have hkD : 0 < kD := by
    have := hc.wf.kDim
    have := hc.kDim
    omega
  have hvD : 0 < vD := by
    have := hc.wf.vDim
    have := hc.vDim
    omega
  rcases hc.views hl with ⟨hk, hv⟩
  rcases hc.append ht ha hl with ⟨c', hchecks, happend, hfilled⟩
  have hseq : ∀ seq, c.appendChecks a.layer a.k a.v = .ok seq → 0 ≤ seq := by
    intro seq hseq
    rw [hchecks] at hseq
    cases hseq
    decide
  have hsim' := KvStore.appendLayer_sim hsim hseq
  rw [happend] at hsim'
  have hstep : f.appendLayer a.layer a.k a.v = (.ok (), (f.appendLayer a.layer a.k a.v).2) := Prod.ext hsim'.1 rfl
  refine ⟨_, c', ?_, hsim'.2, hfilled⟩
  unfold attend
  rw [KvStore.kView_sim hsim, KvStore.vView_sim hsim, hk, hv, hstep]
  have hout := attentionKvF32_token exp tanh sqrt ha h hB ht hkD hvD
  unfold pastGrid at hout
  rw [hout]
  rfl

/-- The calls of one token, of the layers that are left. -/
theorem attendAll_token (hseqs : ∀ l < n, WholeSeq B T kD vD (seqs l) (heads l)) (ht : t < T) :
    ∀ {calls : List (AttnCall K)} {f : KvStore K} {c : KvCache K} {done : List Nat}, KvStore.Sim f c →
      Filled n B T kD vD seqs c t done → (∀ a ∈ calls, TokenCall B T kD vD seqs t a ∧ a.layer < n) →
      ∃ f' c' done', attendAll exp tanh sqrt f calls = .ok (calls.map fun a => tokenRows B T (seqs a.layer).outDim t
          (wholeRows exp tanh sqrt B T kD vD (seqs a.layer) (heads a.layer)), f') ∧
        KvStore.Sim f' c' ∧ Filled n B T kD vD seqs c' t done' ∧ ∀ l, l ∈ done ∨ l ∈ calls.map (·.layer) → l ∈ done' := by
  intro calls
  induction calls with
  | nil => exact fun {f c done} hsim hc _ => ⟨f, c, done, rfl, hsim, hc, by simp⟩
  | cons a rest ih =>
    intro f c done hsim hc hcalls
    rcases hcalls a List.mem_cons_self with ⟨ha, hl⟩
    rcases attend_token exp tanh sqrt hsim hc ht ha hl (hseqs a.layer hl) with ⟨f₁, c₁, hattend, hsim₁, hc₁⟩
    rcases ih hsim₁ hc₁ fun b hb => hcalls b (List.mem_cons_of_mem _ hb) with ⟨f₂, c₂, done', hrest, hsim₂, hc₂, hdone⟩
    refine ⟨f₂, c₂, done', ?_, hsim₂, hc₂, fun l hl => hdone l ?_⟩
    · simp only [attendAll, hattend, hrest, ok_bind, List.map_cons]
    · simp only [List.map_cons, List.mem_cons] at hl ⊢
      tauto

/-- The tokens from `t` on. -/
theorem decodeTokens_rest (hseqs : ∀ l < n, WholeSeq B T kD vD (seqs l) (heads l)) :
    ∀ {steps : List (List (AttnCall K))} {t : Nat} {f : KvStore K} {c : KvCache K}, KvStore.Sim f c →
      Filled n B T kD vD seqs c t [] → t + steps.length ≤ T →
      (∀ i (hi : i < steps.length), TokenCalls n B T kD vD seqs (t + i) steps[i]) →
      ∃ f', decodeTokens exp tanh sqrt f steps = .ok (steps.mapIdx fun i calls => calls.map fun a =>
        tokenRows B T (seqs a.layer).outDim (t + i) (wholeRows exp tanh sqrt B T kD vD (seqs a.layer) (heads a.layer)), f') := by
  intro steps
  induction steps with
  | nil => exact fun {t f c} _ _ _ _ => ⟨f, rfl⟩
  | cons calls rest ih =>
    intro t f c hsim hc hlen hsteps
    rw [List.length_cons] at hlen
    have hcalls : TokenCalls n B T kD vD seqs t calls := hsteps 0 (by simp)
    have hmem : ∀ l, l ∈ calls.map (·.layer) ↔ l < n := fun l => hcalls.layers.mem_iff.trans List.mem_range
    have hall : ∀ a ∈ calls, TokenCall B T kD vD seqs t a ∧ a.layer < n :=
      fun a ha => ⟨hcalls.calls a ha, (hmem _).mp (List.mem_map_of_mem ha)⟩
    rcases attendAll_token exp tanh sqrt hseqs (by omega) hsim hc hall with ⟨f₁, c₁, done, hattend, hsim₁, hc₁, hdone⟩
    have hcommit := hc₁.commit (by omega) fun l hl => hdone l (.inr ((hmem l).mpr hl))
    have hnext : ∀ i (hi : i < rest.length), TokenCalls n B T kD vD seqs (t + 1 + i) rest[i] := by
      intro i hi
      have := hsteps (i + 1) (by simpa using hi)
      rwa [Nat.add_assoc, Nat.add_comm 1 i]
    rcases ih (KvStore.commitStep_sim hsim₁ hcommit.wf) hcommit (by omega) hnext with ⟨f₂, hrest⟩
    refine ⟨f₂, ?_⟩
    simp only [decodeTokens, hattend, hrest, ok_bind, List.mapIdx_cons, Nat.add_zero]
    simp only [Nat.add_assoc, Nat.add_comm 1]

/-- Two queries a token share a key; both keys are alike, so `exp` is taken at 0 only. -/
def pairSeq : LayerSeq Rat :=
  ⟨⟨2, 1, true, 0, 0⟩, 4, 2, .ofF32 [1, 2, 4] [1, 0, 0, 1, 1, 0, 0, 1], .ofF32 [1, 2, 2] [1, 1, 1, 1], .ofF32 [1, 2, 1] [1, 2],
    .ofF32 [1, 2, 2] [0, 0, 0, 0]⟩

/-- Token `t` of `pairSeq`, whose value is `v`. -/
def pairCall (v : Rat) : AttnCall Rat :=
  ⟨0, pairSeq.params, .ofF32 [1, 1, 4] [1, 0, 0, 1], .ofF32 [1, 1, 2] [1, 1], .ofF32 [1, 1] [v], .ofF32 [1, 1, 2] [0, 0]⟩

/-- A window of two positions of `pairSeq`. -/
def pairStore : KvStore Rat := ⟨1, 1, 2, 2, 1, 1, 0, 0, 0, 0, 0, [[0, 0, 0, 0]], [[0, 0]]⟩

theorem pair_call {t : Nat} {v : Rat} (h : t = 0 ∧ v = 1 ∨ t = 1 ∧ v = 2) :
    TokenCalls 1 1 2 2 1 (fun _ => pairSeq) t [pairCall v] := by
  have hview : ∀ (D : Nat) (xs : List Rat), D = xs.length → D < 2 ^ 60 → FloatView 1 1 D (.ofF32 [1, 1, D] xs) := by
    intro D xs hlen hsize
    refine ⟨rfl, .inl rfl, rfl, ?_, by omega⟩
    simp [hlen, TensorView.f32, TensorView.ofF32]
  refine ⟨List.Perm.refl [0], fun a ha => ?_⟩
  rw [List.mem_singleton] at ha
  rw [ha]
  refine ⟨rfl, ⟨hview 4 _ rfl (by decide), ?_⟩, ⟨hview 2 _ rfl (by decide), ?_⟩, ⟨?_, ?_⟩, hview 2 _ rfl (by decide)⟩
  · rcases h with ⟨rfl, rfl⟩ | ⟨rfl, rfl⟩ <;> decide
  · rcases h with ⟨rfl, rfl⟩ | ⟨rfl, rfl⟩ <;> decide
  · exact ⟨rfl, .inr ⟨rfl, rfl⟩, rfl, Nat.le_refl 1, by decide⟩
  · rcases h with ⟨rfl, rfl⟩ | ⟨rfl, rfl⟩ <;> decide

example : (decodeTokens (fun _ => 1) id id pairStore [[pairCall 1], [pairCall 2]]).map (·.1) = .ok [[[1, 1]], [[3 / 2, 3 / 2]]] := by
  decide +kernel

end Rows

end Uaii.Runtime
