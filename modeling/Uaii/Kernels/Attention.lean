/-
  Uaii.Kernels.Attention — `attention_kv_f32` and `attention_f32`
  (`libs/uaii-kernels/src/transformer.cpp`).

  Numbers are exact; `exp`, `tanh` and `sqrt` are parameters. The score `-1e9` of a masked
  position has the weight 0. The outputs `present_k` and `present_v`, null wherever there is
  a cache, are those of `Uaii.Kernels.Present`.

  Proved: under the causal mask a row of the output depends on the positions up to its own
  only (`attnRow_causal`).
-/

import Uaii.Kernels.QuantGemm
import Uaii.Lib.Lists
import Uaii.Lib.Softmax

namespace Uaii.Kernels

open Softmax

variable {K : Type}

/-! ## Shapes -/

structure AttnShape where
  batch : Int
  seq : Int
  dim : Int

def parseAttnShape (t : TensorView K) (name : String) : Result AttnShape :=
  if t.dtype ≠ .f32 ∨ t.data.isNone then fail .invalidArgument (name ++ " f32 required")
  else
    match t.shape with
    | [batch, dim] => .ok ⟨batch, 1, dim⟩
    | [batch, seq, dim] => .ok ⟨batch, seq, dim⟩
    | _ => fail .invalidArgument (name ++ " expects [batch,seq,dim] or [batch,dim]")

/-- The heads of Q, and those of K and V that they share. -/
structure AttnHeads where
  numHeads : Nat
  headDim : Nat
  kvHeads : Nat
  vHeadDim : Nat

/-- The checks on the heads. -/
def attnHeads (numHeads qDim kDim vDim outDim : Int) : Result AttnHeads :=
  if numHeads ≤ 0 ∨ qDim.tmod numHeads ≠ 0 then fail .invalidArgument "invalid num_heads"
  else
    let headDim := qDim.tdiv numHeads
    if kDim.tmod headDim ≠ 0 then fail .invalidArgument "k_dim not divisible by head_dim"
    else
      -- `static_cast<int>`
      let kvHeads := (kDim.tdiv headDim).bmod (2 ^ 32)
      if kvHeads ≤ 0 ∨ numHeads.tmod kvHeads ≠ 0 then fail .invalidArgument "invalid GQA head grouping"
      else if vDim.tmod kvHeads ≠ 0 then fail .invalidArgument "v_dim not divisible by kv_heads"
      else
        let vHeadDim := vDim.tdiv kvHeads
        if outDim ≠ numHeads * vHeadDim then fail .invalidArgument "attention out dim mismatch"
        else .ok ⟨numHeads.toNat, headDim.toNat, kvHeads.toNat, vHeadDim.toNat⟩

/-- The number of past positions. -/
def attnPast (batch kDim vDim : Int) (pastK pastV : Option (TensorView K)) : Result Int :=
  match pastK, pastV with
  | none, none => .ok 0
  | some pk, some pv =>
    if pk.data.isNone ∨ pv.data.isNone then fail .invalidArgument "attention past_k/past_v incomplete"
    else do
      let pks ← parseAttnShape pk "past_k"
      let pvs ← parseAttnShape pv "past_v"
      if pks.batch ≠ batch ∨ pvs.batch ≠ batch ∨ pks.dim ≠ kDim ∨ pvs.dim ≠ vDim ∨ pks.seq ≠ pvs.seq then
        fail .invalidArgument "attention past shape mismatch"
      else do
        checkViewBytes pk "past_k"
        checkViewBytes pv "past_v"
        .ok pks.seq
  | _, _ => fail .invalidArgument "attention past_k/past_v incomplete"

/-! ## One row of the output -/

/-- The operator's attributes. -/
structure AttnParams (K : Type) where
  numHeads : Int
  scale : K
  causal : Bool
  logitSoftcap : K
  slidingWindow : Int

section Row

variable [Field K] [LinearOrder K] (exp tanh sqrt : K → K) (p : AttnParams K) (hd : AttnHeads)

/-- `scale`, or one over the root of the head's width. -/
def attnScale : K := if p.scale ≤ 0 then 1 / sqrt hd.headDim else p.scale

def attnMasked (i j : Nat) : Bool := (p.causal && i < j) || (0 < p.slidingWindow && (j : Int) + p.slidingWindow ≤ i)

/-- Position `j`'s score for the query `q` at position `i`. -/
def attnScore (i : Nat) (q : Nat → K) (k : Nat → Nat → K) (j : Nat) : Option K :=
  if attnMasked p i j then none
  else
    let dot := ((List.range hd.headDim).map fun d => q d * k j d).sum * attnScale sqrt p hd
    some (if 0 < p.logitSoftcap then p.logitSoftcap * tanh (dot / p.logitSoftcap) else dot)

/-- The output at position `i`, head after head; `k j` and `v j` are the rows of position `j`. -/
def attnRow (kvSeq i : Nat) (q : Nat → K) (k v : Nat → Nat → K) : List K :=
  (List.range hd.numHeads).flatMap fun h =>
    let kvH := h / (hd.numHeads / hd.kvHeads)
    let scores := (List.range kvSeq).map
      (attnScore tanh sqrt p hd i (fun d => q (h * hd.headDim + d)) fun j d => k j (kvH * hd.headDim + d))
    (List.range hd.vHeadDim).map fun d => mix exp scores fun j => v j (kvH * hd.vHeadDim + d)

/-- `k_at` and `v_at`: position `j` of batch row `b`, from the past or from what is new. -/
def attnAt (past newSeq dim : Nat) (pastX x : List K) (b j d : Nat) : K :=
  if j < past then pastX.getD ((b * past + j) * dim + d) 0 else x.getD ((b * newSeq + (j - past)) * dim + d) 0

/-- The floats of a view that the kernel reads are there. -/
def readsAttn (t : TensorView K) (s : AttnShape) : Bool := (s.batch * s.seq * s.dim).toNat ≤ t.f32.length

/-- The views that the kernel reads past, as null pointers or not. -/
def pastWords (t : Option (TensorView K)) : List K := (t.map (·.f32)).getD []

def attentionKvF32 (q k v out : TensorView K) (pastK pastV : Option (TensorView K)) : Result (List K) := do
  let qs ← parseAttnShape q "attn_q"
  let ks ← parseAttnShape k "attn_k"
  let vs ← parseAttnShape v "attn_v"
  let os ← parseAttnShape out "attn_out"
  checkViewBytes q "attn_q"
  checkViewBytes k "attn_k"
  checkViewBytes v "attn_v"
  checkViewBytes out "attn_out"
  if qs.batch ≠ ks.batch ∨ qs.batch ≠ vs.batch ∨ qs.batch ≠ os.batch ∨ qs.seq ≠ os.seq ∨ ks.seq ≠ vs.seq ∨ qs.seq ≠ ks.seq then
    fail .invalidArgument "attention shape mismatch"
  else do
    let hd ← attnHeads p.numHeads qs.dim ks.dim vs.dim os.dim
    let past ← attnPast qs.batch ks.dim vs.dim pastK pastV
    if !(readsAttn q qs && readsAttn k ks && readsAttn v vs && readsAttn out os &&
        (qs.batch * past * ks.dim).toNat ≤ (pastWords pastK).length && (qs.batch * past * vs.dim).toNat ≤ (pastWords pastV).length) then
      .error (.undefined "read past a view")
    else
      .ok ((List.range qs.batch.toNat).flatMap fun b => (List.range qs.seq.toNat).flatMap fun i =>
        attnRow exp tanh sqrt p hd (past.toNat + qs.seq.toNat) (past.toNat + i)
          (fun d => q.f32.getD ((b * qs.seq.toNat + i) * qs.dim.toNat + d) 0)
          (attnAt past.toNat ks.seq.toNat ks.dim.toNat (pastWords pastK) k.f32 b)
          (attnAt past.toNat vs.seq.toNat vs.dim.toNat (pastWords pastV) v.f32 b))

def attentionF32 (q k v out : TensorView K) : Result (List K) := attentionKvF32 exp tanh sqrt p q k v out none none

/-! ## What a row depends on -/

variable {p hd}

theorem attnScore_later (hcausal : p.causal = true) {i j : Nat} (hj : i < j) (q : Nat → K) (k : Nat → Nat → K) :
    attnScore tanh sqrt p hd i q k j = none := by
  simp [attnScore, attnMasked, hcausal, hj]

/-- Positions after its own change nothing in a row. -/
theorem attnRow_causal (hcausal : p.causal = true) (i m : Nat) (q : Nat → K) (k v : Nat → Nat → K) :
    attnRow exp tanh sqrt p hd (i + 1 + m) i q k v = attnRow exp tanh sqrt p hd (i + 1) i q k v := by
  unfold attnRow
  refine List.flatMap_congr fun h _ => ?_
  have hlater : ∀ (q : Nat → K) (k : Nat → Nat → K), (List.range (i + 1 + m)).map (attnScore tanh sqrt p hd i q k) =
      (List.range (i + 1)).map (attnScore tanh sqrt p hd i q k) ++ List.replicate m none := by
    intro q k
    rw [List.range_add, List.map_append, List.map_map]
    congr 1
    refine List.eq_replicate_iff.mpr ⟨by simp, fun s hs => ?_⟩
    rcases List.mem_map.mp hs with ⟨x, -, rfl⟩
    exact attnScore_later tanh sqrt hcausal (show i < i + 1 + x by omega) q k
  simp only [hlater, mix_append_masked]

theorem attnRow_length (n i : Nat) (q : Nat → K) (k v : Nat → Nat → K) :
    (attnRow exp tanh sqrt p hd n i q k v).length = hd.numHeads * hd.vHeadDim := by
  refine Lists.length_flatMap_range fun h _ => ?_
  simp

/-- The heads lie within the rows. -/
structure HeadsFit (hd : AttnHeads) (qDim kDim vDim : Nat) : Prop where
  kvHeads : 0 < hd.kvHeads
  grouped : hd.kvHeads ∣ hd.numHeads
  q : hd.numHeads * hd.headDim ≤ qDim
  k : hd.kvHeads * hd.headDim ≤ kDim
  v : hd.kvHeads * hd.vHeadDim ≤ vDim

/-- Element `d` of head `h`. -/
theorem head_lt {heads width dim h d : Nat} (hfit : heads * width ≤ dim) (hh : h < heads) (hd : d < width) : h * width + d < dim := by
  have hle : (h + 1) * width ≤ heads * width := Nat.mul_le_mul_right _ hh
  rw [Nat.add_mul] at hle
  omega

theorem HeadsFit.kv_lt {qDim kDim vDim : Nat} (hfit : HeadsFit hd qDim kDim vDim) {h : Nat} (hh : h < hd.numHeads) :
    h / (hd.numHeads / hd.kvHeads) < hd.kvHeads := by
  rcases hfit.grouped with ⟨g, hg⟩
  have hkv := hfit.kvHeads
  have hpos : 0 < g := Nat.pos_of_ne_zero fun h0 => by simp [hg, h0] at hh
  rw [hg, Nat.mul_div_cancel_left g hkv, Nat.div_lt_iff_lt_mul hpos, ← hg]
  exact hh

/-- Only the row's query and the rows of its positions matter. -/
theorem attnRow_congr {qDim kDim vDim : Nat} (hfit : HeadsFit hd qDim kDim vDim) {n i : Nat} {q q' : Nat → K}
    {k k' v v' : Nat → Nat → K} (hq : ∀ d < qDim, q d = q' d) (hk : ∀ j < n, ∀ d < kDim, k j d = k' j d)
    (hv : ∀ j < n, ∀ d < vDim, v j d = v' j d) :
    attnRow exp tanh sqrt p hd n i q k v = attnRow exp tanh sqrt p hd n i q' k' v' := by
  unfold attnRow
  refine List.flatMap_congr fun h hh => ?_
  rw [List.mem_range] at hh
  have hkv := hfit.kv_lt hh
  have hscores : (List.range n).map (attnScore tanh sqrt p hd i (fun d => q (h * hd.headDim + d)) fun j d =>
        k j (h / (hd.numHeads / hd.kvHeads) * hd.headDim + d)) =
      (List.range n).map (attnScore tanh sqrt p hd i (fun d => q' (h * hd.headDim + d)) fun j d =>
        k' j (h / (hd.numHeads / hd.kvHeads) * hd.headDim + d)) := by
    refine List.map_congr_left fun j hj => ?_
    rw [List.mem_range] at hj
    unfold attnScore
    have hdot : (List.range hd.headDim).map (fun d => q (h * hd.headDim + d) *
          k j (h / (hd.numHeads / hd.kvHeads) * hd.headDim + d)) =
        (List.range hd.headDim).map fun d => q' (h * hd.headDim + d) *
          k' j (h / (hd.numHeads / hd.kvHeads) * hd.headDim + d) := by
      refine List.map_congr_left fun d hd' => ?_
      rw [List.mem_range] at hd'
      rw [hq _ (head_lt hfit.q hh hd'), hk j hj _ (head_lt hfit.k hkv hd')]
    rw [hdot]
  dsimp only
  rw [hscores]
  refine List.map_congr_left fun d hd' => mix_congr exp fun j hj => ?_
  rw [List.mem_range] at hd'
  rw [List.length_map, List.length_range] at hj
  exact hv j hj _ (head_lt hfit.v hkv hd')

end Row

/-! ## What the checks say -/

/-- `static_cast<int>` of a positive number, where it stays positive. -/
theorem bmod_le {n : Nat} (h : 0 < (n : Int).bmod (2 ^ 32)) : ((n : Int).bmod (2 ^ 32)).toNat ≤ n := by
  unfold Int.bmod at *
  have hmod : ((n : Int) % (2 ^ 32 : Nat)) ≤ n := by
    rw [← Int.natCast_mod]
    exact_mod_cast Nat.mod_le n _
  dsimp only at *
  split at * <;> omega

theorem mod_of_tmod {m n : Nat} (h : (m : Int).tmod n = 0) : m % n = 0 := by
  rw [Int.tmod_eq_emod_of_nonneg (Int.natCast_nonneg m)] at h
  exact_mod_cast h

theorem attnHeads_fit {numHeads outDim : Int} {qDim kDim vDim : Nat} {hd : AttnHeads}
    (h : attnHeads numHeads qDim kDim vDim outDim = .ok hd) :
    HeadsFit hd qDim kDim vDim ∧ outDim = (hd.numHeads * hd.vHeadDim : Nat) := by
  unfold attnHeads at h
  split at h
  · exact absurd h (fail_ne_ok _ _ _)
  next hnum =>
  rw [not_or, not_le, not_not] at hnum
  obtain ⟨n, rfl⟩ := Int.eq_ofNat_of_zero_le (Int.le_of_lt hnum.1)
  have hqn : n * (qDim / n) = qDim := Nat.mul_div_cancel' (Nat.dvd_of_mod_eq_zero (mod_of_tmod hnum.2))
  have hdim : (qDim : Int).tdiv n = (qDim / n : Nat) := by simp
  rw [hdim] at h
  dsimp only at h
  split at h
  · exact absurd h (fail_ne_ok _ _ _)
  split at h
  · exact absurd h (fail_ne_ok _ _ _)
  next hkv =>
  rw [not_or, not_le, not_not] at hkv
  have hdiv : (kDim : Int).tdiv (qDim / n : Nat) = (kDim / (qDim / n) : Nat) := by simp
  rw [hdiv] at h hkv
  have hle := bmod_le hkv.1
  obtain ⟨m, hm⟩ := Int.eq_ofNat_of_zero_le (Int.le_of_lt hkv.1)
  rw [hm] at h hkv hle
  split at h
  · exact absurd h (fail_ne_ok _ _ _)
  next hvm =>
  rw [not_not] at hvm
  have hvdim : (vDim : Int).tdiv m = (vDim / m : Nat) := by simp
  rw [hvdim] at h
  split at h
  · exact absurd h (fail_ne_ok _ _ _)
  next hout =>
  rw [not_not] at hout
  cases h
  refine ⟨⟨?_, ?_, ?_, ?_, ?_⟩, ?_⟩
  · exact_mod_cast hkv.1
  · exact Nat.dvd_of_mod_eq_zero (mod_of_tmod hkv.2)
  · simp only [Int.toNat_natCast]
    exact Nat.le_of_eq hqn
  · simp only [Int.toNat_natCast] at hle ⊢
    exact (Nat.mul_le_mul_right _ hle).trans (Nat.div_mul_le_self _ _)
  · simp only [Int.toNat_natCast]
    exact Nat.mul_div_le vDim m
  · rw [hout, Int.toNat_natCast, Int.toNat_natCast]
    exact_mod_cast rfl

/-- A view of `B` times `S` rows of `D` floats, in memory that a `size_t` can count. -/
structure FloatView (B S D : Nat) (t : TensorView K) : Prop where
  dtype : t.dtype = .f32
  shape : t.shape = [(B : Int), S, D] ∨ S = 1 ∧ t.shape = [(B : Int), D]
  data : t.data.isSome
  length : B * S * D ≤ t.f32.length
  size : 4 * (B * S * D) < 2 ^ 64

theorem parseAttnShape_view {B S D : Nat} {t : TensorView K} (h : FloatView B S D t) (name : String) :
    parseAttnShape t name = .ok ⟨B, S, D⟩ := by
  have hdata : t.data.isNone = false := by simpa using h.data
  unfold parseAttnShape
  rw [if_neg (by simp [h.dtype, hdata])]
  rcases h.shape with hs | ⟨hone, hs⟩
  · rw [hs]
  · rw [hs, hone]
    rfl

theorem numel_view {B S D : Nat} {t : TensorView K} (h : FloatView B S D t) (hpos : 0 < B * S * D) : t.numel = B * S * D := by
  have hsize := h.size
  have hBS : B * S ≤ B * S * D := Nat.le_mul_of_pos_right _ (Nat.pos_of_mul_pos_left hpos)
  have hB : B ≤ B * S := Nat.le_mul_of_pos_right _ (Nat.pos_of_mul_pos_left (Nat.pos_of_mul_pos_right hpos))
  have hw : ∀ n, n ≤ B * S * D → wrap64 n = n := fun n hn => wrap64_of_lt (by omega)
  rcases h.shape with hs | ⟨rfl, hs⟩
  · simp [TensorView.numel, hs, hw B (by omega), hw _ hBS, hw _ (Nat.le_refl _)]
  · rw [Nat.mul_one] at hw ⊢
    rw [Nat.mul_one] at hBS
    simp [TensorView.numel, hs, hw B hBS, hw _ (Nat.le_refl _)]

theorem checkViewBytes_view {B S D : Nat} {t : TensorView K} (h : FloatView B S D t) (hpos : 0 < B * S * D) (name : String) :
    checkViewBytes t name = .ok () := by
  rcases Option.isSome_iff_exists.mp h.data with ⟨words, hwords⟩
  have hlen := h.length
  have hsize := h.size
  have helem : Ir.dtypeSizeBytes t.dtype = 4 := by rw [h.dtype]; rfl
  simp only [TensorView.f32, hwords, Option.getD_some] at hlen
  have hneed : wrap64 (B * S * D * 4) = B * S * D * 4 := wrap64_of_lt (by omega)
  simp only [checkViewBytes, hwords, numel_view h hpos, helem, hneed]
  rw [if_neg (by decide), if_neg (by omega), if_neg (by omega)]

theorem attnPast_none {B kD vD : Nat} : attnPast (K := K) B kD vD none none = .ok ((0 : Nat) : Int) := rfl

theorem attnPast_view {B past kD vD : Nat} {pk pv : TensorView K} (hpk : FloatView B past kD pk) (hpv : FloatView B past vD pv)
    (hpos : 0 < B * past * kD ∧ 0 < B * past * vD) : attnPast B kD vD (some pk) (some pv) = .ok (past : Int) := by
  have hk : pk.data.isNone = false := by simpa using hpk.data
  have hv : pv.data.isNone = false := by simpa using hpv.data
  simp only [attnPast, hk, hv, Bool.false_eq_true, or_self, if_false, parseAttnShape_view hpk, parseAttnShape_view hpv, ok_bind,
    ne_eq, not_true_eq_false, checkViewBytes_view hpk hpos.1, checkViewBytes_view hpv hpos.2]

section Call

variable [Field K] [LinearOrder K] (exp tanh sqrt : K → K) {p : AttnParams K} {hd : AttnHeads} {B S qD kD vD oD past : Nat}
  {q k v out : TensorView K} {pastK pastV : Option (TensorView K)}

/-- A call on views that fit together. -/
theorem attentionKvF32_view (hq : FloatView B S qD q) (hk : FloatView B S kD k) (hv : FloatView B S vD v)
    (ho : FloatView B S oD out) (hpos : 0 < B * S * qD ∧ 0 < B * S * kD ∧ 0 < B * S * vD ∧ 0 < B * S * oD)
    (hheads : attnHeads p.numHeads qD kD vD oD = .ok hd) (hpast : attnPast B kD vD pastK pastV = .ok (past : Int))
    (hpk : B * past * kD ≤ (pastWords pastK).length) (hpv : B * past * vD ≤ (pastWords pastV).length) :
    attentionKvF32 exp tanh sqrt p q k v out pastK pastV =
      .ok ((List.range B).flatMap fun b => (List.range S).flatMap fun i =>
        attnRow exp tanh sqrt p hd (past + S) (past + i) (fun d => q.f32.getD ((b * S + i) * qD + d) 0)
          (attnAt past S kD (pastWords pastK) k.f32 b) (attnAt past S vD (pastWords pastV) v.f32 b)) := by
  have hreads : ∀ {D : Nat} {t : TensorView K}, FloatView B S D t → readsAttn t ⟨B, S, D⟩ = true := by
    intro D t h
    simp only [readsAttn, ← Int.natCast_mul, Int.toNat_natCast, decide_eq_true_eq]
    exact h.length
  have hpast' : ∀ D : Nat, ((B : Int) * past * D).toNat = B * past * D := by
    intro D
    rw [← Int.natCast_mul, ← Int.natCast_mul, Int.toNat_natCast]
  simp only [attentionKvF32, parseAttnShape_view hq, parseAttnShape_view hk, parseAttnShape_view hv, parseAttnShape_view ho,
    checkViewBytes_view hq hpos.1, checkViewBytes_view hk hpos.2.1, checkViewBytes_view hv hpos.2.2.1,
    checkViewBytes_view ho hpos.2.2.2, ok_bind, ne_eq, not_true_eq_false, or_self, if_false, hheads, hpast, hreads hq, hreads hk,
    hreads hv, hreads ho, hpast', hpk, hpv, decide_true, Bool.and_self, Bool.not_true, Bool.false_eq_true, Int.toNat_natCast]

end Call

end Uaii.Kernels
