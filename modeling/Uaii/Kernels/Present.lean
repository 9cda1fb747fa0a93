/-
  Uaii.Kernels.Present — the outputs `present_k` and `present_v` of `attention_kv_f32`
  (`libs/uaii-kernels/src/transformer.cpp`).

  They are written to buffers of their own, the past rows and then the new ones, or in
  place: where they point to the memory of `past_k` and `past_v`, only the new rows are
  written. A following call reads them as its past.

  Proved: separate buffers hold what that call reads (`concat_reads`), and for every layout
  of a call that succeeds, whatever its words: what is read next is the past and the new
  rows exactly when the buffers are separate or there is one batch row (`present_iff`).

  As built, the rows of a batch row are read at the stride of the past's length and, in
  place, written at that of the buffer's capacity; the past rows of the batch rows after
  the first stay where they were (`two_in_place_differ`).
-/

import Uaii.Kernels.Attention
import Uaii.Lib.Rows

namespace Uaii.Kernels

variable {K : Type}

/-! ## Writing the rows -/

/-- `memcpy` of `n` rows of `d` floats. -/
def copyRows (d : Nat) (dst : List K) (t : Nat) (src : List K) (s n : Nat) : Result (List K) :=
  if dst.length < (t + n) * d ∨ src.length < (s + n) * d then .error (.undefined "copy past a buffer")
  else .ok (Rows.blit dst (t * d) src (s * d) (n * d))

/-- Buffers of their own: the past rows and the new ones. -/
def concatPresent (batch past new d : Nat) (pastX x present : List K) : Result (List K) :=
  (List.range batch).foldlM (fun y b =>
    (if 0 < past then copyRows d y (b * (past + new)) pastX (b * past) past else .ok y) >>= fun y =>
      copyRows d y (b * (past + new) + past) x (b * new) new) present

/-- One batch row in place. -/
def appendRow (past new stride d : Nat) (x y : List K) (b : Nat) : Result (List K) :=
  (List.range new).foldlM (fun y s => copyRows d y (b * stride + past + s) x (b * new + s) 1) y

/-- In place: the new rows. -/
def appendPresent (batch past new stride d : Nat) (x present : List K) : Result (List K) :=
  (List.range batch).foldlM (appendRow past new stride d x) present

/-- The tensors of a call, and whether `present_k` and `present_v` point to `past_k` and `past_v`. -/
structure AttnViews (K : Type) where
  q : TensorView K
  k : TensorView K
  v : TensorView K
  out : TensorView K
  pastK : Option (TensorView K)
  pastV : Option (TensorView K)
  presentK : Option (TensorView K)
  presentV : Option (TensorView K)
  aliased : Bool

/-- The shapes of K and V, and the number of past positions. -/
structure KvShape where
  k : AttnShape
  v : AttnShape
  past : Int

/-- `stride_seq_k` and `stride_seq_v`. -/
def presentStride (inPlace : Bool) (batch kvSeq d : Nat) (present : TensorView K) : Result Nat :=
  if !inPlace then .ok kvSeq
  else if wrap64 (batch * d * 4) = 0 then .error (.undefined "division by zero")
  else .ok (4 * present.f32.length / wrap64 (batch * d * 4))

namespace AttnViews

variable (c : AttnViews K)

def inPlace : Bool := c.pastK.isSome && c.pastV.isSome && c.aliased

def kvShape : Result KvShape := do
  let ks ← parseAttnShape c.k "attn_k"
  let vs ← parseAttnShape c.v "attn_v"
  let past ← attnPast ks.batch ks.dim vs.dim c.pastK c.pastV
  .ok ⟨ks, vs, past⟩

def writeRows (batch past new stride d : Nat) (pastX x present : List K) : Result (List K) :=
  if c.inPlace then appendPresent batch past new stride d x present else concatPresent batch past new d pastX x present

/-- The words of `present_k` and `present_v`. -/
def writePresent (s : KvShape) (pk pv : TensorView K) : Result (List K × List K) :=
  let batch := s.k.batch.toNat
  let past := s.past.toNat
  let new := s.k.seq.toNat
  if 4 * pk.f32.length < wrap64 (batch * (past + new) * s.k.dim.toNat * 4) ∨
      4 * pv.f32.length < wrap64 (batch * (past + new) * s.v.dim.toNat * 4) then
    fail .invalidArgument "present buffer too small"
  else do
    let strideK ← presentStride c.inPlace batch (past + new) s.k.dim.toNat pk
    let strideV ← presentStride c.inPlace batch (past + new) s.v.dim.toNat pv
    if strideK < past + new ∨ strideV < past + new then fail .invalidArgument "present stride < kv_seq"
    else do
      let yk ← c.writeRows batch past new strideK s.k.dim.toNat (pastWords c.pastK) c.k.f32 pk.f32
      let yv ← c.writeRows batch past new strideV s.v.dim.toNat (pastWords c.pastV) c.v.f32 pv.f32
      .ok (yk, yv)

end AttnViews

/-- `attention_kv_f32`: the words of `out`, and those of `present_k` and `present_v`. -/
def attentionKvPresent [Field K] [LinearOrder K] (exp tanh sqrt : K → K) (p : AttnParams K) (c : AttnViews K) :
    Result (List K × Option (List K × List K)) := do
  let out ← attentionKvF32 exp tanh sqrt p c.q c.k c.v c.out c.pastK c.pastV
  match c.presentK, c.presentV with
  | none, none => .ok (out, none)
  | some pk, some pv => do
    let s ← c.kvShape
    let present ← c.writePresent s pk pv
    .ok (out, some present)
  | _, _ => fail .invalidArgument "attention present_k/v incomplete"

/-! ## The rows that are written -/

theorem copyRows_ok {d t s n : Nat} {dst src y : List K} (h : copyRows d dst t src s n = .ok y) :
    (t + n) * d ≤ dst.length ∧ (s + n) * d ≤ src.length ∧ y = Rows.blit dst (t * d) src (s * d) (n * d) := by
  unfold copyRows at h
  split at h
  · cases h
  · rename_i hfits
    cases h
    exact ⟨by omega, by omega, rfl⟩

theorem copyRows_row {d t s n : Nat} {dst src y : List K} (h : copyRows d dst t src s n = .ok y) :
    y.length = dst.length ∧
      ∀ i, Rows.row d y i = if t ≤ i ∧ i < t + n then Rows.row d src (s + (i - t)) else Rows.row d dst i := by
  obtain ⟨hdst, hsrc, rfl⟩ := copyRows_ok h
  refine ⟨?_, Rows.row_blit hdst hsrc⟩
  rw [Nat.add_mul] at hdst hsrc
  exact Rows.blit_length hdst hsrc

/-- Row `j` of batch row `b`: the past rows, and then the new ones. -/
def concatRow (past new d : Nat) (pastX x : List K) (b j : Nat) : List K :=
  if j < past then Rows.row d pastX (b * past + j) else Rows.row d x (b * new + (j - past))

theorem concatPresent_row {batch past new d : Nat} {pastX x present y : List K}
    (h : concatPresent batch past new d pastX x present = .ok y) :
    ∀ b < batch, ∀ j < past + new, Rows.row d y (b * (past + new) + j) = concatRow past new d pastX x b j := by
  refine Lists.foldlM_range (P := fun n y => ∀ b < n, ∀ j < past + new,
    Rows.row d y (b * (past + new) + j) = concatRow past new d pastX x b j) ?_ (fun b hb => absurd hb (Nat.not_lt_zero b)) h
  intro n hn y₀ y₂ hinv hround b hb j hj
  obtain ⟨y₁, hfirst, hsecond⟩ := bind_ok hround
  have hnew := (copyRows_row hsecond).2
  have hpast : ∀ i, Rows.row d y₁ i = if n * (past + new) ≤ i ∧ i < n * (past + new) + past then
      Rows.row d pastX (n * past + (i - n * (past + new))) else Rows.row d y₀ i := by
    intro i
    split at hfirst
    · exact (copyRows_row hfirst).2 i
    · cases hfirst
      rw [if_neg (by omega)]
  rcases Nat.lt_succ_iff_lt_or_eq.mp hb with hlt | rfl
  · -- the batch rows before are left alone
    have hle : (b + 1) * (past + new) ≤ n * (past + new) := Nat.mul_le_mul_right _ hlt
    rw [Nat.add_mul] at hle
    rw [hnew, if_neg (by omega), hpast, if_neg (by omega)]
    exact hinv b hlt j hj
  · unfold concatRow
    by_cases hj' : j < past
    · rw [hnew, if_neg (by omega), hpast, if_pos (by omega), if_pos hj', Nat.add_sub_cancel_left]
    · rw [hnew, if_pos (by omega), if_neg hj']
      congr 2
      omega

theorem appendRow_row {past new stride d b : Nat} {x y y' : List K} (h : appendRow past new stride d x y b = .ok y') :
    y'.length = y.length ∧ ∀ i, Rows.row d y' i =
      if b * stride + past ≤ i ∧ i < b * stride + past + new then Rows.row d x (b * new + (i - (b * stride + past)))
      else Rows.row d y i := by
  refine Lists.foldlM_range (P := fun n z => z.length = y.length ∧ ∀ i, Rows.row d z i =
    if b * stride + past ≤ i ∧ i < b * stride + past + n then Rows.row d x (b * new + (i - (b * stride + past)))
    else Rows.row d y i) ?_ ⟨rfl, fun i => by rw [if_neg (by omega)]⟩ h
  intro n hn z z' hinv hround
  obtain ⟨hlen, hrow⟩ := copyRows_row hround
  refine ⟨hlen.trans hinv.1, fun i => ?_⟩
  rw [hrow]
  by_cases hi : i = b * stride + past + n
  · rw [if_pos (by omega), if_pos (by omega)]
    congr 1
    omega
  · rw [if_neg (by omega), hinv.2]
    by_cases hin : b * stride + past ≤ i ∧ i < b * stride + past + n
    · rw [if_pos hin, if_pos (by omega)]
    · rw [if_neg hin, if_neg (by omega)]

/-- A row that no batch row writes. -/
theorem appendPresent_other {batch past new stride d i : Nat} {x present y : List K}
    (h : appendPresent batch past new stride d x present = .ok y)
    (hi : ∀ b < batch, ¬ (b * stride + past ≤ i ∧ i < b * stride + past + new)) :
    y.length = present.length ∧ Rows.row d y i = Rows.row d present i := by
  refine Lists.foldlM_range (P := fun _ z => z.length = present.length ∧ Rows.row d z i = Rows.row d present i) ?_ ⟨rfl, rfl⟩ h
  intro b hb z z' hinv hround
  obtain ⟨hlen, hrow⟩ := appendRow_row hround
  refine ⟨hlen.trans hinv.1, ?_⟩
  rw [hrow, if_neg (hi b hb)]
  exact hinv.2

/-- The rows that are written are there. -/
theorem appendRow_fits {past new stride d b : Nat} {x y y' : List K} (h : appendRow past new stride d x y b = .ok y') :
    0 < new → (b * stride + past + new) * d ≤ y.length := by
  have hrun := Lists.foldlM_range (P := fun n z => z.length = y.length ∧ (0 < n → (b * stride + past + n) * d ≤ y.length)) ?_
    ⟨rfl, fun h0 => absurd h0 (Nat.lt_irrefl 0)⟩ h
  · exact hrun.2
  · intro n _ z z' hinv hround
    refine ⟨(copyRows_row hround).1.trans hinv.1, fun _ => ?_⟩
    have hdst := (copyRows_ok hround).1
    rw [hinv.1] at hdst
    exact hdst

/-- One batch row. -/
theorem appendPresent_one {past new stride d : Nat} {x present y : List K}
    (h : appendPresent 1 past new stride d x present = .ok y) : (0 < new → (past + new) * d ≤ present.length) ∧
      ∀ i, Rows.row d y i = if past ≤ i ∧ i < past + new then Rows.row d x (i - past) else Rows.row d present i := by
  have hone : appendRow past new stride d x present 0 = .ok y := by
    have hrun : appendRow past new stride d x present 0 >>= pure = Except.ok y := h
    rwa [bind_pure] at hrun
  have hfits := appendRow_fits hone
  have hrow := (appendRow_row hone).2
  simp only [Nat.zero_mul, Nat.zero_add] at hfits hrow
  exact ⟨hfits, hrow⟩

/-- Whether the rows can be written depends on the lengths only. -/
theorem appendPresent_total {batch past new stride d : Nat} {x present y : List K}
    (h : appendPresent batch past new stride d x present = .ok y) {present' : List K} (hlen : present'.length = present.length) :
    ∃ y', appendPresent batch past new stride d x present' = .ok y' := by
  have hcopy : ∀ b s (z w z' : List K), w.length = z.length → copyRows d z (b * stride + past + s) x (b * new + s) 1 = .ok z' →
      ∃ w', copyRows d w (b * stride + past + s) x (b * new + s) 1 = .ok w' ∧ w'.length = z'.length := by
    intro b s z w z' hzw hz
    obtain ⟨hdst, hsrc, -⟩ := copyRows_ok hz
    have hw : copyRows d w (b * stride + past + s) x (b * new + s) 1 =
        .ok (Rows.blit w ((b * stride + past + s) * d) x ((b * new + s) * d) (1 * d)) := by
      unfold copyRows
      rw [if_neg (by omega)]
    refine ⟨_, hw, ?_⟩
    rw [(copyRows_row hw).1, (copyRows_row hz).1, hzw]
  obtain ⟨y', hy', -⟩ := Lists.foldlM_related (R := fun z w : List K => w.length = z.length)
    (fun b _ z w z' hzw hz => Lists.foldlM_related (fun s _ z w z' hzw hz => hcopy b s z w z' hzw hz) hzw hz) hlen h
  exact ⟨y', hy'⟩

/-! ## What is read next -/

/-- A following call reads, as its past, what this one read. -/
def ReadsNext [Field K] (batch past new d : Nat) (pastX x present : List K) : Prop :=
  ∀ b < batch, ∀ j < past + new, ∀ i < d, ∀ later y,
    attnAt (past + new) later d present y b j i = attnAt past new d pastX x b j i

theorem readsNext_of_rows [Field K] {batch past new d : Nat} {pastX x present : List K}
    (h : ∀ b < batch, ∀ j < past + new, Rows.row d present (b * (past + new) + j) = concatRow past new d pastX x b j) :
    ReadsNext batch past new d pastX x present := by
  intro b hb j hj i hi later y
  have hrow : (Rows.row d present (b * (past + new) + j)).getD i 0 = (concatRow past new d pastX x b j).getD i 0 := by
    rw [h b hb j hj]
  rw [Rows.getD_row hi] at hrow
  rw [attnAt, if_pos hj, hrow, attnAt, concatRow]
  split
  · rw [Rows.getD_row hi]
  · rw [Rows.getD_row hi]

/-- Separate buffers hold what a following call reads. -/
theorem concat_reads [Field K] {batch past new d : Nat} {pastX x present y : List K}
    (h : concatPresent batch past new d pastX x present = .ok y) : ReadsNext batch past new d pastX x y :=
  readsNext_of_rows (concatPresent_row h)

/-- Two views of one memory. -/
def SameWords (xs ys : List K) : Prop := ∀ i, i < xs.length → i < ys.length → xs[i]? = ys[i]?

theorem SameWords.row {xs ys : List K} (h : SameWords xs ys) {d i : Nat} (hx : (i + 1) * d ≤ xs.length)
    (hy : (i + 1) * d ≤ ys.length) : Rows.row d xs i = Rows.row d ys i := by
  rw [Nat.add_mul] at hx hy
  apply List.ext_getElem?
  intro j
  rw [Rows.getElem?_row, Rows.getElem?_row]
  split
  · exact h _ (by omega) (by omega)
  · rfl

/-- So does a buffer that is written in place, of one batch row. -/
theorem append_reads [Field K] {past new stride d : Nat} {pastX x present y : List K}
    (h : appendPresent 1 past new stride d x present = .ok y) (hnew : 0 < new) (hsame : SameWords pastX present)
    (hpast : past * d ≤ pastX.length) : ReadsNext 1 past new d pastX x y := by
  obtain ⟨hfits, hrows⟩ := appendPresent_one h
  have hpresent := hfits hnew
  refine readsNext_of_rows fun b hb j hj => ?_
  obtain rfl : b = 0 := by omega
  simp only [Nat.zero_mul, Nat.zero_add, concatRow]
  rw [hrows]
  by_cases hj' : j < past
  · have hle : (j + 1) * d ≤ past * d := Nat.mul_le_mul_right d hj'
    have hmore : past * d ≤ (past + new) * d := Nat.mul_le_mul_right d (Nat.le_add_right past new)
    rw [if_neg (by omega), if_pos hj', hsame.row (by omega) (by omega)]
  · rw [if_pos (by omega), if_neg hj']

/-! ## A call that succeeds -/

theorem parseAttnShape_pos {t : TensorView K} {s : AttnShape} {name name' : String} (h : parseAttnShape t name = .ok s)
    (hcheck : checkViewBytes t name' = .ok ()) : s.batch = t.dim 0 ∧ 0 < s.batch ∧ 0 < s.seq ∧ 0 < s.dim := by
  have hpos := numel_pos (checkViewBytes_numel hcheck).1
  unfold parseAttnShape at h
  split at h
  · exact absurd h (fail_ne_ok _ _ _)
  · split at h
    · rename_i batch dim hshape
      cases h
      rw [hshape] at hpos
      exact ⟨by simp [TensorView.dim, hshape], hpos batch (by simp), Int.one_pos, hpos dim (by simp)⟩
    · rename_i batch seq dim hshape
      cases h
      rw [hshape] at hpos
      exact ⟨by simp [TensorView.dim, hshape], hpos batch (by simp), hpos seq (by simp), hpos dim (by simp)⟩
    · exact absurd h (fail_ne_ok _ _ _)

/-- There is a position in a past that there is. -/
theorem attnPast_pos {batch kDim vDim past : Int} {pastK pastV : Option (TensorView K)}
    (h : attnPast batch kDim vDim pastK pastV = .ok past) : 0 ≤ past ∧ (pastK.isSome = true → 0 < past) := by
  unfold attnPast at h
  split at h
  · cases h
    exact ⟨Int.le_refl 0, fun hsome => absurd hsome Bool.false_ne_true⟩
  · split at h
    · exact absurd h (fail_ne_ok _ _ _)
    · obtain ⟨pks, hpks, h⟩ := bind_ok h
      obtain ⟨pvs, -, h⟩ := bind_ok h
      split at h
      · exact absurd h (fail_ne_ok _ _ _)
      · obtain ⟨_, hcheck, h⟩ := bind_ok h
        obtain ⟨_, -, h⟩ := bind_ok h
        cases h
        have hseq := (parseAttnShape_pos hpks hcheck).2.2.1
        exact ⟨by omega, fun _ => hseq⟩
  · exact absurd h (fail_ne_ok _ _ _)

/-- What the checks of the attention have found. -/
structure Attended (p : AttnParams K) (c : AttnViews K) (qs ks vs os : AttnShape) (hd : AttnHeads) (past : Int) : Prop where
  q : parseAttnShape c.q "attn_q" = .ok qs
  k : parseAttnShape c.k "attn_k" = .ok ks
  v : parseAttnShape c.v "attn_v" = .ok vs
  out : parseAttnShape c.out "attn_out" = .ok os
  checkQ : checkViewBytes c.q "attn_q" = .ok ()
  checkK : checkViewBytes c.k "attn_k" = .ok ()
  checkV : checkViewBytes c.v "attn_v" = .ok ()
  checkOut : checkViewBytes c.out "attn_out" = .ok ()
  agree : ¬ (qs.batch ≠ ks.batch ∨ qs.batch ≠ vs.batch ∨ qs.batch ≠ os.batch ∨ qs.seq ≠ os.seq ∨ ks.seq ≠ vs.seq ∨
    qs.seq ≠ ks.seq)
  heads : attnHeads p.numHeads qs.dim ks.dim vs.dim os.dim = .ok hd
  pastSeq : attnPast qs.batch ks.dim vs.dim c.pastK c.pastV = .ok past
  reads : ¬ (!(readsAttn c.q qs && readsAttn c.k ks && readsAttn c.v vs && readsAttn c.out os &&
    (qs.batch * past * ks.dim).toNat ≤ (pastWords c.pastK).length &&
      (qs.batch * past * vs.dim).toNat ≤ (pastWords c.pastV).length)) = true

section Call

variable [Field K] [LinearOrder K] {exp tanh sqrt : K → K} {p : AttnParams K} {c : AttnViews K}

theorem attention_ok_iff : (∃ r, attentionKvF32 exp tanh sqrt p c.q c.k c.v c.out c.pastK c.pastV = .ok r) ↔
    ∃ qs ks vs os hd past, Attended p c qs ks vs os hd past := by
  apply Iff.intro
  · rintro ⟨r, h⟩
    unfold attentionKvF32 at h
    obtain ⟨qs, hq, h⟩ := bind_ok h
    obtain ⟨ks, hk, h⟩ := bind_ok h
    obtain ⟨vs, hv, h⟩ := bind_ok h
    obtain ⟨os, ho, h⟩ := bind_ok h
    obtain ⟨_, hcq, h⟩ := bind_ok h
    obtain ⟨_, hck, h⟩ := bind_ok h
    obtain ⟨_, hcv, h⟩ := bind_ok h
    obtain ⟨_, hco, h⟩ := bind_ok h
    split at h
    · exact absurd h (fail_ne_ok _ _ _)
    · rename_i hagree
      obtain ⟨hd, hheads, h⟩ := bind_ok h
      obtain ⟨past, hpast, h⟩ := bind_ok h
      split at h
      · cases h
      · rename_i hreads
        exact ⟨qs, ks, vs, os, hd, past, hq, hk, hv, ho, hcq, hck, hcv, hco, hagree, hheads, hpast, hreads⟩
  · rintro ⟨qs, ks, vs, os, hd, past, h⟩
    unfold attentionKvF32
    simp only [h.q, h.k, h.v, h.out, h.checkQ, h.checkK, h.checkV, h.checkOut, ok_bind]
    rw [if_neg h.agree]
    simp only [h.heads, h.pastSeq, ok_bind]
    rw [if_neg h.reads]
    exact ⟨_, rfl⟩

/-- What the outputs are written with. -/
structure Presented (c : AttnViews K) (ks vs : AttnShape) (past : Int) (pk pv : TensorView K) (strideK strideV : Nat)
    (yk yv : List K) : Prop where
  sizes : ¬ (4 * pk.f32.length < wrap64 (ks.batch.toNat * (past.toNat + ks.seq.toNat) * ks.dim.toNat * 4) ∨
    4 * pv.f32.length < wrap64 (ks.batch.toNat * (past.toNat + ks.seq.toNat) * vs.dim.toNat * 4))
  strideOfK : presentStride c.inPlace ks.batch.toNat (past.toNat + ks.seq.toNat) ks.dim.toNat pk = .ok strideK
  strideOfV : presentStride c.inPlace ks.batch.toNat (past.toNat + ks.seq.toNat) vs.dim.toNat pv = .ok strideV
  strides : ¬ (strideK < past.toNat + ks.seq.toNat ∨ strideV < past.toNat + ks.seq.toNat)
  writeK : c.writeRows ks.batch.toNat past.toNat ks.seq.toNat strideK ks.dim.toNat (pastWords c.pastK) c.k.f32 pk.f32 = .ok yk
  writeV : c.writeRows ks.batch.toNat past.toNat ks.seq.toNat strideV vs.dim.toNat (pastWords c.pastV) c.v.f32 pv.f32 = .ok yv

omit [Field K] [LinearOrder K] in
theorem writePresent_ok_iff {ks vs : AttnShape} {past : Int} {pk pv : TensorView K} {yk yv : List K} :
    c.writePresent ⟨ks, vs, past⟩ pk pv = .ok (yk, yv) ↔
      ∃ strideK strideV, Presented c ks vs past pk pv strideK strideV yk yv := by
  apply Iff.intro
  · intro h
    unfold AttnViews.writePresent at h
    dsimp only at h
    split at h
    · exact absurd h (fail_ne_ok _ _ _)
    · rename_i hsizes
      obtain ⟨strideK, hk, h⟩ := bind_ok h
      obtain ⟨strideV, hv, h⟩ := bind_ok h
      split at h
      · exact absurd h (fail_ne_ok _ _ _)
      · rename_i hstrides
        obtain ⟨yk', hyk, h⟩ := bind_ok h
        obtain ⟨yv', hyv, h⟩ := bind_ok h
        cases h
        exact ⟨strideK, strideV, hsizes, hk, hv, hstrides, hyk, hyv⟩
  · rintro ⟨strideK, strideV, h⟩
    unfold AttnViews.writePresent
    dsimp only
    rw [if_neg h.sizes, h.strideOfK, h.strideOfV, ok_bind, ok_bind, if_neg h.strides, h.writeK, h.writeV]
    rfl

omit [Field K] [LinearOrder K] in
theorem Attended.kvShape {qs ks vs os : AttnShape} {hd : AttnHeads} {past : Int} (h : Attended p c qs ks vs os hd past) :
    ks.batch = qs.batch ∧ c.kvShape = .ok ⟨ks, vs, past⟩ := by
  have hbatch : ks.batch = qs.batch := by
    have hagree := h.agree
    omega
  refine ⟨hbatch, ?_⟩
  unfold AttnViews.kvShape
  rw [h.k, h.v, ok_bind, ok_bind, hbatch, h.pastSeq]
  rfl

/-- A call that has written its outputs. -/
theorem present_ok_iff {yk yv : List K} : (∃ out, attentionKvPresent exp tanh sqrt p c = .ok (out, some (yk, yv))) ↔
    ∃ qs ks vs os hd past pk pv strideK strideV, Attended p c qs ks vs os hd past ∧ c.presentK = some pk ∧
      c.presentV = some pv ∧ Presented c ks vs past pk pv strideK strideV yk yv := by
  apply Iff.intro
  · rintro ⟨out, h⟩
    unfold attentionKvPresent at h
    obtain ⟨r, hr, h⟩ := bind_ok h
    obtain ⟨qs, ks, vs, os, hd, past, hatt⟩ := attention_ok_iff.mp ⟨r, hr⟩
    split at h
    · cases h
    · rename_i pk pv hpk hpv
      rw [hatt.kvShape.2, ok_bind] at h
      obtain ⟨⟨yk', yv'⟩, hwritten, h⟩ := bind_ok h
      cases h
      obtain ⟨strideK, strideV, hpres⟩ := writePresent_ok_iff.mp hwritten
      exact ⟨qs, ks, vs, os, hd, past, pk, pv, strideK, strideV, hatt, hpk, hpv, hpres⟩
    · exact absurd h (fail_ne_ok _ _ _)
  · rintro ⟨qs, ks, vs, os, hd, past, pk, pv, strideK, strideV, hatt, hpk, hpv, hpres⟩
    obtain ⟨r, hr⟩ : ∃ r, attentionKvF32 exp tanh sqrt p c.q c.k c.v c.out c.pastK c.pastV = .ok r :=
      attention_ok_iff.mpr ⟨qs, ks, vs, os, hd, past, hatt⟩
    refine ⟨r, ?_⟩
    unfold attentionKvPresent
    rw [hr, ok_bind, hpk, hpv]
    dsimp only
    rw [hatt.kvShape.2, ok_bind, writePresent_ok_iff.mpr ⟨strideK, strideV, hpres⟩]
    rfl

end Call

/-! ## Layouts -/

/-- A view without its words. -/
def TensorView.layout (t : TensorView K) : TensorView Unit := ⟨t.dtype, t.shape, t.data.map (·.map fun _ => ()), t.quantFormat⟩

def AttnViews.layout (c : AttnViews K) : AttnViews Unit :=
  ⟨c.q.layout, c.k.layout, c.v.layout, c.out.layout, c.pastK.map (·.layout), c.pastV.map (·.layout), c.presentK.map (·.layout),
    c.presentV.map (·.layout), c.aliased⟩

/-- Views at one address show the same words. -/
structure AttnViews.OneMemory (c : AttnViews K) : Prop where
  k : c.inPlace = true → SameWords (pastWords c.pastK) (pastWords c.presentK)
  v : c.inPlace = true → SameWords (pastWords c.pastV) (pastWords c.presentV)

/-- A following call reads what this one read, and its new rows. -/
def AttnViews.ReadsNext [Field K] (c : AttnViews K) (yk yv : List K) : Prop :=
  ∀ s, c.kvShape = .ok s →
    Kernels.ReadsNext s.k.batch.toNat s.past.toNat s.k.seq.toNat s.k.dim.toNat (pastWords c.pastK) c.k.f32 yk ∧
      Kernels.ReadsNext s.k.batch.toNat s.past.toNat s.k.seq.toNat s.v.dim.toNat (pastWords c.pastV) c.v.f32 yv

/-- The same view of other words. -/
def TensorView.withWords (f : Nat → K) (t : TensorView K) : TensorView K :=
  { t with data := t.data.map fun xs => (List.range xs.length).map f }

theorem TensorView.withWords_layout (f : Nat → K) (t : TensorView K) : (t.withWords f).layout = t.layout := by
  have hwords : ∀ xs : List K, ((List.range xs.length).map f).map (fun _ => ()) = xs.map fun _ => () := by
    intro xs
    rw [List.map_const', List.map_const', List.length_map, List.length_range]
  simp only [layout, withWords, Option.map_map, Function.comp_def, hwords]

theorem TensorView.withWords_f32 (f : Nat → K) (t : TensorView K) : (t.withWords f).f32 = (List.range t.f32.length).map f := by
  cases hdata : t.data <;> simp [TensorView.f32, withWords, hdata]

theorem parseAttnShape_layout (t : TensorView K) (name : String) : parseAttnShape t.layout name = parseAttnShape t name := by
  unfold parseAttnShape
  have hnone : t.layout.data.isNone = t.data.isNone := by
    cases hdata : t.data <;> simp [TensorView.layout, hdata]
  rw [hnone]
  rfl

theorem checkViewBytes_layout (t : TensorView K) (name : String) : checkViewBytes t.layout name = checkViewBytes t name := by
  have hnumel : t.layout.numel = t.numel := rfl
  have hdtype : t.layout.dtype = t.dtype := rfl
  have hdata' : t.layout.data = t.data.map (·.map fun _ => ()) := rfl
  unfold checkViewBytes
  rw [hnumel, hdtype, hdata']
  cases hdata : t.data with
  | none => rfl
  | some words => simp only [Option.map_some, List.length_map]

theorem f32_layout (t : TensorView K) : t.layout.f32.length = t.f32.length := by
  cases hdata : t.data <;> simp [TensorView.f32, TensorView.layout, hdata]

theorem attnPast_layout (batch kDim vDim : Int) (pastK pastV : Option (TensorView K)) :
    attnPast batch kDim vDim (pastK.map (·.layout)) (pastV.map (·.layout)) = attnPast batch kDim vDim pastK pastV := by
  have hnone : ∀ t : TensorView K, t.layout.data.isNone = t.data.isNone := by
    intro t
    cases hdata : t.data <;> simp [TensorView.layout, hdata]
  cases pastK with
  | none => cases pastV <;> rfl
  | some pk =>
    cases pastV with
    | none => rfl
    | some pv =>
      simp only [Option.map_some, attnPast, hnone, parseAttnShape_layout, checkViewBytes_layout]

theorem pastWords_layout (t : Option (TensorView K)) : (pastWords (t.map (·.layout))).length = (pastWords t).length := by
  cases t with
  | none => rfl
  | some t => exact f32_layout t

/-- What the checks find is a matter of the layout. -/
theorem attended_layout {p : AttnParams K} {c w : AttnViews K} (hlayout : w.layout = c.layout) {qs ks vs os : AttnShape}
    {hd : AttnHeads} {past : Int} (h : Attended p c qs ks vs os hd past) : Attended p w qs ks vs os hd past := by
  have hq : w.q.layout = c.q.layout := congrArg AttnViews.q hlayout
  have hk : w.k.layout = c.k.layout := congrArg AttnViews.k hlayout
  have hv : w.v.layout = c.v.layout := congrArg AttnViews.v hlayout
  have ho : w.out.layout = c.out.layout := congrArg AttnViews.out hlayout
  have hpk : w.pastK.map (·.layout) = c.pastK.map (·.layout) := congrArg AttnViews.pastK hlayout
  have hpv : w.pastV.map (·.layout) = c.pastV.map (·.layout) := congrArg AttnViews.pastV hlayout
  have hreads : ∀ {t u : TensorView K} {s : AttnShape}, t.layout = u.layout → readsAttn t s = readsAttn u s := by
    intro t u s htu
    rw [readsAttn, readsAttn, ← f32_layout t, ← f32_layout u, htu]
  have hwords : ∀ {t u : Option (TensorView K)}, t.map (·.layout) = u.map (·.layout) →
      (pastWords t).length = (pastWords u).length := by
    intro t u htu
    rw [← pastWords_layout t, ← pastWords_layout u, htu]
  constructor
  · rw [← parseAttnShape_layout, hq, parseAttnShape_layout, h.q]
  · rw [← parseAttnShape_layout, hk, parseAttnShape_layout, h.k]
  · rw [← parseAttnShape_layout, hv, parseAttnShape_layout, h.v]
  · rw [← parseAttnShape_layout, ho, parseAttnShape_layout, h.out]
  · rw [← checkViewBytes_layout, hq, checkViewBytes_layout, h.checkQ]
  · rw [← checkViewBytes_layout, hk, checkViewBytes_layout, h.checkK]
  · rw [← checkViewBytes_layout, hv, checkViewBytes_layout, h.checkV]
  · rw [← checkViewBytes_layout, ho, checkViewBytes_layout, h.checkOut]
  · exact h.agree
  · exact h.heads
  · rw [← attnPast_layout, hpk, hpv, attnPast_layout, h.pastSeq]
  · rw [hreads hq, hreads hk, hreads hv, hreads ho, hwords hpk, hwords hpv]
    exact h.reads

theorem inPlace_layout (c : AttnViews K) : c.layout.inPlace = c.inPlace := by
  simp only [AttnViews.inPlace, AttnViews.layout, Option.isSome_map]

/-! ## When the outputs are read back -/

theorem writeRows_reads [Field K] {c : AttnViews K} {batch past new stride d : Nat} {pastX x present y : List K}
    (h : c.writeRows batch past new stride d pastX x present = .ok y) (hnew : 0 < new) (hcond : c.inPlace = false ∨ batch = 1)
    (hsame : c.inPlace = true → SameWords pastX present) (hpast : batch * past * d ≤ pastX.length) :
    ReadsNext batch past new d pastX x y := by
  unfold AttnViews.writeRows at h
  split at h
  · rename_i hin
    obtain rfl : batch = 1 := hcond.resolve_left (by rw [hin]; exact Bool.noConfusion)
    rw [Nat.one_mul] at hpast
    exact append_reads h hnew (hsame hin) hpast
  · exact concat_reads h

/-- Words that tell the past's row `past` from the others. -/
def mark [Field K] (d past i : Nat) : K := if i / d = past then 1 else 0

theorem marked_past [Field K] {d past n : Nat} (hd : 0 < d) (hn : past * d < n) :
    ((List.range n).map (mark (K := K) d past)).getD (past * d) 0 = 1 := by
  have hlen : past * d < ((List.range n).map (mark (K := K) d past)).length := by
    rw [List.length_map, List.length_range]
    exact hn
  rw [List.getD_eq_getElem _ _ hlen, List.getElem_map, List.getElem_range, mark, if_pos (Nat.mul_div_cancel past hd)]

theorem marked_other [Field K] {d past r n : Nat} (hd : 0 < d) (hr : r ≠ past) :
    ((List.range n).map (mark (K := K) d past)).getD (r * d) 0 = 0 := by
  rw [List.getD_eq_getElem?_getD, List.getElem?_map]
  by_cases hn : r * d < n
  · rw [List.getElem?_range hn, Option.map_some, Option.getD_some, mark, Nat.mul_div_cancel r hd, if_neg hr]
  · rw [List.getElem?_eq_none (by rw [List.length_range]; omega)]
    rfl

section Call

variable [Field K] [LinearOrder K] {exp tanh sqrt : K → K} {p : AttnParams K} {c : AttnViews K}

theorem present_reads {out yk yv : List K} (h : attentionKvPresent exp tanh sqrt p c = .ok (out, some (yk, yv)))
    (hmem : c.OneMemory) (hcond : c.inPlace = false ∨ c.q.dim 0 = 1) : c.ReadsNext yk yv := by
  obtain ⟨qs, ks, vs, os, hd, past, pk, pv, strideK, strideV, hatt, hpk, hpv, hpres⟩ := present_ok_iff.mp ⟨out, h⟩
  obtain ⟨hbatch, hshape⟩ := hatt.kvShape
  obtain ⟨hdim, hpos, -, -⟩ := parseAttnShape_pos hatt.q hatt.checkQ
  obtain ⟨-, -, hseq, hkd⟩ := parseAttnShape_pos hatt.k hatt.checkK
  obtain ⟨-, -, -, hvd⟩ := parseAttnShape_pos hatt.v hatt.checkV
  have hpast := (attnPast_pos hatt.pastSeq).1
  have hreads := hatt.reads
  simp only [Bool.not_eq_true', Bool.not_eq_false, Bool.and_eq_true, decide_eq_true_eq] at hreads
  have hnat : ∀ {d : Int}, 0 < d → (qs.batch * past * d).toNat = ks.batch.toNat * past.toNat * d.toNat := by
    intro d hd'
    rw [Int.toNat_mul (Int.mul_nonneg hpos.le hpast) hd'.le, Int.toNat_mul hpos.le hpast, hbatch]
  have hnew : 0 < ks.seq.toNat := by omega
  have hcond' : c.inPlace = false ∨ ks.batch.toNat = 1 := hcond.imp_right fun hone => by omega
  intro s hs
  rw [hshape] at hs
  cases hs
  apply And.intro
  · refine writeRows_reads hpres.writeK hnew hcond' (fun hin => ?_) ?_
    · have hsame := hmem.k hin
      rw [hpk] at hsame
      exact hsame
    · rw [← hnat hkd]
      exact hreads.1.2
  · refine writeRows_reads hpres.writeV hnew hcond' (fun hin => ?_) ?_
    · have hsame := hmem.v hin
      rw [hpv] at hsame
      exact hsame
    · rw [← hnat hvd]
      exact hreads.2

/-- The call on a buffer's row numbers. -/
def AttnViews.marked (c : AttnViews K) (f : Nat → K) : AttnViews K :=
  { c with
    pastK := c.pastK.map (·.withWords f)
    pastV := c.pastV.map (·.withWords f)
    presentK := c.presentK.map (·.withWords f)
    presentV := c.presentV.map (·.withWords f) }

omit [Field K] [LinearOrder K] in
theorem marked_layout (c : AttnViews K) (f : Nat → K) : (c.marked f).layout = c.layout := by
  simp only [AttnViews.marked, AttnViews.layout, Option.map_map, Function.comp_def, TensorView.withWords_layout]

omit [Field K] [LinearOrder K] in
theorem pastWords_marked (f : Nat → K) (t : Option (TensorView K)) :
    pastWords (t.map (·.withWords f)) = (List.range (pastWords t).length).map f := by
  cases t with
  | none => rfl
  | some t => exact TensorView.withWords_f32 f t

omit [Field K] [LinearOrder K] in
theorem marked_oneMemory (c : AttnViews K) (f : Nat → K) : (c.marked f).OneMemory := by
  have hsame : ∀ t u : Option (TensorView K),
      SameWords (pastWords (t.map (·.withWords f))) (pastWords (u.map (·.withWords f))) := by
    intro t u i ht hu
    rw [pastWords_marked, List.length_map, List.length_range] at ht hu
    rw [pastWords_marked, pastWords_marked, List.getElem?_map, List.getElem?_map, List.getElem?_range ht, List.getElem?_range hu]
  exact ⟨fun _ => hsame _ _, fun _ => hsame _ _⟩

omit [Field K] [LinearOrder K] in
/-- In place the outputs are written whatever the words. -/
theorem presented_marked {ks vs : AttnShape} {past : Int} {pk pv : TensorView K} {strideK strideV : Nat} {yk yv : List K}
    (h : Presented c ks vs past pk pv strideK strideV yk yv) (hin : c.inPlace = true) (f : Nat → K) :
    ∃ zk zv, appendPresent ks.batch.toNat past.toNat ks.seq.toNat strideK ks.dim.toNat c.k.f32 (pk.withWords f).f32 = .ok zk ∧
      Presented (c.marked f) ks vs past (pk.withWords f) (pv.withWords f) strideK strideV zk zv := by
  have hlen : ∀ t : TensorView K, (t.withWords f).f32.length = t.f32.length := by
    intro t
    rw [TensorView.withWords_f32, List.length_map, List.length_range]
  have hin' : (c.marked f).inPlace = true := by rw [← inPlace_layout, marked_layout, inPlace_layout, hin]
  have hstride : ∀ (batch kvSeq d : Nat) (t : TensorView K),
      presentStride true batch kvSeq d (t.withWords f) = presentStride true batch kvSeq d t := by
    intro batch kvSeq d t
    unfold presentStride
    rw [hlen]
  have hk := h.writeK
  have hv := h.writeV
  unfold AttnViews.writeRows at hk hv
  rw [if_pos hin] at hk hv
  obtain ⟨zk, hzk⟩ := appendPresent_total hk (hlen pk)
  obtain ⟨zv, hzv⟩ := appendPresent_total hv (hlen pv)
  refine ⟨zk, zv, hzk, ?_⟩
  constructor
  · rw [hlen, hlen]
    exact h.sizes
  · rw [hin', hstride, ← hin]
    exact h.strideOfK
  · rw [hin', hstride, ← hin]
    exact h.strideOfV
  · exact h.strides
  · unfold AttnViews.writeRows
    rw [if_pos hin']
    exact hzk
  · unfold AttnViews.writeRows
    rw [if_pos hin']
    exact hzv

/-- In place, and of two batch rows or more: the second's first past row is not read back. -/
theorem present_differs {out yk yv : List K} (h : attentionKvPresent exp tanh sqrt p c = .ok (out, some (yk, yv)))
    (hin : c.inPlace = true) (hne : c.q.dim 0 ≠ 1) : ∃ w : AttnViews K, w.layout = c.layout ∧ w.OneMemory ∧
      ∃ out yk yv, attentionKvPresent exp tanh sqrt p w = .ok (out, some (yk, yv)) ∧ ¬ w.ReadsNext yk yv := by
  obtain ⟨qs, ks, vs, os, hd, past, pk, pv, strideK, strideV, hatt, hpk, hpv, hpres⟩ := present_ok_iff.mp ⟨out, h⟩
  obtain ⟨hbatch, -⟩ := hatt.kvShape
  obtain ⟨hdim, hpos, -, -⟩ := parseAttnShape_pos hatt.q hatt.checkQ
  obtain ⟨-, -, hseq, hkd⟩ := parseAttnShape_pos hatt.k hatt.checkK
  have hpast : 0 < past := by
    refine (attnPast_pos hatt.pastSeq).2 ?_
    simp only [AttnViews.inPlace, Bool.and_eq_true] at hin
    exact hin.1.1
  have hreads := hatt.reads
  simp only [Bool.not_eq_true', Bool.not_eq_false, Bool.and_eq_true, decide_eq_true_eq] at hreads
  have hpastK := hreads.1.2
  rw [Int.toNat_mul (Int.mul_nonneg hpos.le hpast.le) hkd.le, Int.toNat_mul hpos.le hpast.le, ← hbatch] at hpastK
  have hstride := hpres.strides
  -- the words in which the second batch row's past begins are told from the others
  obtain ⟨zk, zv, hzk, hpres'⟩ := presented_marked hpres hin (mark ks.dim.toNat past.toNat)
  have hatt' := attended_layout (marked_layout c (mark ks.dim.toNat past.toNat)) hatt
  obtain ⟨out', hrun⟩ : ∃ out, attentionKvPresent exp tanh sqrt p (c.marked (mark ks.dim.toNat past.toNat)) =
      .ok (out, some (zk, zv)) := by
    refine present_ok_iff.mpr ⟨qs, ks, vs, os, hd, past, _, _, strideK, strideV, hatt', ?_, ?_, hpres'⟩
    · rw [AttnViews.marked, hpk]
      rfl
    · rw [AttnViews.marked, hpv]
      rfl
  refine ⟨_, marked_layout c _, marked_oneMemory c _, out', zk, zv, hrun, fun hnext => ?_⟩
  have htwo : 1 < ks.batch.toNat := by omega
  have hnat : 0 < past.toNat ∧ 0 < past.toNat + ks.seq.toNat ∧ 0 < ks.dim.toNat := by omega
  have hread := (hnext _ hatt'.kvShape.2).1 1 htwo 0 hnat.2.1 0 hnat.2.2 0 []
  have hwords : pastWords (c.marked (mark (K := K) ks.dim.toNat past.toNat)).pastK =
      (List.range (pastWords c.pastK).length).map (mark ks.dim.toNat past.toNat) := pastWords_marked _ _
  have hpastD : past.toNat * ks.dim.toNat < (pastWords c.pastK).length := by
    have hle : 2 * past.toNat * ks.dim.toNat ≤ ks.batch.toNat * past.toNat * ks.dim.toNat :=
      Nat.mul_le_mul_right _ (Nat.mul_le_mul_right _ (by omega))
    have hone : 0 < past.toNat * ks.dim.toNat := Nat.mul_pos hnat.1 hnat.2.2
    rw [Nat.mul_assoc] at hle
    omega
  have hother := (appendPresent_other hzk (i := past.toNat + ks.seq.toNat) fun b _ => by
    rcases Nat.eq_zero_or_pos b with rfl | hb
    · omega
    · have hle : strideK ≤ b * strideK := Nat.le_mul_of_pos_left _ hb
      omega).2
  have hzero : zk.getD ((past.toNat + ks.seq.toNat) * ks.dim.toNat) 0 = 0 := by
    have hrow := Rows.getD_row hnat.2.2 zk (past.toNat + ks.seq.toNat) 0
    rw [hother, Rows.getD_row hnat.2.2, TensorView.withWords_f32, Nat.add_zero, marked_other hnat.2.2 (by omega)] at hrow
    exact hrow.symm
  rw [attnAt, if_pos hnat.2.1, attnAt, if_pos hnat.1, hwords] at hread
  simp only [Nat.one_mul, Nat.add_zero, hzero, marked_past hnat.2.2 hpastD] at hread
  exact zero_ne_one hread

/-- For every layout of a call that succeeds, whatever its words: a following call reads
    the past rows and the new ones of every batch row exactly when the outputs have
    buffers of their own, or there is one batch row. -/
theorem present_iff {out yk yv : List K} (h : attentionKvPresent exp tanh sqrt p c = .ok (out, some (yk, yv))) :
    (∀ w : AttnViews K, w.layout = c.layout → w.OneMemory → ∀ out yk yv,
        attentionKvPresent exp tanh sqrt p w = .ok (out, some (yk, yv)) → w.ReadsNext yk yv) ↔
      c.inPlace = false ∨ c.q.dim 0 = 1 := by
  apply Iff.intro
  · intro hall
    by_contra hcond
    rw [not_or, Bool.not_eq_false] at hcond
    obtain ⟨w, hlayout, hmem, out', zk, zv, hrun, hnot⟩ := present_differs h hcond.1 hcond.2
    exact hnot (hall w hlayout hmem out' zk zv hrun)
  · intro hcond w hlayout hmem out' zk zv hrun
    refine present_reads hrun hmem ?_
    have hdim : w.q.dim 0 = c.q.dim 0 := congrArg (fun l => l.q.dim 0) hlayout
    rw [← inPlace_layout, hlayout, inPlace_layout, hdim]
    exact hcond

end Call

/-! ## Two batch rows in place -/

/-- One past position and one new one, in buffers of two positions. -/
def twoInPlace : AttnViews ℚ where
  q := .ofF32 [2, 1, 1] [0, 0]
  k := .ofF32 [2, 1, 1] [5, 6]
  v := .ofF32 [2, 1, 1] [7, 8]
  out := .ofF32 [2, 1, 1] [0, 0]
  pastK := some (.ofF32 [2, 1, 1] [1, 2, 0, 0])
  pastV := some (.ofF32 [2, 1, 1] [3, 4, 0, 0])
  presentK := some (.ofF32 [2, 2, 1] [1, 2, 0, 0])
  presentV := some (.ofF32 [2, 2, 1] [3, 4, 0, 0])
  aliased := true

def oneHead : AttnParams ℚ := ⟨1, 1, true, 0, 0⟩

theorem twoInPlace_runs : ∃ out, attentionKvPresent id id id oneHead twoInPlace = .ok (out, some ([1, 5, 0, 6], [3, 7, 0, 8])) := by
  refine present_ok_iff.mpr ⟨⟨2, 1, 1⟩, ⟨2, 1, 1⟩, ⟨2, 1, 1⟩, ⟨2, 1, 1⟩, ⟨1, 1, 1, 1⟩, 1, _, _, 2, 2, ?_, rfl, rfl, ?_⟩
  · exact ⟨rfl, rfl, rfl, rfl, rfl, rfl, rfl, rfl, by decide, rfl, rfl, by decide⟩
  · exact ⟨by decide, rfl, rfl, by decide, rfl, rfl⟩

theorem twoInPlace_oneMemory : twoInPlace.OneMemory := ⟨fun _ _ _ _ => rfl, fun _ _ _ _ => rfl⟩

/-- The second batch row's past is read as 0, and was 2. -/
theorem two_in_place_differ : twoInPlace.OneMemory ∧
    ∃ out, attentionKvPresent id id id oneHead twoInPlace = .ok (out, some ([1, 5, 0, 6], [3, 7, 0, 8])) ∧
      ¬ twoInPlace.ReadsNext [1, 5, 0, 6] [3, 7, 0, 8] := by
  obtain ⟨out, hrun⟩ := twoInPlace_runs
  refine ⟨twoInPlace_oneMemory, out, hrun, fun hnext => ?_⟩
  have hread := (hnext ⟨⟨2, 1, 1⟩, ⟨2, 1, 1⟩, 1⟩ rfl).1 1 (by decide) 0 (by decide) 0 (by decide) 0 []
  exact absurd hread (by decide)

theorem two_in_place_iff : (∀ w : AttnViews ℚ, w.layout = twoInPlace.layout → w.OneMemory → ∀ out yk yv,
      attentionKvPresent id id id oneHead w = .ok (out, some (yk, yv)) → w.ReadsNext yk yv) ↔
    twoInPlace.inPlace = false ∨ twoInPlace.q.dim 0 = 1 := by
  obtain ⟨out, hrun⟩ := twoInPlace_runs
  exact present_iff hrun

end Uaii.Kernels
