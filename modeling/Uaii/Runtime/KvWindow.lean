/-
  Uaii.Runtime.KvWindow — what the layers of one forward pass see of the cache.

  A decode step goes through the layers in order: each reads its past views, attends,
  and appends its own row (`dispatch_cpu`, `Attention`); `Session::run` commits at the
  end. `append_layer` makes room by compacting every layer and shortening the shared
  `past_len`, so once the window is full the first layer's append takes a token away
  from layers that have not read yet.

  Which token a number belongs to is a label on the elements (`tokenOf`).

  Proved: every run of decode steps succeeds, and its layers agree on the past in every
  step exactly when there is one layer or no step comes after the window has filled
  (`layers_agree_iff`).
-/

import Mathlib.Data.Set.Basic
import Uaii.Runtime.KvCache

namespace Uaii.Runtime

open Uaii.Kernels

variable {K : Type}

namespace KvCache

/-! ## A decode step -/

/-- The layers from `layer` on: the views each reads, then its append. -/
def decodeLayers (c : KvCache K) (layer : Nat) : List (TensorView K × TensorView K) →
    Result (List (TensorView K × TensorView K) × KvCache K)
  | [] => .ok ([], c)
  | (k, v) :: rest =>
    match c.appendLayer layer k v with
    | (.error e, _) => .error e
    | (.ok (), c') => do
      let (seen, c'') ← decodeLayers c' (layer + 1) rest
      .ok ((c.kView layer, c.vView layer) :: seen, c'')

def decodeStep (c : KvCache K) (rows : List (TensorView K × TensorView K)) :
    Result (List (TensorView K × TensorView K) × KvCache K) := do
  let (seen, c) ← decodeLayers c 0 rows
  .ok (seen, c.commitStep)

/-- Steps one after the other; what each layer of each step saw. -/
def decodeRun (c : KvCache K) : List (List (TensorView K × TensorView K)) →
    Result (List (List (TensorView K × TensorView K)) × KvCache K)
  | [] => .ok ([], c)
  | rows :: rest => do
    let (seen, c) ← decodeStep c rows
    let (more, c) ← decodeRun c rest
    .ok (seen :: more, c)

/-! ## Tokens -/

variable (tokenOf : K → Nat)

/-- The tokens a view shows. -/
def covers (t : TensorView K) : Set Nat := {τ | ∃ x ∈ t.f32, tokenOf x = τ}

/-- All the views show one set of tokens. -/
def SameTokens (seen : List (TensorView K × TensorView K)) : Prop :=
  ∃ P : Set Nat, ∀ s ∈ seen, covers tokenOf s.1 = P ∧ covers tokenOf s.2 = P

/-- A layer's K or V for one token: a row a batch index, all of it token `t`'s. -/
structure TokenRows (batch dim : Int) (t : Nat) (view : TensorView K) : Prop where
  dtype : view.dtype = .f32
  shape : view.shape = [batch, dim] ∨ view.shape = [batch, 1, dim]
  data : view.data.isSome
  length : view.f32.length = (batch * dim).toNat
  token : ∀ x ∈ view.f32, tokenOf x = t

/-- What the layers of step `t` append. -/
structure StepRows (c : KvCache K) (t : Nat) (rows : List (TensorView K × TensorView K)) : Prop where
  layers : rows.length = c.nLayers.toNat
  k : ∀ r ∈ rows, TokenRows tokenOf c.batch c.kDim t r.1
  v : ∀ r ∈ rows, TokenRows tokenOf c.batch c.vDim t r.2

/-- A stored row of token `τ`. -/
def IsRow (τ : Nat) (row : List K) : Prop := row ≠ [] ∧ ∀ x ∈ row, tokenOf x = τ

/-- A layer's rows are the tokens `toks`, in order, in every batch row. -/
def Holds (c : KvCache K) (layer : Nat) (toks : List Nat) : Prop :=
  ∀ b : Nat, b < c.batch → ∀ p τ, toks[p]? = some τ → IsRow tokenOf τ (c.k layer b p) ∧ IsRow tokenOf τ (c.v layer b p)

/-- A cache whose committed tokens are `toks`, where the layers below `i` have appended
    token `t`. -/
structure Mid (c : KvCache K) (toks : List Nat) (t i : Nat) : Prop where
  wf : c.Wf
  length : (toks.length : Int) = c.pastLen
  holds : ∀ l : Nat, l < c.nLayers → Holds tokenOf c l (if l < i then toks ++ [t] else toks)
  room : 0 < i → c.pastLen + 1 ≤ c.maxSeq ∧ c.pendingSeq = 1

/-- The window without the token that compaction drops. -/
def slide (sink : Int) (toks : List Nat) : List Nat := toks.take sink.toNat ++ toks.drop (sink.toNat + 1)

/-! ## One append -/

theorem TokenRows.appendView {batch dim : Int} {t : Nat} {view : TensorView K} (h : TokenRows tokenOf batch dim t view) :
    AppendView batch 1 dim view := by
  refine ⟨h.dtype, ?_, h.data, ?_⟩
  · rcases h.shape with hs | hs
    · exact .inr ⟨rfl, hs⟩
    · exact .inl hs
  · rw [Int.mul_one]
    exact Nat.le_of_eq h.length.symm

/-- Appending a token's rows at a layer of the model never fails. -/
theorem appendLayer_token {c : KvCache K} (hc : c.Wf) {layer t : Nat} (hl : layer < c.nLayers) {k v : TensorView K}
    (hk : TokenRows tokenOf c.batch c.kDim t k) (hv : TokenRows tokenOf c.batch c.vDim t v) :
    c.appendLayer layer k v = (.ok (),
      { c.compactToFit 1 with
        k := writeRows layer c.batch (c.compactToFit 1).pastLen 1 c.kDim k.f32 (c.compactToFit 1).k
        v := writeRows layer c.batch (c.compactToFit 1).pastLen 1 c.vDim v.f32 (c.compactToFit 1).v
        pendingSeq := 1 }) := by
  have hroom : (1 : Int) ≤ c.maxSeq - c.sink := by
    have := hc.sink_lt
    omega
  exact appendLayer_step hc hl (show (0 : Int) ≤ 1 by omega) hroom hk.appendView hv.appendView

/-- Row `b` of a token's rows is that token's. -/
theorem rowOf_token {batch dim : Int} (hdim : 0 < dim) {t : Nat} {view : TensorView K}
    (h : TokenRows tokenOf batch dim t view) {b : Nat} (hb : b < batch) : IsRow tokenOf t (rowOf view.f32 dim b) := by
  have hlen : b * dim.toNat + dim.toNat ≤ view.f32.length := by
    have hle : (b + 1) * dim.toNat ≤ batch.toNat * dim.toNat := Nat.mul_le_mul_right _ (by omega)
    rw [h.length, Int.toNat_mul (by omega) (by omega)]
    rwa [Nat.succ_mul] at hle
  refine ⟨?_, fun x hx => h.token x (List.mem_of_mem_drop (List.mem_of_mem_take hx))⟩
  apply List.ne_nil_of_length_pos
  rw [rowOf, List.length_take, List.length_drop]
  omega

/-! ## The invariant -/

theorem slide_getElem? {sink : Nat} {toks : List Nat} (h : sink ≤ toks.length) (p : Nat) :
    (slide sink toks)[p]? = if p < sink then toks[p]? else toks[p + 1]? := by
  have hlen : (toks.take sink).length = sink := List.length_take_of_le h
  unfold slide
  rw [Int.toNat_natCast]
  split
  · next hp => rw [List.getElem?_append_left (by omega), List.getElem?_take_of_lt hp]
  · next hp =>
    rw [List.getElem?_append_right (by omega), List.getElem?_drop, hlen]
    congr 1
    omega

/-- What compaction does when the window is full. -/
theorem compactToFit_full {c : KvCache K} (hc : c.Wf) (h : c.pastLen = c.maxSeq) :
    c.compactToFit 1 = { c with
      k := moveRows c.sink 1 (c.maxSeq - c.sink - 1) c.k
      v := moveRows c.sink 1 (c.maxSeq - c.sink - 1) c.v
      pastLen := c.maxSeq - 1 } := by
  have hlt := hc.sink_lt
  have hmin : min c.sink c.maxSeq = c.sink := by omega
  have hdrop : c.maxSeq + 1 - c.maxSeq = 1 := by omega
  simp only [compactToFit, h, hmin, hdrop]
  rw [if_neg (by omega), if_neg (by omega), if_neg (by omega)]

/-- The tokens in the window once there is room for one more. -/
def window (c : KvCache K) (toks : List Nat) : List Nat :=
  if c.pastLen + 1 ≤ c.maxSeq then toks else slide c.sink toks

variable {tokenOf}

/-- Making room drops one token from a full window, in every layer. -/
theorem Mid.compact {c : KvCache K} {toks : List Nat} {t i : Nat} (h : Mid tokenOf c toks t i) :
    Mid tokenOf (c.compactToFit 1) (c.window toks) t i ∧ (c.compactToFit 1).pastLen + 1 ≤ c.maxSeq := by
  by_cases hroom : c.pastLen + 1 ≤ c.maxSeq
  · rw [compactToFit_of_fits hroom, window, if_pos hroom]
    exact ⟨h, hroom⟩
  · have hwf := h.wf
    have hpast : c.pastLen = c.maxSeq := by have := hwf.past_le; omega
    have hi : i = 0 := by
      rcases Nat.eq_zero_or_pos i with hi | hi
      · exact hi
      · exact absurd (h.room hi).1 hroom
    subst hi
    obtain ⟨sink, hsink⟩ : ∃ s : Nat, c.sink = s := ⟨c.sink.toNat, by have := hwf.sink; omega⟩
    have hlt := hwf.sink_lt
    have hlen := h.length
    rw [window, if_neg hroom]
    have hslide := @slide_getElem? sink toks (by omega)
    refine ⟨⟨compactToFit_wf hwf 1, ?_, ?_, fun h0 => absurd h0 (by omega)⟩, ?_⟩
    · rw [compactToFit_full hwf hpast, hsink]
      simp only [slide, List.length_append, List.length_take, List.length_drop, Int.toNat_natCast]
      omega
    · rw [compactToFit_full hwf hpast, hsink]
      intro l hl b hb p τ hp
      simp only [Nat.not_lt_zero, if_false, hslide] at hp
      have hrows := h.holds l hl b hb
      simp only [Nat.not_lt_zero, if_false] at hrows
      simp only [moveRows, Int.toNat_one]
      by_cases hps : p < sink
      · rw [if_pos hps] at hp
        rw [if_neg (by omega), if_neg (by omega)]
        exact hrows p τ hp
      · rw [if_neg hps] at hp
        have hlt : p + 1 < toks.length := (List.getElem?_eq_some_iff.mp hp).1
        rw [if_pos (by omega), if_pos (by omega)]
        exact hrows (p + 1) τ hp
    · rw [compactToFit_full hwf hpast]
      show c.maxSeq - 1 + 1 ≤ c.maxSeq
      omega

/-- A layer's append adds its token to that layer and to no other. -/
theorem Mid.append {c : KvCache K} {toks : List Nat} {t i : Nat} (h : Mid tokenOf c toks t i) (hi : i < c.nLayers)
    {k v : TensorView K} (hk : TokenRows tokenOf c.batch c.kDim t k) (hv : TokenRows tokenOf c.batch c.vDim t v) :
    ∃ c', c.appendLayer i k v = (.ok (), c') ∧ c'.dims = c.dims ∧ Mid tokenOf c' (c.window toks) t (i + 1) := by
  obtain ⟨hmid, hroom⟩ := h.compact
  have hdims := compactToFit_dims c 1
  refine ⟨_, appendLayer_token tokenOf h.wf hi hk hv, hdims, ?_⟩
  generalize c.window toks = toks' at hmid ⊢
  generalize hc' : c.compactToFit 1 = c' at hmid hroom hdims ⊢
  obtain ⟨hn, hb, hm, hkd, hvd, -⟩ := dims_inj hdims
  have hwf := hmid.wf
  have hlen := hmid.length
  refine ⟨⟨hwf.layers, hwf.batch, hwf.kDim, hwf.vDim, hwf.sink, hwf.sink_lt, hwf.past, hwf.past_le⟩, hlen, ?_, ?_⟩
  · intro l hl b hb' p τ hp
    have hrows := hmid.holds l hl b hb'
    have hp0 : (c'.pastLen.toNat : Int) = c'.pastLen := Int.toNat_of_nonneg hwf.past
    by_cases hnew : l = i ∧ p = toks'.length
    · obtain ⟨rfl, rfl⟩ := hnew
      have hτ : τ = t := by simpa using hp.symm
      subst hτ
      have hb'' : (b : Int) < c.batch := hb ▸ hb'
      have hcell : l = ((l : Nat) : Int).toNat ∧ (b : Int) < c.batch ∧ c'.pastLen ≤ (toks'.length : Int) ∧
          (toks'.length : Int) < c'.pastLen + 1 := ⟨by omega, hb'', by omega, by omega⟩
      have hidx : b * (1 : Int).toNat + (toks'.length - c'.pastLen.toNat) = b := by
        rw [show toks'.length - c'.pastLen.toNat = 0 by omega, Int.toNat_one]; omega
      simp only [writeRows, if_pos hcell, hidx]
      exact ⟨rowOf_token tokenOf h.wf.kDim hk hb'', rowOf_token tokenOf h.wf.vDim hv hb''⟩
    · have hold : (if l < i then toks' ++ [t] else toks')[p]? = some τ := by
        rcases Nat.lt_trichotomy l i with hli | rfl | hli
        · rwa [if_pos (by omega)] at hp ⊢
        · rw [if_pos (by omega)] at hp
          rw [if_neg (by omega)]
          rwa [List.getElem?_append_left] at hp
          have := (List.getElem?_eq_some_iff.mp hp).1
          simp only [List.length_append, List.length_singleton] at this
          omega
        · rwa [if_neg (by omega)] at hp ⊢
      have hcell : ¬ (l = ((i : Nat) : Int).toNat ∧ (b : Int) < c.batch ∧ c'.pastLen ≤ (p : Int) ∧
          (p : Int) < c'.pastLen + 1) := by omega
      simp only [writeRows, if_neg hcell]
      exact hrows p τ hold
  · intro _
    exact ⟨by show c'.pastLen + 1 ≤ c'.maxSeq; omega, rfl⟩

/-! ## What a layer sees -/

/-- The rows of a layer's past show the window's tokens. -/
theorem mem_pastRows {c : KvCache K} {toks : List Nat} {l : Nat} {rows : Rows K} (hb : 0 < c.batch)
    (hlen : (toks.length : Int) = c.pastLen)
    (hrows : ∀ b : Nat, b < c.batch → ∀ p τ, toks[p]? = some τ → IsRow tokenOf τ (rows l b p)) (τ : Nat) :
    (∃ x ∈ c.pastRows rows l, tokenOf x = τ) ↔ τ ∈ toks := by
  constructor
  · rintro ⟨x, hx, rfl⟩
    obtain ⟨b, hb', hx⟩ := List.mem_flatMap.mp hx
    obtain ⟨p, hp, hx⟩ := List.mem_flatMap.mp hx
    simp only [List.mem_range] at hb' hp
    have hp' : p < toks.length := by omega
    have htok := (hrows b (by omega) p toks[p] (List.getElem?_eq_getElem hp')).2 x (by simpa using hx)
    rw [htok]
    exact List.getElem_mem hp'
  · intro hτ
    obtain ⟨p, hp, rfl⟩ := List.mem_iff_getElem.mp hτ
    obtain ⟨hne, htok⟩ := hrows 0 (by omega) p toks[p] (List.getElem?_eq_getElem hp)
    obtain ⟨x, hx⟩ := List.exists_mem_of_ne_nil _ hne
    refine ⟨x, List.mem_flatMap.mpr ⟨0, List.mem_range.mpr (by omega), ?_⟩, htok x hx⟩
    exact List.mem_flatMap.mpr ⟨p, List.mem_range.mpr (by omega), by simpa using hx⟩

theorem covers_pastView {c : KvCache K} (hc : c.Wf) {toks : List Nat} {l : Nat} (hl : l < c.nLayers) {rows : Rows K}
    {dim : Int} (hlen : (toks.length : Int) = c.pastLen)
    (hrows : ∀ b : Nat, b < c.batch → ∀ p τ, toks[p]? = some τ → IsRow tokenOf τ (rows l b p)) :
    covers tokenOf (c.makePastView rows l dim) = {τ | τ ∈ toks} := by
  have hconf : c.configured = true := by simpa [configured] using hc.layers
  by_cases hempty : c.pastLen ≤ 0
  · have hnil : toks = [] := List.length_eq_zero_iff.mp (by omega)
    unfold makePastView covers
    rw [if_pos (by simp [hempty])]
    simp [hnil, TensorView.null, TensorView.f32]
  · unfold makePastView covers
    rw [if_neg (by simp [hconf, hempty]; omega)]
    ext τ
    exact mem_pastRows hc.batch hlen hrows τ

/-- A layer that has not appended yet sees the window's tokens, in K and in V. -/
theorem Mid.covers {c : KvCache K} {toks : List Nat} {t i : Nat} (h : Mid tokenOf c toks t i) (hi : i < c.nLayers) :
    covers tokenOf (c.kView i) = {τ | τ ∈ toks} ∧ covers tokenOf (c.vView i) = {τ | τ ∈ toks} := by
  have hrows := h.holds i hi
  rw [if_neg (lt_irrefl i)] at hrows
  exact ⟨covers_pastView h.wf hi h.length fun b hb p τ hp => (hrows b hb p τ hp).1,
    covers_pastView h.wf hi h.length fun b hb p τ hp => (hrows b hb p τ hp).2⟩

/-- All layers have appended: the commit makes the token part of the past. -/
theorem Mid.commit {c : KvCache K} {toks : List Nat} {t t' : Nat} (h : Mid tokenOf c toks t c.nLayers.toNat) :
    Mid tokenOf c.commitStep (toks ++ [t]) t' 0 := by
  have hwf := h.wf
  obtain ⟨hroom, hpend⟩ := h.room (by have := hwf.layers; omega)
  have hlen := h.length
  have hpast := hwf.past
  refine ⟨⟨hwf.layers, hwf.batch, hwf.kDim, hwf.vDim, hwf.sink, hwf.sink_lt, ?_, ?_⟩, ?_, ?_, fun h0 => absurd h0 (by omega)⟩
  · show 0 ≤ c.pastLen + c.pendingSeq
    omega
  · show c.pastLen + c.pendingSeq ≤ c.maxSeq
    omega
  · show ((toks ++ [t]).length : Int) = c.pastLen + c.pendingSeq
    simp only [List.length_append, List.length_singleton]
    omega
  · intro l hl
    have hrows := h.holds l hl
    have hl' : (l : Int) < c.nLayers := hl
    rw [if_pos (by omega)] at hrows
    rw [if_neg (by omega)]
    exact hrows

/-! ## Layers and steps -/

theorem StepRows.congr_dims {c c' : KvCache K} (hd : c'.dims = c.dims) {t : Nat}
    {rows : List (TensorView K × TensorView K)} (h : StepRows tokenOf c t rows) : StepRows tokenOf c' t rows := by
  obtain ⟨hn, hb, -, hkd, hvd, -⟩ := dims_inj hd
  exact ⟨hn ▸ h.layers, by rw [hb, hkd]; exact h.k, by rw [hb, hvd]; exact h.v⟩

/-- From layer `i` on, once there is room: every layer sees the same window. -/
theorem decodeLayers_room {t : Nat} {toks : List Nat} :
    ∀ (rows : List (TensorView K × TensorView K)) (c : KvCache K) (i : Nat), Mid tokenOf c toks t i →
      c.pastLen + 1 ≤ c.maxSeq → i + rows.length = c.nLayers.toNat →
      (∀ r ∈ rows, TokenRows tokenOf c.batch c.kDim t r.1 ∧ TokenRows tokenOf c.batch c.vDim t r.2) →
      ∃ seen c', decodeLayers c i rows = .ok (seen, c') ∧ c'.dims = c.dims ∧ Mid tokenOf c' toks t c.nLayers.toNat ∧
        seen.length = rows.length ∧ ∀ s ∈ seen, KvCache.covers tokenOf s.1 = {τ | τ ∈ toks} ∧ KvCache.covers tokenOf s.2 = {τ | τ ∈ toks} := by
  intro rows
  induction rows with
  | nil =>
    intro c i h _ hi _
    obtain rfl : i = c.nLayers.toNat := by simpa using hi
    exact ⟨[], c, rfl, rfl, h, rfl, by simp⟩
  | cons r rows ih =>
    intro c i h hroom hi hrows
    obtain ⟨k, v⟩ := r
    simp only [List.length_cons] at hi
    have hn : i < c.nLayers := by omega
    obtain ⟨hk, hv⟩ := hrows (k, v) (by simp)
    obtain ⟨c', happ, hd, hmid⟩ := h.append hn hk hv
    rw [window, if_pos hroom] at hmid
    obtain ⟨hn', hb', -, hkd', hvd', -⟩ := dims_inj hd
    have hrest : ∀ r ∈ rows, TokenRows tokenOf c'.batch c'.kDim t r.1 ∧ TokenRows tokenOf c'.batch c'.vDim t r.2 := by
      rw [hb', hkd', hvd']
      exact fun r hr => hrows r (List.mem_cons_of_mem _ hr)
    obtain ⟨seen, c'', hlayers, hd'', hmid', hlen, hseen⟩ :=
      ih c' (i + 1) hmid (hmid.room (by omega)).1 (by rw [hn']; omega) hrest
    refine ⟨(c.kView i, c.vView i) :: seen, c'', ?_, hd''.trans hd, hn' ▸ hmid', by simp [hlen], ?_⟩
    · simp only [decodeLayers, happ, hlayers, ok_bind]
    · intro s hs
      rcases List.mem_cons.mp hs with rfl | hs
      · exact h.covers hn
      · exact hseen s hs

/-- A whole step: layer 0 sees the past as committed, the others what is left of it once
    there is room. -/
theorem decodeStep_seen {c : KvCache K} {toks : List Nat} {t : Nat} (h : Mid tokenOf c toks t 0)
    {rows : List (TensorView K × TensorView K)} (hrows : StepRows tokenOf c t rows) :
    ∃ s₀ seen c', decodeStep c rows = .ok (s₀ :: seen, c') ∧ c'.dims = c.dims ∧
      (∀ t', Mid tokenOf c' (c.window toks ++ [t]) t' 0) ∧ seen.length + 1 = c.nLayers.toNat ∧
      (KvCache.covers tokenOf s₀.1 = {τ | τ ∈ toks} ∧ KvCache.covers tokenOf s₀.2 = {τ | τ ∈ toks}) ∧
      ∀ s ∈ seen, KvCache.covers tokenOf s.1 = {τ | τ ∈ c.window toks} ∧
        KvCache.covers tokenOf s.2 = {τ | τ ∈ c.window toks} := by
  have hlayers := h.wf.layers
  have hl := hrows.layers
  cases rows with
  | nil => simp only [List.length_nil] at hl; omega
  | cons r rows =>
    obtain ⟨k, v⟩ := r
    obtain ⟨c', happ, hd, hmid⟩ := h.append hlayers (hrows.k (k, v) (by simp)) (hrows.v (k, v) (by simp))
    obtain ⟨hn', hb', -, hkd', hvd', -⟩ := dims_inj hd
    simp only [List.length_cons] at hl
    have hrest : ∀ r ∈ rows, TokenRows tokenOf c'.batch c'.kDim t r.1 ∧ TokenRows tokenOf c'.batch c'.vDim t r.2 := by
      rw [hb', hkd', hvd']
      exact fun r hr => ⟨hrows.k r (List.mem_cons_of_mem _ hr), hrows.v r (List.mem_cons_of_mem _ hr)⟩
    obtain ⟨seen, c'', hdec, hd'', hmid', hlen, hseen⟩ :=
      decodeLayers_room rows c' 1 hmid (hmid.room (by omega)).1 (by rw [hn']; omega) hrest
    refine ⟨(c.kView 0, c.vView 0), seen, c''.commitStep, ?_, ?_, ?_, ?_, h.covers hlayers, hseen⟩
    · simp only [decodeStep, decodeLayers, happ, Nat.zero_add, hdec, ok_bind]
      rfl
    · exact hd''.trans hd
    · intro t'
      exact Mid.commit ((dims_inj hd'').1 ▸ hmid')
    · omega

/-! ## Runs -/

variable (tokenOf) in
/-- A run's inputs from step `t` on. -/
def RunRows (c : KvCache K) (t : Nat) (steps : List (List (TensorView K × TensorView K))) : Prop :=
  ∀ i rows, steps[i]? = some rows → StepRows tokenOf c (t + i) rows

theorem RunRows.head {c : KvCache K} {t : Nat} {rows : List (TensorView K × TensorView K)}
    {rest : List (List (TensorView K × TensorView K))} (h : RunRows tokenOf c t (rows :: rest)) :
    StepRows tokenOf c t rows := h 0 rows rfl

theorem RunRows.tail {c c' : KvCache K} (hd : c'.dims = c.dims) {t : Nat} {rows : List (TensorView K × TensorView K)}
    {rest : List (List (TensorView K × TensorView K))} (h : RunRows tokenOf c t (rows :: rest)) :
    RunRows tokenOf c' (t + 1) rest := by
  intro i r hr
  have := (h (i + 1) r hr).congr_dims hd
  rwa [show t + (i + 1) = t + 1 + i by omega] at this

theorem decodeRun_cons {c c' c'' : KvCache K} {rows : List (TensorView K × TensorView K)}
    {rest : List (List (TensorView K × TensorView K))} {seen : List (TensorView K × TensorView K)}
    {more : List (List (TensorView K × TensorView K))} (h : decodeStep c rows = .ok (seen, c'))
    (h' : decodeRun c' rest = .ok (more, c'')) : decodeRun c (rows :: rest) = .ok (seen :: more, c'') := by
  simp only [decodeRun, h, h', ok_bind]

theorem decodeRun_append {c c' c'' : KvCache K} {xs ys : List (List (TensorView K × TensorView K))} :
    ∀ {seen more : List (List (TensorView K × TensorView K))}, decodeRun c xs = .ok (seen, c') →
      decodeRun c' ys = .ok (more, c'') → decodeRun c (xs ++ ys) = .ok (seen ++ more, c'') := by
  induction xs generalizing c with
  | nil => intro seen more h h'; cases h; exact h'
  | cons x xs ih =>
    intro seen more h h'
    obtain ⟨⟨s₀, c₁⟩, hstep, h⟩ := bind_ok h
    obtain ⟨⟨s₁, c₂⟩, hrest, h⟩ := bind_ok h
    cases h
    exact decodeRun_cons hstep (ih hrest h')

/-- No step fails, and a single layer agrees with itself. -/
theorem decodeRun_succeeds : ∀ (steps : List (List (TensorView K × TensorView K))) (c : KvCache K) (toks : List Nat)
    (t : Nat), Mid tokenOf c toks t 0 → RunRows tokenOf c t steps →
    ∃ seen c', decodeRun c steps = .ok (seen, c') ∧ (c.nLayers ≤ 1 → ∀ s ∈ seen, SameTokens tokenOf s) := by
  intro steps
  induction steps with
  | nil => intro c toks t _ _; exact ⟨[], c, rfl, by simp⟩
  | cons rows steps ih =>
    intro c toks t h hrun
    obtain ⟨s₀, seen, c', hstep, hd, hmid, hcount, hfirst, -⟩ := decodeStep_seen h hrun.head
    obtain ⟨more, c'', hrest, hone⟩ := ih c' _ (t + 1) (hmid _) (hrun.tail hd)
    refine ⟨(s₀ :: seen) :: more, c'', decodeRun_cons hstep hrest, ?_⟩
    intro hn s hs
    rcases List.mem_cons.mp hs with rfl | hs
    · obtain rfl : seen = [] := List.length_eq_zero_iff.mp (by omega)
      refine ⟨{τ | τ ∈ toks}, fun s hs => ?_⟩
      obtain rfl := List.mem_singleton.mp hs
      exact hfirst
    · exact hone ((dims_inj hd).1 ▸ hn) s hs

/-- While the window has room for the run, every layer sees every token before. -/
theorem decodeRun_fits : ∀ (steps : List (List (TensorView K × TensorView K))) (c : KvCache K) (t : Nat),
    Mid tokenOf c (List.range t) t 0 → (t + steps.length : Int) ≤ c.maxSeq → RunRows tokenOf c t steps →
    ∃ seen c', decodeRun c steps = .ok (seen, c') ∧ c'.dims = c.dims ∧
      Mid tokenOf c' (List.range (t + steps.length)) (t + steps.length) 0 ∧ ∀ s ∈ seen, SameTokens tokenOf s := by
  intro steps
  induction steps with
  | nil => intro c t h _ _; exact ⟨[], c, rfl, rfl, h, by simp⟩
  | cons rows steps ih =>
    intro c t h hfits hrun
    simp only [List.length_cons] at hfits ⊢
    have hpast : c.pastLen = t := by have := h.length; simpa using this.symm
    have hwindow : c.window (List.range t) = List.range t := if_pos (by omega)
    obtain ⟨s₀, seen, c', hstep, hd, hmid, -, hfirst, hseen⟩ := decodeStep_seen h hrun.head
    rw [hwindow] at hmid hseen
    rw [← List.range_succ] at hmid
    obtain ⟨more, c'', hrest, hd', hmid', hmore⟩ := ih c' (t + 1) (hmid _)
      (by rw [(dims_inj hd).2.2.1]; omega) (hrun.tail hd)
    refine ⟨(s₀ :: seen) :: more, c'', decodeRun_cons hstep hrest, hd'.trans hd, ?_, ?_⟩
    · rwa [show t + 1 + steps.length = t + (steps.length + 1) by omega] at hmid'
    · intro s hs
      rcases List.mem_cons.mp hs with rfl | hs
      · refine ⟨{τ | τ ∈ List.range t}, fun s hs => ?_⟩
        rcases List.mem_cons.mp hs with rfl | hs
        · exact hfirst
        · exact hseen s hs
      · exact hmore s hs

/-- The step after the window has filled: layer 0 still sees the token that the others
    have lost. -/
theorem decodeStep_full {c : KvCache K} {t : Nat} (h : Mid tokenOf c (List.range t) t 0) (hfull : (t : Int) = c.maxSeq)
    (hn : 1 < c.nLayers) {rows : List (TensorView K × TensorView K)} (hrows : StepRows tokenOf c t rows)
    {seen : List (TensorView K × TensorView K)} {c' : KvCache K} (hstep : decodeStep c rows = .ok (seen, c')) :
    ¬ SameTokens tokenOf seen := by
  obtain ⟨s₀, rest, c'', hstep', -, -, hcount, hfirst, hrest⟩ := decodeStep_seen h hrows
  obtain ⟨rfl, rfl⟩ : s₀ :: rest = seen ∧ c'' = c' := by simpa [hstep'] using hstep
  have hwf := h.wf
  have hsink := hwf.sink
  have hlt := hwf.sink_lt
  have hpast : c.pastLen = t := by have := h.length; simpa using this.symm
  rintro ⟨P, hP⟩
  cases rest with
  | nil => simp only [List.length_nil] at hcount; omega
  | cons s₁ rest =>
    have h0 := (hP s₀ (by simp)).1.symm.trans hfirst.1
    have h1 := (hP s₁ (by simp)).1.symm.trans (hrest s₁ (by simp)).1
    have hmem : c.sink.toNat ∈ List.range t := List.mem_range.mpr (by omega)
    have hlost : c.sink.toNat ∉ c.window (List.range t) := by
      rw [window, if_neg (by omega), slide, List.take_range, List.mem_append, not_or]
      constructor
      · simp only [List.mem_range]; omega
      · intro hd
        obtain ⟨i, hi, heq⟩ := List.mem_iff_getElem.mp hd
        simp only [List.getElem_drop, List.getElem_range] at heq
        omega
    have heq : c.sink.toNat ∈ ({τ | τ ∈ c.window (List.range t)} : Set Nat) := by
      rw [← h1, h0]; exact hmem
    exact hlost heq

/-- A configured cache, empty. -/
theorem configure_mid [Zero K] {c c₀ : KvCache K} {nLayers batch maxSeq kDim vDim nHeads sink : Int}
    (h : c.configure nLayers batch maxSeq kDim vDim nHeads sink = .ok c₀) : Mid tokenOf c₀ (List.range 0) 0 0 := by
  obtain ⟨hwf, hpast⟩ := configure_wf h
  refine ⟨hwf, by rw [hpast]; rfl, ?_, fun h0 => absurd h0 (by omega)⟩
  intro l _ b _ p τ hp
  simp at hp

/-- For any configuration and any run of one-token steps: the run succeeds, and in every
    step all layers see the same tokens exactly when there is one layer or the run ends
    by the time the window is full. -/
theorem layers_agree_iff [Zero K] (tokenOf : K → Nat) (c c₀ : KvCache K) (nLayers batch maxSeq kDim vDim nHeads sink : Int)
    (hc : c.configure nLayers batch maxSeq kDim vDim nHeads sink = .ok c₀)
    (steps : List (List (TensorView K × TensorView K))) (hsteps : RunRows tokenOf c₀ 0 steps) :
    ∃ seen c', decodeRun c₀ steps = .ok (seen, c') ∧
      ((∀ s ∈ seen, SameTokens tokenOf s) ↔ nLayers ≤ 1 ∨ (steps.length : Int) ≤ maxSeq) := by
  have hmid : Mid tokenOf c₀ (List.range 0) 0 0 := configure_mid hc
  obtain ⟨hn, hm⟩ : c₀.nLayers = nLayers ∧ c₀.maxSeq = maxSeq := by
    unfold configure at hc
    split at hc
    · exact absurd hc (fail_ne_ok _ _ _)
    · split at hc
      · exact absurd hc (fail_ne_ok _ _ _)
      · cases hc; exact ⟨rfl, rfl⟩
  rw [← hn, ← hm]
  by_cases hone : c₀.nLayers ≤ 1
  · obtain ⟨seen, c', hrun, hsame⟩ := decodeRun_succeeds steps c₀ _ 0 hmid hsteps
    exact ⟨seen, c', hrun, iff_of_true (hsame hone) (Or.inl hone)⟩
  · by_cases hfits : (steps.length : Int) ≤ c₀.maxSeq
    · obtain ⟨seen, c', hrun, -, -, hsame⟩ := decodeRun_fits steps c₀ 0 hmid (by omega) hsteps
      exact ⟨seen, c', hrun, iff_of_true hsame (Or.inr hfits)⟩
    · -- the first `max_seq` steps fit; the next one does not
      obtain ⟨n, hn⟩ : ∃ n : Nat, c₀.maxSeq = n := ⟨c₀.maxSeq.toNat, by have := hmid.wf.sink; have := hmid.wf.sink_lt; omega⟩
      have hlen : (steps.take n).length = n := List.length_take_of_le (by omega)
      obtain ⟨seen, c', hrun, hd, hmid', -⟩ := decodeRun_fits (steps.take n) c₀ 0 hmid (by rw [hlen]; omega)
        (fun i rows hi => hsteps i rows (by
          have hin : i < n := by have := (List.getElem?_eq_some_iff.mp hi).1; omega
          rwa [List.getElem?_take_of_lt hin] at hi))
      rw [hlen, Nat.zero_add] at hmid'
      have hrest : RunRows tokenOf c' n (steps.drop n) := by
        intro i rows hi
        rw [List.getElem?_drop] at hi
        have := (hsteps _ rows hi).congr_dims hd
        rwa [Nat.zero_add] at this
      obtain ⟨x, xs, hx⟩ : ∃ x xs, steps.drop n = x :: xs :=
        List.exists_cons_of_ne_nil (List.ne_nil_of_length_pos (by rw [List.length_drop]; omega))
      rw [hx] at hrest
      obtain ⟨s₀, more₀, c₁, hstep, hd₁, hmid₁, -, -, -⟩ := decodeStep_seen hmid' hrest.head
      obtain ⟨more, c₂, hrun₂, -⟩ := decodeRun_succeeds xs c₁ _ (n + 1) (hmid₁ _) (hrest.tail hd₁)
      have hall := decodeRun_append hrun (decodeRun_cons hstep hrun₂)
      rw [← hx, List.take_append_drop] at hall
      refine ⟨_, _, hall, iff_of_false ?_ (by omega)⟩
      intro hsame
      obtain ⟨hn', -, hm', -⟩ := dims_inj hd
      exact decodeStep_full hmid' (by rw [hm']; omega) (by rw [hn']; omega) hrest.head hstep
        (hsame _ (List.mem_append_right _ (by simp)))

/-! ## Two layers -/

/-- One batch row, one float, whose value is the token's number. -/
def tokenView (t : Nat) : TensorView Int := .ofF32 [1, 1] [(t : Int)]

def twoLayerStep (t : Nat) : List (TensorView Int × TensorView Int) :=
  [(tokenView t, tokenView t), (tokenView t, tokenView t)]

def twoLayers (maxSeq : Int) : KvCache Int := ⟨2, 1, maxSeq, 1, 1, 1, 0, 0, 0, 0, 0, zeroRows 1, zeroRows 1⟩

theorem twoLayers_configure :
    (unconfigured : KvCache Int).configure 2 1 1 1 1 1 0 = .ok (twoLayers 1) ∧
      (unconfigured : KvCache Int).configure 2 1 4 1 1 1 0 = .ok (twoLayers 4) := ⟨rfl, rfl⟩

theorem twoLayerStep_rows {c : KvCache Int} (hn : c.nLayers = 2) (hb : c.batch = 1) (hk : c.kDim = 1) (hv : c.vDim = 1)
    (t : Nat) : StepRows Int.toNat c t (twoLayerStep t) := by
  have hview : TokenRows Int.toNat 1 1 t (tokenView t) :=
    ⟨rfl, Or.inl rfl, rfl, rfl, by simp [tokenView, TensorView.ofF32, TensorView.f32]⟩
  refine ⟨by rw [hn]; rfl, ?_, ?_⟩
  all_goals
    intro r hr
    obtain rfl : r = (tokenView t, tokenView t) := by simpa [twoLayerStep] using hr
  · rw [hb, hk]; exact hview
  · rw [hb, hv]; exact hview

/-- A window of one token, two steps: in the second, layer 0 sees token 0 and layer 1
    sees nothing. -/
theorem second_layer_misses_a_token :
    ∃ (c₀ c' : KvCache Int) (steps seen : List (List (TensorView Int × TensorView Int))),
      unconfigured.configure 2 1 1 1 1 1 0 = .ok c₀ ∧ RunRows Int.toNat c₀ 0 steps ∧
      decodeRun c₀ steps = .ok (seen, c') ∧ ¬ ∀ s ∈ seen, SameTokens Int.toNat s := by
  refine ⟨twoLayers 1, _, [twoLayerStep 0, twoLayerStep 1], _, twoLayers_configure.1, ?_, rfl, ?_⟩
  · intro i rows hi
    match i, hi with
    | 0, hi => cases hi; exact twoLayerStep_rows rfl rfl rfl rfl 0
    | 1, hi => cases hi; exact twoLayerStep_rows rfl rfl rfl rfl 1
  · intro hsame
    obtain ⟨P, hP⟩ := hsame _ (List.mem_cons_of_mem _ List.mem_cons_self)
    have h0 : 0 ∈ P := by
      rw [← (hP _ List.mem_cons_self).1]
      exact ⟨0, by decide, rfl⟩
    rw [← (hP _ (List.mem_cons_of_mem _ List.mem_cons_self)).1] at h0
    obtain ⟨x, hx, -⟩ := h0
    revert hx
    exact List.not_mem_nil

/-- The same steps in a window of four: every layer sees every earlier token. -/
theorem two_layers_agree_in_four :
    ∃ seen c', decodeRun (twoLayers 4) [twoLayerStep 0, twoLayerStep 1] = .ok (seen, c') ∧
      ∀ s ∈ seen, SameTokens Int.toNat s := by
  obtain ⟨seen, c', hrun, hiff⟩ := layers_agree_iff Int.toNat unconfigured (twoLayers 4) 2 1 4 1 1 1 0
    twoLayers_configure.2 [twoLayerStep 0, twoLayerStep 1] (by
      intro i rows hi
      match i, hi with
      | 0, hi => cases hi; exact twoLayerStep_rows rfl rfl rfl rfl 0
      | 1, hi => cases hi; exact twoLayerStep_rows rfl rfl rfl rfl 1)
  exact ⟨seen, c', hrun, hiff.mpr (Or.inr (by decide))⟩

end KvCache

end Uaii.Runtime
