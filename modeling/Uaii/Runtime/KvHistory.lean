/-
  Uaii.Runtime.KvHistory — what the cache shows of all it was ever given.

  A step appends the same number of tokens to every layer, in any order of the layers,
  and commits. The first append makes room in every layer; the others find it made.

  Proved: after any run of steps of at most `max_seq - sink` tokens, every layer and
  batch row shows its history through the window (`window_law`), in the storage as the
  code lays it out.
-/

import Mathlib.Data.List.Nodup
import Mathlib.Data.List.Range
import Uaii.Lib.Sliding
import Uaii.Runtime.KvStore

namespace Uaii.Runtime

open Uaii.Kernels Sliding
open KvCache (AppendView)

variable {K σ : Type}

/-! ## Runs -/

structure LayerAppend (K : Type) where
  layer : Nat
  k : TensorView K
  v : TensorView K

structure AppendStep (K : Type) where
  seq : Nat
  appends : List (LayerAppend K)

/-- Calls of `append_layer`, up to the first that fails. -/
def appendAll (append : σ → Int → TensorView K → TensorView K → Result Unit × σ) (c : σ) : List (LayerAppend K) → Result σ
  | [] => .ok c
  | a :: rest =>
    match append c a.layer a.k a.v with
    | (.error e, _) => .error e
    | (.ok (), c) => appendAll append c rest

/-- Steps, each committed. -/
def runSteps (append : σ → Int → TensorView K → TensorView K → Result Unit × σ) (commit : σ → σ) (c : σ) :
    List (AppendStep K) → Result σ
  | [] => .ok c
  | s :: rest => do
    let c ← appendAll append c s.appends
    runSteps append commit (commit c) rest

/-- Every layer is appended once, and the tokens fit beside the sink. -/
structure StepFits (nLayers batch maxSeq kDim vDim sink : Int) (s : AppendStep K) : Prop where
  seq : (s.seq : Int) ≤ maxSeq - sink
  layers : (s.appends.map (·.layer)).Perm (List.range nLayers.toNat)
  k : ∀ a ∈ s.appends, AppendView batch s.seq kDim a.k
  v : ∀ a ∈ s.appends, AppendView batch s.seq vDim a.v

/-- The rows of a view for one batch row, a row a token. -/
def newRows (seq : Nat) (dim : Int) (t : TensorView K) (b : Nat) : List (List K) :=
  (List.range seq).map fun s => KvCache.rowOf t.f32 dim (b * seq + s)

/-- What these calls append to a layer's batch row. -/
def appended (side : LayerAppend K → TensorView K) (dim : Int) (seq : Nat) (appends : List (LayerAppend K)) (layer b : Nat) :
    List (List K) := (appends.filter (·.layer == layer)).flatMap fun a => newRows seq dim (side a) b

/-- All the rows that were ever appended to a layer's batch row, in order. -/
def history (side : LayerAppend K → TensorView K) (dim : Int) (steps : List (AppendStep K)) (layer b : Nat) :
    List (List K) := steps.flatMap fun s => appended side dim s.seq s.appends layer b

def totalSeq (steps : List (AppendStep K)) : Nat := (steps.map (·.seq)).sum

/-- A past view that shows these rows, batch row after batch row. -/
def rowsView (batch past dim : Int) (rows : Nat → List (List K)) : TensorView K :=
  if past ≤ 0 then .null
  else .ofF32 [batch, past, dim] ((List.range batch.toNat).flatMap fun b => (rows b).flatten)

namespace KvCache

/-! ## One append -/

/-- The rows from position 0 on. -/
def Shows (rows : Nat → List K) (w : List (List K)) : Prop := ∀ p r, w[p]? = some r → rows p = r

/-- What compaction does to make room for a step that fits beside the sink. -/
theorem compactToFit_step {c : KvCache K} {seq : Int} (hseq : seq ≤ c.maxSeq - c.sink)
    (hfull : c.maxSeq < c.pastLen + seq) : c.compactToFit seq =
      { c with
        k := moveRows c.sink (c.pastLen + seq - c.maxSeq) (c.maxSeq - seq - c.sink) c.k
        v := moveRows c.sink (c.pastLen + seq - c.maxSeq) (c.maxSeq - seq - c.sink) c.v
        pastLen := c.maxSeq - seq } := by
  have hkeep : min c.sink c.pastLen = c.sink := by omega
  have htail : c.pastLen - c.sink - (c.pastLen + seq - c.maxSeq) = c.maxSeq - seq - c.sink := by omega
  have hpast : c.pastLen - (c.pastLen + seq - c.maxSeq) = c.maxSeq - seq := by omega
  unfold compactToFit
  dsimp only
  rw [if_neg (by omega), hkeep, if_neg (show ¬ c.pastLen - c.sink < c.pastLen + seq - c.maxSeq by omega),
    if_neg (by omega), htail, hpast]

theorem moveRows_shows {rows : Rows K} {l b keep drop tail : Nat} {w : List (List K)} (hkeep : keep ≤ w.length)
    (htail : w.length ≤ keep + drop + tail) (h : Shows (rows l b) w) :
    Shows (moveRows keep drop tail rows l b) (w.take keep ++ w.drop (keep + drop)) := by
  intro p r hr
  have hlen : (w.take keep).length = keep := List.length_take_of_le hkeep
  unfold moveRows
  by_cases hp : p < keep
  · rw [if_neg (by omega)]
    rw [List.getElem?_append_left (by omega), List.getElem?_take_of_lt hp] at hr
    exact h p r hr
  · rw [List.getElem?_append_right (by omega), hlen, List.getElem?_drop] at hr
    have hlt := (List.getElem?_eq_some_iff.mp hr).1
    rw [if_pos (by omega), Int.toNat_natCast]
    refine h _ r ?_
    rwa [show keep + drop + (p - keep) = p + drop by omega] at hr

/-- Every layer and batch row after room has been made. -/
theorem compactToFit_shows {c : KvCache K} (hc : c.Wf) {seq : Nat} (hseq : (seq : Int) ≤ c.maxSeq - c.sink)
    {w : List (List K)} (hw : (w.length : Int) = c.pastLen) (l b : Nat) :
    (Shows (c.k l b) w → Shows ((c.compactToFit seq).k l b) (makeRoom c.sink.toNat c.maxSeq.toNat seq w)) ∧
      (Shows (c.v l b) w → Shows ((c.compactToFit seq).v l b) (makeRoom c.sink.toNat c.maxSeq.toNat seq w)) ∧
      ((makeRoom c.sink.toNat c.maxSeq.toNat seq w).length : Int) = (c.compactToFit seq).pastLen := by
  have hsink := hc.sink
  have hlt := hc.sink_lt
  have hle := hc.past_le
  have hlen := makeRoom_length (w := w) (show seq ≤ c.maxSeq.toNat - c.sink.toNat by omega) (by omega)
  by_cases hfits : c.pastLen + seq ≤ c.maxSeq
  · rw [compactToFit_of_fits hfits, makeRoom_of_fits (by omega)]
    exact ⟨id, id, hw⟩
  · rw [compactToFit_step hseq (by omega)]
    obtain ⟨s, hs⟩ : ∃ s : Nat, c.sink = s := ⟨c.sink.toNat, by omega⟩
    obtain ⟨d, hd⟩ : ∃ d : Nat, c.pastLen + seq - c.maxSeq = d := ⟨(c.pastLen + seq - c.maxSeq).toNat, by omega⟩
    obtain ⟨t, ht⟩ : ∃ t : Nat, c.maxSeq - seq - c.sink = t := ⟨(c.maxSeq - seq - c.sink).toNat, by omega⟩
    have hroom : makeRoom c.sink.toNat c.maxSeq.toNat seq w = w.take s ++ w.drop (s + d) := by
      rw [makeRoom, if_neg (by omega)]
      congr 2 <;> omega
    dsimp only
    refine ⟨?_, ?_, by omega⟩
    all_goals
      intro h
      rw [hroom, hs, hd, show c.maxSeq - seq - (s : Int) = t by omega]
      exact moveRows_shows (by omega) (by omega) h

theorem writeRows_shows {rows : Rows K} {layer l b seq : Nat} {batch past dim : Int} {src : TensorView K} (hb : (b : Int) < batch)
    {w : List (List K)} (hw : (w.length : Int) = past) (h : Shows (rows l b) w) :
    Shows (writeRows layer batch past seq dim src.f32 rows l b) (w ++ if layer = l then newRows seq dim src b else []) := by
  intro p r hr
  unfold writeRows
  by_cases hp : p < w.length
  · rw [List.getElem?_append_left hp] at hr
    rw [if_neg (by omega)]
    exact h p r hr
  · rw [List.getElem?_append_right (by omega)] at hr
    by_cases hl : layer = l
    · rw [if_pos hl, newRows, List.getElem?_map] at hr
      obtain ⟨s, hs, hrow⟩ := Option.map_eq_some_iff.mp hr
      obtain ⟨hlt, hget⟩ := List.getElem?_eq_some_iff.mp hs
      rw [List.length_range] at hlt
      rw [List.getElem_range] at hget
      rw [if_pos (by omega), ← hrow, ← hget]
      congr 1
      rw [Int.toNat_natCast]
      omega
    · rw [if_neg hl] at hr
      exact absurd hr (by simp)

/-- A layer that is not written. -/
theorem writeRows_other {rows : Rows K} {layer l b seq : Nat} {batch past dim : Int} {src : List K} (hl : layer ≠ l) :
    writeRows layer batch past seq dim src rows l b = rows l b := by
  funext p
  unfold writeRows
  rw [if_neg (by omega)]

theorem compactToFit_absPos (c : KvCache K) (n : Int) : (c.compactToFit n).absPos = c.absPos := by
  unfold compactToFit
  dsimp only
  split_ifs <;> rfl

theorem appendLayer_shows {c : KvCache K} (hc : c.Wf) {a : LayerAppend K} {seq : Nat} (hl : (a.layer : Int) < c.nLayers)
    (hseq : (seq : Int) ≤ c.maxSeq - c.sink) (hk : AppendView c.batch seq c.kDim a.k) (hv : AppendView c.batch seq c.vDim a.v) :
    ∃ c', c.appendLayer a.layer a.k a.v = (.ok (), c') ∧ c'.Wf ∧ c'.dims = c.dims ∧ c'.absPos = c.absPos ∧
      c'.pendingSeq = seq ∧ c'.pastLen + seq ≤ c.maxSeq ∧
      (∀ l b : Nat, (b : Int) < c.batch → ∀ w : List (List K), (w.length : Int) = c.pastLen →
        ((makeRoom c.sink.toNat c.maxSeq.toNat seq w).length : Int) = c'.pastLen ∧
        (Shows (c.k l b) w → Shows (c'.k l b) (makeRoom c.sink.toNat c.maxSeq.toNat seq w ++
          if a.layer = l then newRows seq c.kDim a.k b else [])) ∧
        (Shows (c.v l b) w → Shows (c'.v l b) (makeRoom c.sink.toNat c.maxSeq.toNat seq w ++
          if a.layer = l then newRows seq c.vDim a.v b else []))) ∧
      (c.pastLen + seq ≤ c.maxSeq → c'.pastLen = c.pastLen ∧
        ∀ l b : Nat, a.layer ≠ l → c'.k l b = c.k l b ∧ c'.v l b = c.v l b) := by
  have hwf := compactToFit_wf hc seq
  refine ⟨_, appendLayer_step hc hl (Int.natCast_nonneg seq) hseq hk hv, ?_, compactToFit_dims c seq,
    compactToFit_absPos c seq, rfl, compactToFit_fits hc hseq, ?_, ?_⟩
  · exact ⟨hwf.layers, hwf.batch, hwf.kDim, hwf.vDim, hwf.sink, hwf.sink_lt, hwf.past, hwf.past_le⟩
  · intro l b hb w hw
    obtain ⟨hkr, hvr, hlen⟩ := compactToFit_shows hc hseq hw l b
    refine ⟨hlen, fun h => ?_, fun h => ?_⟩
    · exact writeRows_shows hb hlen (hkr h)
    · exact writeRows_shows hb hlen (hvr h)
  · intro hfits
    rw [compactToFit_of_fits hfits]
    exact ⟨rfl, fun l b hne => ⟨writeRows_other hne, writeRows_other hne⟩⟩

/-! ## One step -/

/-- Every layer and batch row shows its rows. -/
def ShowsAll (c : KvCache K) (wk wv : Nat → Nat → List (List K)) : Prop :=
  ∀ l b : Nat, (l : Int) < c.nLayers → (b : Int) < c.batch → Shows (c.k l b) (wk l b) ∧ Shows (c.v l b) (wv l b)

theorem appended_cons (side : LayerAppend K → TensorView K) (dim : Int) (seq : Nat) (a : LayerAppend K)
    (rest : List (LayerAppend K)) (l b : Nat) : appended side dim seq (a :: rest) l b =
      (if a.layer = l then newRows seq dim (side a) b else []) ++ appended side dim seq rest l b := by
  unfold appended
  by_cases h : a.layer = l
  · simp [h]
  · simp [h]

/-- The layers that come after the first find room made. -/
theorem appendAll_room {seq : Nat} : ∀ (rest : List (LayerAppend K)) (c : KvCache K) (wk wv : Nat → Nat → List (List K)),
    c.Wf → c.pastLen + seq ≤ c.maxSeq → (seq : Int) ≤ c.maxSeq - c.sink → c.pendingSeq = seq → (rest.map (·.layer)).Nodup →
    (∀ a ∈ rest, (a.layer : Int) < c.nLayers ∧ AppendView c.batch seq c.kDim a.k ∧ AppendView c.batch seq c.vDim a.v) →
    (∀ a ∈ rest, ∀ b : Nat, (b : Int) < c.batch →
      ((wk a.layer b).length : Int) = c.pastLen ∧ ((wv a.layer b).length : Int) = c.pastLen) → ShowsAll c wk wv →
    ∃ c', appendAll appendLayer c rest = .ok c' ∧ c'.Wf ∧ c'.dims = c.dims ∧ c'.absPos = c.absPos ∧ c'.pendingSeq = seq ∧
      c'.pastLen = c.pastLen ∧ ShowsAll c' (fun l b => wk l b ++ appended (·.k) c.kDim seq rest l b)
        (fun l b => wv l b ++ appended (·.v) c.vDim seq rest l b) := by
  intro rest
  induction rest with
  | nil =>
    intro c wk wv hc _ _ hpend _ _ _ hshow
    refine ⟨c, rfl, hc, rfl, rfl, hpend, rfl, fun l b hl hb => ?_⟩
    simpa [appended] using hshow l b hl hb
  | cons a rest ih =>
    intro c wk wv hc hroom hseq _ hnd hviews hlen hshow
    obtain ⟨hl, hk, hv⟩ := hviews a List.mem_cons_self
    obtain ⟨c', happ, hwf, hd, habs, hpend, -, hrows, hsame⟩ := appendLayer_shows hc hl hseq hk hv
    obtain ⟨hpast, hother⟩ := hsame hroom
    obtain ⟨hn, hb, hm, hkd, hvd, hs⟩ := dims_inj hd
    rw [List.map_cons, List.nodup_cons] at hnd
    have hne : ∀ a' ∈ rest, a.layer ≠ a'.layer := fun a' ha' he => hnd.1 (he ▸ List.mem_map_of_mem ha')
    obtain ⟨c'', hall, hwf', hd', habs', hpend', hpast', hshow'⟩ := ih c'
      (fun l b => wk l b ++ if a.layer = l then newRows seq c.kDim a.k b else [])
      (fun l b => wv l b ++ if a.layer = l then newRows seq c.vDim a.v b else []) hwf (by omega) (by omega) hpend hnd.2
      (by
        rw [hn, hb, hkd, hvd]
        exact fun a' ha' => hviews a' (List.mem_cons_of_mem _ ha'))
      (by
        intro a' ha' b hbb
        rw [if_neg (hne a' ha'), if_neg (hne a' ha'), List.append_nil, List.append_nil, hpast]
        exact hlen a' (List.mem_cons_of_mem _ ha') b (hb ▸ hbb))
      (by
        intro l b hll hbb
        obtain ⟨hkl, hvl⟩ := hshow l b (hn ▸ hll) (hb ▸ hbb)
        by_cases hla : a.layer = l
        · subst hla
          obtain ⟨hklen, hvlen⟩ := hlen a List.mem_cons_self b (hb ▸ hbb)
          have hkrow := (hrows a.layer b (hb ▸ hbb) _ hklen).2.1 hkl
          have hvrow := (hrows a.layer b (hb ▸ hbb) _ hvlen).2.2 hvl
          rw [makeRoom_of_fits (by omega)] at hkrow hvrow
          exact ⟨hkrow, hvrow⟩
        · obtain ⟨hko, hvo⟩ := hother l b hla
          dsimp only
          rw [hko, hvo, if_neg hla, if_neg hla, List.append_nil, List.append_nil]
          exact ⟨hkl, hvl⟩)
    refine ⟨c'', ?_, hwf', hd'.trans hd, habs'.trans habs, hpend', hpast'.trans hpast, ?_⟩
    · simp only [appendAll, happ, hall]
    · rw [hkd, hvd] at hshow'
      intro l b hll hbb
      have hlb := hshow' l b hll hbb
      simp only [List.append_assoc, ← appended_cons] at hlb
      exact hlb

/-- A step appends its tokens to every layer. -/
theorem appended_length {nLayers batch maxSeq kDim vDim sink : Int} {s : AppendStep K}
    (hs : StepFits nLayers batch maxSeq kDim vDim sink s) (side : LayerAppend K → TensorView K) (dim : Int) {l : Nat}
    (hl : (l : Int) < nLayers) (b : Nat) : (appended side dim s.seq s.appends l b).length = s.seq := by
  have hone : (s.appends.filter (·.layer == l)).length = 1 := by
    have hcount := hs.layers.count_eq l
    rw [List.count_eq_one_of_mem List.nodup_range (List.mem_range.mpr (by omega)), List.count, List.countP_map] at hcount
    rw [← List.countP_eq_length_filter]
    exact hcount
  obtain ⟨a, ha⟩ := List.length_eq_one_iff.mp hone
  simp [appended, ha, newRows]

theorem stepFits_congr_dims {c c' : KvCache K} (hd : c'.dims = c.dims) {s : AppendStep K}
    (hs : StepFits c.nLayers c.batch c.maxSeq c.kDim c.vDim c.sink s) :
    StepFits c'.nLayers c'.batch c'.maxSeq c'.kDim c'.vDim c'.sink s := by
  obtain ⟨hn, hb, hm, hk, hv, hsink⟩ := dims_inj hd
  rw [hn, hb, hm, hk, hv, hsink]
  exact hs

/-- A whole step: what was shown makes room, and the step's rows follow it. -/
theorem appendAll_shows {c : KvCache K} (hc : c.Wf) {s : AppendStep K}
    (hs : StepFits c.nLayers c.batch c.maxSeq c.kDim c.vDim c.sink s) {wk wv : Nat → Nat → List (List K)}
    (hlen : ∀ l b : Nat, (l : Int) < c.nLayers → (b : Int) < c.batch →
      ((wk l b).length : Int) = c.pastLen ∧ ((wv l b).length : Int) = c.pastLen) (hshow : ShowsAll c wk wv) :
    ∃ c', appendAll appendLayer c s.appends = .ok c' ∧ c'.commitStep.Wf ∧ c'.commitStep.dims = c.dims ∧
      c'.commitStep.absPos = c.absPos + s.seq ∧
      ShowsAll c'.commitStep
        (fun l b => makeRoom c.sink.toNat c.maxSeq.toNat s.seq (wk l b) ++ appended (·.k) c.kDim s.seq s.appends l b)
        (fun l b => makeRoom c.sink.toNat c.maxSeq.toNat s.seq (wv l b) ++ appended (·.v) c.vDim s.seq s.appends l b) ∧
      ∀ l b : Nat, (l : Int) < c.nLayers → (b : Int) < c.batch →
        ((makeRoom c.sink.toNat c.maxSeq.toNat s.seq (wk l b)).length : Int) + s.seq = c'.commitStep.pastLen := by
  have hlayers := hc.layers
  have hbatch := hc.batch
  have hnd : (s.appends.map (·.layer)).Nodup := hs.layers.nodup_iff.mpr List.nodup_range
  have hbound : ∀ a ∈ s.appends, (a.layer : Int) < c.nLayers := by
    intro a ha
    have hmem := List.mem_range.mp (hs.layers.mem_iff.mp (List.mem_map_of_mem (f := (·.layer)) ha))
    omega
  cases happends : s.appends with
  | nil =>
    have hnone := hs.layers.length_eq
    rw [happends, List.map_nil, List.length_nil, List.length_range] at hnone
    omega
  | cons a rest =>
    have hseq := hs.seq
    have hk := hs.k
    have hv := hs.v
    rw [happends] at hnd hbound hk hv
    have ha : a ∈ a :: rest := List.mem_cons_self
    obtain ⟨c', happ, hwf, hd, habs, hpend, hroom, hrows, -⟩ := appendLayer_shows hc (hbound a ha) hseq (hk a ha) (hv a ha)
    obtain ⟨hn, hb, hm, hkd, hvd, hsink⟩ := dims_inj hd
    rw [List.map_cons, List.nodup_cons] at hnd
    have hne : ∀ a' ∈ rest, a.layer ≠ a'.layer := fun a' ha' he => hnd.1 (he ▸ List.mem_map_of_mem ha')
    have hviews : ∀ a' ∈ rest, (a'.layer : Int) < c'.nLayers ∧ AppendView c'.batch s.seq c'.kDim a'.k ∧
        AppendView c'.batch s.seq c'.vDim a'.v := by
      rw [hn, hb, hkd, hvd]
      exact fun a' ha' => ⟨hbound a' (List.mem_cons_of_mem _ ha'), hk a' (List.mem_cons_of_mem _ ha'),
        hv a' (List.mem_cons_of_mem _ ha')⟩
    have hfirst : ShowsAll c'
        (fun l b => makeRoom c.sink.toNat c.maxSeq.toNat s.seq (wk l b) ++ if a.layer = l then newRows s.seq c.kDim a.k b else [])
        (fun l b => makeRoom c.sink.toNat c.maxSeq.toNat s.seq (wv l b) ++ if a.layer = l then newRows s.seq c.vDim a.v b else []) := by
      intro l b hll hbb
      obtain ⟨hkl, hvl⟩ := hshow l b (hn ▸ hll) (hb ▸ hbb)
      obtain ⟨hklen, hvlen⟩ := hlen l b (hn ▸ hll) (hb ▸ hbb)
      exact ⟨(hrows l b (hb ▸ hbb) _ hklen).2.1 hkl, (hrows l b (hb ▸ hbb) _ hvlen).2.2 hvl⟩
    have hpending : ∀ a' ∈ rest, ∀ b : Nat, (b : Int) < c'.batch →
        ((makeRoom c.sink.toNat c.maxSeq.toNat s.seq (wk a'.layer b) ++
          if a.layer = a'.layer then newRows s.seq c.kDim a.k b else []).length : Int) = c'.pastLen ∧
        ((makeRoom c.sink.toNat c.maxSeq.toNat s.seq (wv a'.layer b) ++
          if a.layer = a'.layer then newRows s.seq c.vDim a.v b else []).length : Int) = c'.pastLen := by
      intro a' ha' b hbb
      obtain ⟨hklen, hvlen⟩ := hlen a'.layer b (hbound a' (List.mem_cons_of_mem _ ha')) (hb ▸ hbb)
      rw [if_neg (hne a' ha'), if_neg (hne a' ha'), List.append_nil, List.append_nil]
      exact ⟨(hrows a'.layer b (hb ▸ hbb) _ hklen).1, (hrows a'.layer b (hb ▸ hbb) _ hvlen).1⟩
    obtain ⟨c'', hall, hwf', hd', habs', hpend', hpast', hshow'⟩ :=
      appendAll_room rest c' _ _ hwf (by omega) (by omega) hpend hnd.2 hviews hpending hfirst
    refine ⟨c'', ?_, ?_, hd'.trans hd, ?_, ?_, ?_⟩
    · simp only [appendAll, happ, hall]
    · obtain ⟨-, -, hm', -, -, -⟩ := dims_inj hd'
      have hpos := hwf'.past
      refine ⟨hwf'.layers, hwf'.batch, hwf'.kDim, hwf'.vDim, hwf'.sink, hwf'.sink_lt, ?_, ?_⟩
      all_goals
        simp only [commitStep, hpend']
        omega
    · show c''.absPos + c''.pendingSeq = _
      rw [habs', habs, hpend']
    · rw [hkd, hvd] at hshow'
      intro l b hll hbb
      have hlb := hshow' l b hll hbb
      simp only [List.append_assoc, ← appended_cons] at hlb
      exact hlb
    · intro l b hll hbb
      have hkeep := (hrows l b hbb _ (hlen l b hll hbb).1).1
      show _ = c''.pastLen + c''.pendingSeq
      rw [hpast', hpend', hkeep]

/-! ## Runs -/

/-- Every step of a run succeeds, and the window slides along the history. -/
theorem runSteps_shows : ∀ (steps : List (AppendStep K)) (c : KvCache K) (hk hv : Nat → Nat → List (List K)) (total : Nat),
    c.Wf → (∀ s ∈ steps, StepFits c.nLayers c.batch c.maxSeq c.kDim c.vDim c.sink s) →
    (∀ l b : Nat, (l : Int) < c.nLayers → (b : Int) < c.batch → (hk l b).length = total ∧ (hv l b).length = total) →
    c.pastLen = min (total : Int) c.maxSeq →
    ShowsAll c (fun l b => window c.sink.toNat c.maxSeq.toNat (hk l b)) (fun l b => window c.sink.toNat c.maxSeq.toNat (hv l b)) →
    ∃ c', runSteps appendLayer commitStep c steps = .ok c' ∧ c'.Wf ∧ c'.dims = c.dims ∧
      c'.absPos = c.absPos + totalSeq steps ∧ c'.pastLen = min ((total + totalSeq steps : Nat) : Int) c.maxSeq ∧
      (∀ l b : Nat, (l : Int) < c.nLayers → (b : Int) < c.batch →
        (hk l b ++ history (·.k) c.kDim steps l b).length = total + totalSeq steps ∧
        (hv l b ++ history (·.v) c.vDim steps l b).length = total + totalSeq steps) ∧
      ShowsAll c' (fun l b => window c.sink.toNat c.maxSeq.toNat (hk l b ++ history (·.k) c.kDim steps l b))
        (fun l b => window c.sink.toNat c.maxSeq.toNat (hv l b ++ history (·.v) c.vDim steps l b)) := by
  intro steps
  induction steps with
  | nil =>
    intro c hk hv total hc _ hlen hpast hshow
    refine ⟨c, rfl, hc, rfl, by simp [totalSeq], by simpa [totalSeq] using hpast, ?_, ?_⟩
    · simpa [history, totalSeq] using hlen
    · simpa [history] using hshow
  | cons s rest ih =>
    intro c hk hv total hc hsteps hlen hpast hshow
    have hs := hsteps s List.mem_cons_self
    have hseq := hs.seq
    have hsink := hc.sink
    have hslt := hc.sink_lt
    have hle : c.sink.toNat ≤ c.maxSeq.toNat := by omega
    have hwin : ∀ h : List (List K), h.length = total → ((window c.sink.toNat c.maxSeq.toNat h).length : Int) = c.pastLen := by
      intro h hh
      rw [window_length h hle, hh]
      omega
    obtain ⟨c', happ, hwf, hd, habs, hshow', hroom⟩ := appendAll_shows hc hs
      (fun l b hl hb => ⟨hwin _ (hlen l b hl hb).1, hwin _ (hlen l b hl hb).2⟩) hshow
    obtain ⟨hn, hb, hm, hkd, hvd, hsk⟩ := dims_inj hd
    have hnew : ∀ (side : LayerAppend K → TensorView K) (dim : Int) (l b : Nat), (l : Int) < c.nLayers →
        (appended side dim s.seq s.appends l b).length = s.seq := fun side dim l b hl => appended_length hs side dim hl b
    have hslide : ∀ (side : LayerAppend K → TensorView K) (dim : Int) (h : List (List K)) (l b : Nat), (l : Int) < c.nLayers →
        makeRoom c.sink.toNat c.maxSeq.toNat s.seq (window c.sink.toNat c.maxSeq.toNat h) ++
          appended side dim s.seq s.appends l b =
        window c.sink.toNat c.maxSeq.toNat (h ++ appended side dim s.seq s.appends l b) := by
      intro side dim h l b hl
      have hfit : (appended side dim s.seq s.appends l b).length ≤ c.maxSeq.toNat - c.sink.toNat := by
        rw [hnew _ _ _ _ hl]
        omega
      have hap := @window_append _ _ _ h _ hle hfit
      rwa [hnew _ _ _ _ hl] at hap
    have hlen' : ∀ l b : Nat, (l : Int) < c'.commitStep.nLayers → (b : Int) < c'.commitStep.batch →
        (hk l b ++ appended (·.k) c.kDim s.seq s.appends l b).length = total + s.seq ∧
        (hv l b ++ appended (·.v) c.vDim s.seq s.appends l b).length = total + s.seq := by
      intro l b hl hbb
      rw [hn] at hl
      rw [hb] at hbb
      obtain ⟨h1, h2⟩ := hlen l b hl hbb
      rw [List.length_append, List.length_append, h1, h2, hnew _ _ _ _ hl, hnew _ _ _ _ hl]
      exact ⟨rfl, rfl⟩
    have hpast' : c'.commitStep.pastLen = min ((total + s.seq : Nat) : Int) c'.commitStep.maxSeq := by
      have h0 := hroom 0 0 (by have := hc.layers; omega) (by have := hc.batch; omega)
      rw [makeRoom_length (w := window c.sink.toNat c.maxSeq.toNat (hk 0 0)) (show s.seq ≤ _ by omega) hle,
        window_length _ hle, (hlen 0 0 (by have := hc.layers; omega) (by have := hc.batch; omega)).1] at h0
      rw [hm]
      omega
    obtain ⟨c'', hrun, hwf', hd', habs', hpast'', hlens, hshow''⟩ := ih c'.commitStep
      (fun l b => hk l b ++ appended (·.k) c.kDim s.seq s.appends l b)
      (fun l b => hv l b ++ appended (·.v) c.vDim s.seq s.appends l b) (total + s.seq) hwf
      (fun s' hs' => stepFits_congr_dims hd (hsteps s' (List.mem_cons_of_mem _ hs'))) hlen' hpast' (by
        intro l b hl hbb
        have hlb := hshow' l b hl hbb
        dsimp only at hlb ⊢
        rw [hn] at hl
        rw [hslide _ _ _ _ _ hl, hslide _ _ _ _ _ hl] at hlb
        rw [hm, hsk]
        exact hlb)
    rw [hm, hsk, hkd, hvd] at hshow''
    rw [hn, hb, hkd, hvd] at hlens
    have htotal : totalSeq (s :: rest) = s.seq + totalSeq rest := by simp [totalSeq]
    have hhist : ∀ (side : LayerAppend K → TensorView K) (dim : Int) (h : List (List K)) (l b : Nat),
        h ++ history side dim (s :: rest) l b = h ++ appended side dim s.seq s.appends l b ++ history side dim rest l b := by
      intro side dim h l b
      rw [history, List.flatMap_cons, List.append_assoc]
      rfl
    refine ⟨c'', ?_, hwf', hd'.trans hd, ?_, ?_, ?_, ?_⟩
    · simp only [runSteps, happ, ok_bind, hrun]
    · rw [habs', habs, htotal]
      push_cast
      omega
    · rw [hpast'', hm, htotal, Nat.add_assoc]
    · simp only [hhist, htotal, ← Nat.add_assoc]
      exact hlens
    · simp only [hhist]
      exact hshow''

/-- A past view of rows that are shown. -/
theorem makePastView_shows {c : KvCache K} (hc : c.Wf) {rows : Rows K} {l : Nat} (hl : (l : Int) < c.nLayers) (dim : Int)
    {w : Nat → List (List K)} (hshow : ∀ b : Nat, (b : Int) < c.batch → ((w b).length : Int) = c.pastLen ∧ Shows (rows l b) (w b)) :
    c.makePastView rows l dim = rowsView c.batch c.pastLen dim w := by
  have hlayers := hc.layers
  unfold makePastView rowsView configured
  by_cases hnone : c.pastLen ≤ 0
  · rw [if_pos (.inr (.inr (.inr hnone))), if_pos hnone]
  rw [if_neg (by simp only [hlayers, decide_true, Bool.not_true, Bool.false_eq_true, false_or]; omega), if_neg hnone]
  congr 1
  unfold pastRows
  refine List.flatMap_congr fun b hb => ?_
  obtain ⟨hlen, hrows⟩ := hshow b (by have := List.mem_range.mp hb; omega)
  have hmap : (List.range c.pastLen.toNat).map (rows l b) = w b := by
    apply List.ext_getElem (by rw [List.length_map, List.length_range]; omega)
    intro p _ hp
    rw [List.getElem_map, List.getElem_range]
    exact hrows p _ (List.getElem?_eq_getElem hp)
  rw [Int.toNat_natCast, ← hmap, List.flatMap_def]

/-- The window stays within its bounds when an append is committed. -/
theorem commitStep_wf {c c' : KvCache K} (hc : c.Wf) {layer : Int} {k v : TensorView K}
    (hseq : ∀ seq, c.appendChecks layer k v = .ok seq → 0 ≤ seq) (h : c.appendLayer layer k v = (.ok (), c')) :
    c'.commitStep.Wf := by
  unfold appendLayer at h
  split at h
  · cases h
  rename_i seq hchecks
  have hpos := hseq seq hchecks
  have hwf := compactToFit_wf hc seq
  have hpast := hwf.past
  dsimp only at h
  split at h
  · cases h
  rename_i hcap
  have hroom : (c.compactToFit seq).pastLen + seq ≤ (c.compactToFit seq).maxSeq := by
    unfold ensureCapacity at hcap
    split at hcap
    · cases hcap
    split at hcap
    · cases hcap
    · omega
  split at h
  · cases h
  cases h
  refine ⟨hwf.layers, hwf.batch, hwf.kDim, hwf.vDim, hwf.sink, hwf.sink_lt, ?_, hroom⟩
  show 0 ≤ (c.compactToFit seq).pastLen + seq
  omega

end KvCache

/-! ## The storage -/

namespace KvStore

/-- The views of an append give a length. -/
def Counted (a : LayerAppend K) : Prop :=
  ∀ (c : KvCache K) (seq : Int), c.appendChecks a.layer a.k a.v = .ok seq → 0 ≤ seq

theorem AppendView.counted {batch kDim : Int} {seq : Nat} {a : LayerAppend K} (h : AppendView batch seq kDim a.k) :
    Counted a := by
  intro c n hn
  unfold KvCache.appendChecks at hn
  split at hn
  · cases hn
  split at hn
  · cases hn
  rw [KvCache.parseKvShape_view h, ok_bind] at hn
  obtain ⟨⟨vb, vs, vd⟩, -, hn⟩ := bind_ok hn
  dsimp only at hn
  split at hn
  · cases hn
  split at hn
  · cases hn
  cases hn
  omega

theorem appendAll_sim : ∀ (appends : List (LayerAppend K)) {f : KvStore K} {c c' : KvCache K}, Sim f c → c.commitStep.Wf →
    (∀ a ∈ appends, Counted a) → appendAll KvCache.appendLayer c appends = .ok c' →
    ∃ f', appendAll appendLayer f appends = .ok f' ∧ Sim f' c' ∧ c'.commitStep.Wf := by
  intro appends
  induction appends with
  | nil =>
    intro f c c' h hwf _ hok
    cases hok
    exact ⟨f, rfl, h, hwf⟩
  | cons a rest ih =>
    intro f c c' h _ hcount hok
    have ha := hcount a List.mem_cons_self c
    obtain ⟨hres, hsim⟩ := appendLayer_sim h ha
    cases happ : c.appendLayer a.layer a.k a.v with
    | mk r c₁ =>
      rw [happ] at hres hsim
      simp only [appendAll, happ] at hok
      cases r with
      | error e => cases hok
      | ok _ =>
        obtain ⟨f', hall, hsim', hwf'⟩ := ih hsim (KvCache.commitStep_wf h.wf ha happ)
          (fun a' ha' => hcount a' (List.mem_cons_of_mem _ ha')) hok
        refine ⟨f', ?_, hsim', hwf'⟩
        have hstore : f.appendLayer a.layer a.k a.v = (.ok (), (f.appendLayer a.layer a.k a.v).2) := Prod.ext hres rfl
        simp only [appendAll]
        rw [hstore]
        exact hall

/-- The storage goes through the same runs. -/
theorem runSteps_sim : ∀ (steps : List (AppendStep K)) {f : KvStore K} {c c' : KvCache K}, Sim f c → c.commitStep.Wf →
    (∀ s ∈ steps, ∀ a ∈ s.appends, Counted a) → runSteps KvCache.appendLayer KvCache.commitStep c steps = .ok c' →
    ∃ f', runSteps appendLayer commitStep f steps = .ok f' ∧ Sim f' c' := by
  intro steps
  induction steps with
  | nil =>
    intro f c c' h _ _ hok
    cases hok
    exact ⟨f, rfl, h⟩
  | cons s rest ih =>
    intro f c c' h hwf hcount hok
    obtain ⟨c₁, hall, hok⟩ := bind_ok hok
    obtain ⟨f₁, hall', hsim, hwf'⟩ := appendAll_sim s.appends h hwf (hcount s List.mem_cons_self) hall
    have htwice : c₁.commitStep.commitStep = c₁.commitStep := by
      simp only [KvCache.commitStep, Int.add_zero]
    obtain ⟨f', hrun, hsim'⟩ := ih (commitStep_sim hsim hwf') (by rwa [htwice])
      (fun s' hs' => hcount s' (List.mem_cons_of_mem _ hs')) hok
    exact ⟨f', by simp only [runSteps, hall', ok_bind, hrun], hsim'⟩

end KvStore

/-- A configured cache keeps its dimensions, and its sink within its window. -/
theorem KvCache.configure_dims [Zero K] {c c₀ : KvCache K} {nLayers batch maxSeq kDim vDim nHeads sink : Int}
    (h : c.configure nLayers batch maxSeq kDim vDim nHeads sink = .ok c₀) (hsink : sink < maxSeq) :
    c₀.dims = (nLayers, batch, maxSeq, kDim, vDim, max sink 0) ∧ c₀.absPos = 0 ∧ c₀.pastLen = 0 ∧ c₀.pendingSeq = 0 := by
  unfold KvCache.configure at h
  split at h
  · cases h
  rename_i hdims
  split at h
  · cases h
  cases h
  refine ⟨?_, rfl, rfl, rfl⟩
  simp only [KvCache.dims, Prod.mk.injEq, true_and]
  split_ifs <;> omega

/-- `seq` tokens for two layers, the second first, in two batch rows. -/
def wideStep (seq : Nat) (x : Int) : AppendStep Int :=
  let k : TensorView Int := .ofF32 [2, seq, 1] (List.replicate (2 * seq) x)
  let v : TensorView Int := .ofF32 [2, seq, 2] (List.replicate (4 * seq) x)
  ⟨seq, [⟨1, k, v⟩, ⟨0, k, v⟩]⟩

def wideStore : KvStore Int :=
  ⟨2, 2, 3, 1, 2, 1, 0, 0, 0, 0, 1, List.replicate 2 (List.replicate 6 0), List.replicate 2 (List.replicate 12 0)⟩

theorem wideStep_fits {seq : Nat} (hseq : seq ≤ 2) (x : Int) : StepFits 2 2 3 1 2 (max 1 0) (wideStep seq x) := by
  have hone : ∀ a ∈ (wideStep seq x).appends, a.k = (.ofF32 [2, seq, 1] (List.replicate (2 * seq) x) : TensorView Int) ∧
      a.v = (.ofF32 [2, seq, 2] (List.replicate (4 * seq) x) : TensorView Int) := by
    intro a ha
    rcases List.mem_cons.mp ha with rfl | ha
    · exact ⟨rfl, rfl⟩
    · rw [List.mem_singleton.mp ha]
      exact ⟨rfl, rfl⟩
  refine ⟨?_, show List.Perm [1, 0] [0, 1] from .swap 0 1 [], fun a ha => ?_, fun a ha => ?_⟩
  · show (seq : Int) ≤ 3 - max 1 0
    omega
  · rw [(hone a ha).1]
    refine ⟨rfl, .inl rfl, rfl, ?_⟩
    show (2 * (seq : Int) * 1).toNat ≤ (List.replicate (2 * seq) x).length
    rw [List.length_replicate]
    omega
  · rw [(hone a ha).2]
    refine ⟨rfl, .inl rfl, rfl, ?_⟩
    show (2 * (seq : Int) * 2).toNat ≤ (List.replicate (4 * seq) x).length
    rw [List.length_replicate]
    omega

end Uaii.Runtime
