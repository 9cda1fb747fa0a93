/-
  Uaii.Runtime.FailedRun — what a failed `Session::run` leaves in the key-value cache
  (`libs/uaii-runtime/src/session.cpp`, `include/uaii/runtime/kv_cache.hpp`).

  An operator reads its inputs and what the cache shows (`Committed`), and writes its
  outputs. An `Attention` of a layer then appends its inputs 1 and 2, K and V. Buffers
  keep the shapes they were allocated with. What a run does not decide itself (readiness,
  the scheduler, staging, buffers that are missing, the synchronisation, the trace file)
  is `Outside`, another one each run. `RunGuard`'s drop of the cache after a memory
  warning is left out.

  Proved: a failed run is as if it had not happened, for the cache and for a retry, exactly
  when no append that it reached dropped committed rows (`failed_run_hidden_iff`). What the
  others wrote lies past the committed rows, and the retry writes it again.

  As built, a full window makes room before the step is committed, and a run that fails
  afterwards has lost a row (`failed_run_loses_row`).
-/

import Uaii.Runtime.DecodeAttention

namespace Uaii.Runtime

open Uaii.Kernels

variable {K : Type}

/-! ## Running -/

/-- What a cache shows to operators. -/
structure Committed (K : Type) where
  pastLen : Int
  ropePos : Int
  ropeScaleLen : Int
  kView : Int → TensorView K
  vView : Int → TensorView K

def KvCache.committed (c : KvCache K) : Committed K := ⟨c.pastLen, c.ropePos, c.ropeScaleLen, c.kView, c.vView⟩

/-- An operator of the plan; `layer` is that of an `Attention` that uses the cache. -/
structure KvOp (K : Type) where
  opName : String
  nodeId : Nat
  inputs : List Nat
  outputs : List Nat
  layer : Option Nat
  kernel : List (TensorView K) → Committed K → Result Unit × (Nat → List K)

/-- The floats of the tensors, and the cache. -/
structure KvSession (K : Type) where
  floats : Nat → List K
  cache : KvCache K

/-- What a run meets: an error before the first operator, before operator `i`, at the
    synchronisation, or at the trace file. -/
structure Outside where
  start : Option Fault
  before : Nat → Option Fault
  synchronize : Option Fault
  trace : Option Fault

section Run

variable (buffers : Nat → TensorView K)

/-- `view_of`. -/
def viewOf (floats : Nat → List K) (t : Nat) : TensorView K := { buffers t with data := (buffers t).data.map fun _ => floats t }

namespace KvOp

/-- `inputs[i]`. -/
def arg (op : KvOp K) (floats : Nat → List K) (i : Nat) : TensorView K :=
  ((op.inputs[i]?).map (viewOf buffers floats)).getD .null

def outcome (op : KvOp K) (s : KvSession K) : Result Unit × (Nat → List K) :=
  op.kernel (op.inputs.map (viewOf buffers s.floats)) s.cache.committed

def put (op : KvOp K) (outs floats : Nat → List K) (t : Nat) : List K := if t ∈ op.outputs then outs t else floats t

/-- `append_layer`, where the operator has a layer. -/
def append (op : KvOp K) (s : KvSession K) : Result Unit × KvCache K :=
  match op.layer with
  | none => (.ok (), s.cache)
  | some layer => s.cache.appendLayer layer (op.arg buffers s.floats 1) (op.arg buffers s.floats 2)

def dispatch (op : KvOp K) (s : KvSession K) : Result Unit × KvSession K :=
  match op.outcome buffers s with
  | (.error e, outs) => (.error e, ⟨op.put outs s.floats, s.cache⟩)
  | (.ok (), outs) => ((op.append buffers s).1, ⟨op.put outs s.floats, (op.append buffers s).2⟩)

/-- The error of `run` for an operator's. -/
def error (op : KvOp K) : Fault → Fault
  | .error code message => .error code ("op '" ++ op.opName ++ "' node=" ++ Nat.repr op.nodeId ++ ": " ++ message)
  | e => e

end KvOp

/-- The operators from number `i` on. -/
def runPlan (o : Outside) : Nat → List (KvOp K) → KvSession K → Result Unit × KvSession K
  | _, [], s => (.ok (), s)
  | i, op :: rest, s =>
    match o.before i with
    | some e => (.error e, s)
    | none =>
      match op.dispatch buffers s with
      | (.error e, s) => (.error (op.error e), s)
      | (.ok (), s) => runPlan o (i + 1) rest s

/-- `run` up to `commit_step`. -/
def runForward (o : Outside) (ops : List (KvOp K)) (s : KvSession K) : Result Unit × KvSession K :=
  match o.start with
  | some e => (.error e, s)
  | none =>
    match runPlan buffers o 0 ops s with
    | (.error e, s) => (.error e, s)
    | (.ok (), s) =>
      match o.synchronize with
      | some e => (.error e, s)
      | none => (.ok (), s)

/-- `Session::run`. -/
def runSession (o : Outside) (ops : List (KvOp K)) (s : KvSession K) : Result Unit × KvSession K :=
  match runForward buffers o ops s with
  | (.error e, s) => (.error e, s)
  | (.ok (), s) =>
    let s := { s with cache := if s.cache.configured then s.cache.commitStep else s.cache }
    match o.trace with
    | some e => (.error e, s)
    | none => (.ok (), s)

/-- The operators from number `i` on whose append is reached. -/
def reachedAppends (o : Outside) : Nat → List (KvOp K) → KvSession K → List (KvOp K)
  | _, [], _ => []
  | i, op :: rest, s =>
    match o.before i with
    | some _ => []
    | none =>
      (match (op.outcome buffers s).1 with
        | .error _ => []
        | .ok () => [op]) ++
      match op.dispatch buffers s with
      | (.error _, _) => []
      | (.ok (), s) => reachedAppends o (i + 1) rest s

/-- The operators whose append a run reaches. -/
def runAppends (o : Outside) (ops : List (KvOp K)) (s : KvSession K) : List (KvOp K) :=
  match o.start with
  | some _ => []
  | none => reachedAppends buffers o 0 ops s

end Run

/-! ## An append that drops nothing -/

namespace KvCache

/-- Making room for `seq` rows drops committed ones. -/
def Drops (c : KvCache K) (seq : Int) : Prop := c.maxSeq < c.pastLen + seq ∧ c.sink < c.pastLen

instance (c : KvCache K) (seq : Int) : Decidable (c.Drops seq) := inferInstanceAs (Decidable (_ ∧ _))

theorem compactToFit_keeps {c : KvCache K} {seq : Int} (h : ¬ c.Drops seq) : c.compactToFit seq = c := by
  unfold Drops at h
  unfold compactToFit
  dsimp only
  split_ifs <;> first | rfl | omega

theorem compactToFit_past (c : KvCache K) (seq : Int) :
    (c.compactToFit seq).pastLen ≤ c.pastLen ∧ (c.Drops seq → (c.compactToFit seq).pastLen < c.pastLen) := by
  unfold Drops compactToFit
  dsimp only
  split_ifs <;> (try dsimp only) <;> omega

/-- All but the rows and what is pending. -/
def frame (c : KvCache K) : KvCache K := { c with pendingSeq := 0, k := fun _ _ _ => [], v := fun _ _ _ => [] }

theorem frame_inj {c d : KvCache K} (h : c.frame = d.frame) : c.nLayers = d.nLayers ∧ c.batch = d.batch ∧ c.maxSeq = d.maxSeq ∧
    c.kDim = d.kDim ∧ c.vDim = d.vDim ∧ c.nHeads = d.nHeads ∧ c.pastLen = d.pastLen ∧ c.absPos = d.absPos ∧
    c.ropeScaleLen = d.ropeScaleLen ∧ c.sink = d.sink := by
  simpa [frame] using h

theorem appendChecks_frame {c d : KvCache K} (h : c.frame = d.frame) (layer : Int) (k v : TensorView K) :
    c.appendChecks layer k v = d.appendChecks layer k v := by
  rcases frame_inj h with ⟨hn, hb, hm, hk, hv, -⟩
  exact appendChecks_congr hn hb hm hk hv layer k v

theorem drops_frame {c d : KvCache K} (h : c.frame = d.frame) (seq : Int) : c.Drops seq ↔ d.Drops seq := by
  rcases frame_inj h with ⟨-, -, hm, -, -, -, hp, -, -, hs⟩
  simp only [Drops, hm, hp, hs]

/-- How many rows are written, where nothing is dropped. -/
def appendRoom (c : KvCache K) (layer : Int) (k v : TensorView K) : Result Int := do
  let seq ← c.appendChecks layer k v
  c.ensureCapacity (c.pastLen + seq)
  if k.f32.length < (c.batch * seq * c.kDim).toNat ∨ v.f32.length < (c.batch * seq * c.vDim).toNat then
    .error (.undefined "read past the view")
  else .ok seq

def wrote (c : KvCache K) (layer seq : Int) (k v : TensorView K) : KvCache K :=
  { c with
    k := writeRows layer c.batch c.pastLen seq c.kDim k.f32 c.k
    v := writeRows layer c.batch c.pastLen seq c.vDim v.f32 c.v
    pendingSeq := seq }

theorem ensureCapacity_frame {c d : KvCache K} (h : c.frame = d.frame) (seq : Int) : c.ensureCapacity seq = d.ensureCapacity seq := by
  rcases frame_inj h with ⟨hn, -, hm, -⟩
  exact ensureCapacity_congr hn hm seq

theorem appendRoom_frame {c d : KvCache K} (h : c.frame = d.frame) (layer : Int) (k v : TensorView K) :
    c.appendRoom layer k v = d.appendRoom layer k v := by
  rcases frame_inj h with ⟨-, hb, -, hk, hv, -, hp, -⟩
  unfold appendRoom
  simp only [appendChecks_frame h, ensureCapacity_frame h]
  rw [hb, hk, hv, hp]

theorem appendLayer_keeps {c : KvCache K} {layer : Int} {k v : TensorView K}
    (h : ∀ seq, c.appendChecks layer k v = .ok seq → ¬ c.Drops seq) : c.appendLayer layer k v =
      match c.appendRoom layer k v with
      | .error e => (.error e, c)
      | .ok seq => (.ok (), c.wrote layer seq k v) := by
  unfold appendLayer appendRoom
  cases hchecks : c.appendChecks layer k v with
  | error e => rfl
  | ok seq =>
    dsimp only
    rw [compactToFit_keeps (h seq hchecks), ok_bind]
    cases hcap : c.ensureCapacity (c.pastLen + seq) with
    | error e => rfl
    | ok _ =>
      rw [ok_bind]
      dsimp only
      split <;> rfl

theorem appendRoom_checks {c : KvCache K} {layer seq : Int} {k v : TensorView K} (h : c.appendRoom layer k v = .ok seq) :
    c.appendChecks layer k v = .ok seq := by
  unfold appendRoom at h
  rcases bind_ok h with ⟨n, hn, h⟩
  rcases bind_ok h with ⟨-, -, h⟩
  split at h
  · cases h
  · cases h
    exact hn

theorem appendLayer_past (c : KvCache K) (layer : Int) (k v : TensorView K) :
    (c.appendLayer layer k v).2.pastLen ≤ c.pastLen ∧
      ∀ seq, c.appendChecks layer k v = .ok seq → c.Drops seq → (c.appendLayer layer k v).2.pastLen < c.pastLen := by
  unfold appendLayer
  cases hchecks : c.appendChecks layer k v with
  | error e => simp
  | ok seq =>
    have hpast := compactToFit_past c seq
    dsimp only
    split
    · exact ⟨hpast.1, fun n hn hd => hpast.2 (by cases hn; exact hd)⟩
    · split
      · exact ⟨hpast.1, fun n hn hd => hpast.2 (by cases hn; exact hd)⟩
      · exact ⟨hpast.1, fun n hn hd => hpast.2 (by cases hn; exact hd)⟩

/-- The same cache but for the rows in `W`, and for what is pending. -/
structure SameOff (W : Nat → Nat → Nat → Prop) (c d : KvCache K) : Prop where
  frame : d.frame = c.frame
  k : ∀ l b p, ¬ W l b p → d.k l b p = c.k l b p
  v : ∀ l b p, ¬ W l b p → d.v l b p = c.v l b p

theorem SameOff.refl (W : Nat → Nat → Nat → Prop) (c : KvCache K) : SameOff W c c := ⟨rfl, fun _ _ _ _ => rfl, fun _ _ _ _ => rfl⟩

/-- Rows past the committed ones are not shown. -/
theorem SameOff.committed {W : Nat → Nat → Nat → Prop} {c d : KvCache K} (h : SameOff W c d)
    (hW : ∀ l b p, W l b p → c.pastLen ≤ p) : d.committed = c.committed := by
  rcases frame_inj h.frame with ⟨hn, hb, -, hk, hv, -, hp, ha, hr, -⟩
  have hview : ∀ (rs rs' : Rows K) (dim : Int), (∀ l b p, ¬ W l b p → rs' l b p = rs l b p) →
      ∀ layer, d.makePastView rs' layer dim = c.makePastView rs layer dim := by
    intro rs rs' dim hrs layer
    have hrows : d.pastRows rs' layer = c.pastRows rs layer := by
      unfold pastRows
      rw [hb, hp]
      refine List.flatMap_congr fun b _ => List.flatMap_congr fun p hmem => hrs _ _ _ fun hw => ?_
      have := hW _ _ _ hw
      rw [List.mem_range] at hmem
      omega
    unfold makePastView configured
    rw [hn, hb, hp, hrows]
  unfold KvCache.committed ropePos kView vView
  rw [hp, ha, hr, hk, hv]
  congr 1
  · exact funext fun layer => hview c.k d.k c.kDim h.k layer
  · exact funext fun layer => hview c.v d.v c.vDim h.v layer

end KvCache

/-! ## An operator -/

namespace KvOp

variable (buffers : Nat → TensorView K) (op : KvOp K)

/-- The rows the append adds; the checks read no floats. -/
def appendSeq (c : KvCache K) (layer : Nat) : Result Int :=
  c.appendChecks layer (op.arg buffers (fun _ => []) 1) (op.arg buffers (fun _ => []) 2)

/-- The append drops no committed row. -/
def Keeps (c : KvCache K) : Prop := ∀ layer seq, op.layer = some layer → op.appendSeq buffers c layer = .ok seq → ¬ c.Drops seq

/-- The rows the append writes. -/
def Writes (c : KvCache K) (l b p : Nat) : Prop :=
  ∃ seq, op.layer = some l ∧ op.appendSeq buffers c l = .ok seq ∧ b < c.batch ∧ c.pastLen ≤ p ∧ p < c.pastLen + seq

variable {buffers op}

theorem parseKvShape_arg (floats : Nat → List K) (i : Nat) :
    KvCache.parseKvShape (op.arg buffers floats i) = KvCache.parseKvShape (op.arg buffers (fun _ => []) i) := by
  unfold arg
  cases op.inputs[i]? with
  | none => rfl
  | some t => simp [viewOf, KvCache.parseKvShape]

theorem appendChecks_arg (floats : Nat → List K) (c : KvCache K) (layer : Nat) :
    c.appendChecks layer (op.arg buffers floats 1) (op.arg buffers floats 2) = op.appendSeq buffers c layer := by
  simp only [appendSeq, KvCache.appendChecks, parseKvShape_arg floats]

theorem keeps_frame {c d : KvCache K} (h : c.frame = d.frame) : op.Keeps buffers c ↔ op.Keeps buffers d := by
  simp only [Keeps, appendSeq, KvCache.appendChecks_frame h, KvCache.drops_frame h]

theorem writes_frame {c d : KvCache K} (h : c.frame = d.frame) (l b p : Nat) : op.Writes buffers c l b p ↔ op.Writes buffers d l b p := by
  rcases KvCache.frame_inj h with ⟨-, hb, -, -, -, -, hp, -⟩
  simp only [Writes, appendSeq, KvCache.appendChecks_frame h, hb, hp]

variable {s : KvSession K}

theorem append_keeps (h : op.Keeps buffers s.cache) {layer : Nat} (hl : op.layer = some layer) : op.append buffers s =
    match s.cache.appendRoom layer (op.arg buffers s.floats 1) (op.arg buffers s.floats 2) with
    | .error e => (.error e, s.cache)
    | .ok seq => (.ok (), s.cache.wrote layer seq (op.arg buffers s.floats 1) (op.arg buffers s.floats 2)) := by
  unfold append
  rw [hl]
  refine KvCache.appendLayer_keeps fun seq hseq => h layer seq hl ?_
  rwa [appendChecks_arg] at hseq

theorem append_sameOff (h : op.Keeps buffers s.cache) :
    KvCache.SameOff (op.Writes buffers s.cache) s.cache (op.append buffers s).2 := by
  cases hl : op.layer with
  | none =>
    rw [append, hl]
    exact KvCache.SameOff.refl _ _
  | some layer =>
    rw [append_keeps h hl]
    cases hroom : s.cache.appendRoom layer (op.arg buffers s.floats 1) (op.arg buffers s.floats 2) with
    | error e => exact KvCache.SameOff.refl _ _
    | ok seq =>
      have hseq := KvCache.appendRoom_checks hroom
      rw [appendChecks_arg] at hseq
      have hout : ∀ l b p, ¬ op.Writes buffers s.cache l b p →
          ¬ (l = (layer : Int).toNat ∧ b < s.cache.batch ∧ s.cache.pastLen ≤ p ∧ p < s.cache.pastLen + seq) := by
        rintro l b p hw ⟨rfl, hb, hp⟩
        exact hw ⟨seq, hl, hseq, hb, hp⟩
      exact ⟨rfl, fun l b p hw => if_neg (hout l b p hw), fun l b p hw => if_neg (hout l b p hw)⟩

theorem append_past (op : KvOp K) (s : KvSession K) : (op.append buffers s).2.pastLen ≤ s.cache.pastLen ∧
    (¬ op.Keeps buffers s.cache → (op.append buffers s).2.pastLen < s.cache.pastLen) := by
  cases hl : op.layer with
  | none =>
    rw [append, hl]
    exact ⟨Int.le_refl _, fun hk => absurd (fun layer _ h => by simp [hl] at h) hk⟩
  | some layer =>
    rw [append, hl]
    have hpast := KvCache.appendLayer_past s.cache layer (op.arg buffers s.floats 1) (op.arg buffers s.floats 2)
    refine ⟨hpast.1, fun hk => ?_⟩
    unfold Keeps at hk
    push Not at hk
    rcases hk with ⟨l, seq, hl', hseq, hdrops⟩
    rw [hl] at hl'
    cases hl'
    exact hpast.2 seq (by rwa [appendChecks_arg]) hdrops

/-- What dispatch does to the cache. -/
theorem dispatch_cache (op : KvOp K) (s : KvSession K) : (op.dispatch buffers s).2.cache = s.cache ∨
    (op.outcome buffers s).1 = .ok () ∧ (op.dispatch buffers s).2.cache = (op.append buffers s).2 := by
  unfold dispatch
  rcases hout : op.outcome buffers s with ⟨_ | _, outs⟩
  · exact .inl rfl
  · exact .inr ⟨rfl, rfl⟩

end KvOp

/-! ## A run -/

section Plan

variable {buffers : Nat → TensorView K} {o : Outside}

theorem KvCache.SameOff.trans {W : Nat → Nat → Nat → Prop} {c d e : KvCache K} (h : SameOff W c d) (h' : SameOff W d e) :
    SameOff W c e :=
  ⟨h'.frame.trans h.frame, fun l b p hw => (h'.k l b p hw).trans (h.k l b p hw), fun l b p hw => (h'.v l b p hw).trans (h.v l b p hw)⟩

theorem KvCache.SameOff.mono {V W : Nat → Nat → Nat → Prop} {c d : KvCache K} (h : SameOff V c d) (hVW : ∀ l b p, V l b p → W l b p) :
    SameOff W c d :=
  ⟨h.frame, fun l b p hw => h.k l b p fun hv => hw (hVW l b p hv), fun l b p hw => h.v l b p fun hv => hw (hVW l b p hv)⟩

theorem dispatch_sameOff {op : KvOp K} {s : KvSession K}
    (hkeeps : (op.outcome buffers s).1 = .ok () → op.Keeps buffers s.cache) :
    KvCache.SameOff (op.Writes buffers s.cache) s.cache (op.dispatch buffers s).2.cache := by
  rcases op.dispatch_cache s with h | ⟨hok, h⟩
  · rw [h]
    exact KvCache.SameOff.refl _ _
  · rw [h]
    exact KvOp.append_sameOff (hkeeps hok)

/-- The head of what is reached. -/
theorem mem_reached {i : Nat} {op : KvOp K} {rest : List (KvOp K)} {s : KvSession K} (hbefore : o.before i = none)
    (hok : (op.outcome buffers s).1 = .ok ()) : op ∈ reachedAppends buffers o i (op :: rest) s := by
  simp [reachedAppends, hbefore, hok]

/-- What is reached after the head. -/
theorem reached_tail {i : Nat} {op : KvOp K} {rest : List (KvOp K)} {s s' : KvSession K} (hbefore : o.before i = none)
    (hstep : op.dispatch buffers s = (.ok (), s')) {q : KvOp K} (hq : q ∈ reachedAppends buffers o (i + 1) rest s') :
    q ∈ reachedAppends buffers o i (op :: rest) s := by
  simp only [reachedAppends, hbefore, hstep]
  exact List.mem_append_right _ hq

theorem mem_of_reached : ∀ {ops : List (KvOp K)} {i : Nat} {s : KvSession K} {q : KvOp K},
    q ∈ reachedAppends buffers o i ops s → q ∈ ops := by
  intro ops
  induction ops with
  | nil => simp [reachedAppends]
  | cons op rest ih =>
    intro i s q hq
    unfold reachedAppends at hq
    cases ho : o.before i with
    | some e => simp [ho] at hq
    | none =>
      rw [ho] at hq
      rcases List.mem_append.mp hq with hq | hq
      · split at hq
        · cases hq
        · exact List.mem_cons.mpr (.inl (List.mem_singleton.mp hq))
      · split at hq
        · cases hq
        · exact List.mem_cons_of_mem _ (ih hq)

/-- A run whose appends drop nothing. -/
theorem runPlan_sameOff : ∀ {ops : List (KvOp K)} {i : Nat} {s : KvSession K},
    (∀ op ∈ reachedAppends buffers o i ops s, op.Keeps buffers s.cache) →
    KvCache.SameOff (fun l b p => ∃ op ∈ ops, op.Writes buffers s.cache l b p) s.cache (runPlan buffers o i ops s).2.cache := by
  intro ops
  induction ops with
  | nil => exact fun _ => KvCache.SameOff.refl _ _
  | cons op rest ih =>
    intro i s hkeeps
    unfold runPlan
    cases hbefore : o.before i with
    | some e => exact KvCache.SameOff.refl _ _
    | none =>
      dsimp only
      have hhead := dispatch_sameOff fun hok => hkeeps op (mem_reached hbefore hok)
      have hfirst := hhead.mono fun l b p hw => (⟨op, List.mem_cons_self, hw⟩ : ∃ q ∈ op :: rest, q.Writes buffers s.cache l b p)
      rcases hstep : op.dispatch buffers s with ⟨_ | _, s'⟩
      · rw [hstep] at hfirst
        exact hfirst
      · rw [hstep] at hhead hfirst
        have hrest := ih fun q hq => (KvOp.keeps_frame hhead.frame).mpr (hkeeps q (reached_tail hbefore hstep hq))
        refine hfirst.trans (hrest.mono fun l b p => ?_)
        rintro ⟨q, hq, hw⟩
        exact ⟨q, List.mem_cons_of_mem _ hq, (KvOp.writes_frame hhead.frame l b p).mp hw⟩

theorem dispatch_past (op : KvOp K) (s : KvSession K) : (op.dispatch buffers s).2.cache.pastLen ≤ s.cache.pastLen := by
  rcases op.dispatch_cache s with h | ⟨-, h⟩
  · exact Int.le_of_eq (congrArg _ h)
  · rw [h]
    exact (op.append_past s).1

/-- What every operator preserves, done or failed, a run preserves. By the operators. -/
theorem runPlan_preserves {r : KvSession K → KvSession K → Prop} (hrefl : ∀ s, r s s) (htrans : ∀ {a b c}, r a b → r b c → r a c) :
    ∀ {ops : List (KvOp K)} {i : Nat} {s : KvSession K}, (∀ op ∈ ops, ∀ s, r s (op.dispatch buffers s).2) →
      r s (runPlan buffers o i ops s).2 := by
  intro ops
  induction ops with
  | nil => exact fun _ => hrefl _
  | cons op rest ih =>
    intro i s hops
    have hhead := hops op List.mem_cons_self s
    unfold runPlan
    cases o.before i with
    | some e => exact hrefl s
    | none =>
      dsimp only
      rcases hstep : op.dispatch buffers s with ⟨_ | _, s'⟩
      · rw [hstep] at hhead
        exact hhead
      · rw [hstep] at hhead
        exact htrans hhead (ih fun q hq => hops q (List.mem_cons_of_mem _ hq))

theorem runPlan_past (ops : List (KvOp K)) (i : Nat) (s : KvSession K) :
    (runPlan buffers o i ops s).2.cache.pastLen ≤ s.cache.pastLen :=
  runPlan_preserves (r := fun a b => b.cache.pastLen ≤ a.cache.pastLen) (fun _ => Int.le_refl _) (fun h h' => Int.le_trans h' h)
    fun op _ s => dispatch_past op s

/-- A run that reaches an append that drops rows. -/
theorem runPlan_drops : ∀ {ops : List (KvOp K)} {i : Nat} {s : KvSession K} {q : KvOp K},
    q ∈ reachedAppends buffers o i ops s → ¬ q.Keeps buffers s.cache →
    (runPlan buffers o i ops s).2.cache.pastLen < s.cache.pastLen := by
  intro ops
  induction ops with
  | nil => simp [reachedAppends]
  | cons op rest ih =>
    intro i s q hq hdrops
    unfold runPlan
    unfold reachedAppends at hq
    cases hbefore : o.before i with
    | some e => simp [hbefore] at hq
    | none =>
      rw [hbefore] at hq
      dsimp only at hq ⊢
      by_cases hhead : (op.outcome buffers s).1 = .ok () ∧ ¬ op.Keeps buffers s.cache
      · have hlt := (op.append_past s).2 hhead.2
        have hcache : (op.dispatch buffers s).2.cache = (op.append buffers s).2 := by
          unfold KvOp.dispatch
          rcases hout : op.outcome buffers s with ⟨_ | _, outs⟩
          · simp [hout] at hhead
          · rfl
        rcases hstep : op.dispatch buffers s with ⟨_ | _, s'⟩
        · rw [hstep] at hcache
          rw [← hcache] at hlt
          exact hlt
        · rw [hstep] at hcache
          rw [← hcache] at hlt
          exact Int.lt_of_le_of_lt (runPlan_past rest (i + 1) s') hlt
      · have hsame : KvCache.SameOff (op.Writes buffers s.cache) s.cache (op.dispatch buffers s).2.cache :=
          dispatch_sameOff fun hok => Classical.not_not.mp fun hk => hhead ⟨hok, hk⟩
        rcases List.mem_append.mp hq with hq | hq
        · split at hq
          · cases hq
          · next hok =>
            rw [List.mem_singleton] at hq
            exact absurd ⟨hok, hq ▸ hdrops⟩ hhead
        · rcases hstep : op.dispatch buffers s with ⟨_ | _, s'⟩
          · rw [hstep] at hq
            cases hq
          · rw [hstep] at hq hsame
            have hpast := (KvCache.frame_inj hsame.frame).2.2.2.2.2.2.1
            have hlt := ih hq fun hk => hdrops ((KvOp.keeps_frame hsame.frame).mp hk)
            rw [hpast] at hlt
            exact hlt

theorem runPlan_noLayer {ops : List (KvOp K)} {i : Nat} {s : KvSession K} (hnone : ∀ op ∈ ops, op.layer = none) :
    (runPlan buffers o i ops s).2.cache = s.cache := by
  refine runPlan_preserves (r := fun a b => b.cache = a.cache) (fun _ => rfl) (fun h h' => h'.trans h) fun op hop s => ?_
  rcases op.dispatch_cache s with h | ⟨-, h⟩
  · exact h
  · rw [h, KvOp.append, hnone op hop]

end Plan

/-! ## Retrying -/

/-- The same floats in the tensors `done`, and in those that no operator writes. -/
def Agree (all done : List Nat) (f g : Nat → List K) : Prop := ∀ t, t ∈ done ∨ t ∉ all → f t = g t

/-- Every operator reads what earlier ones wrote, or what none writes. -/
def OrderedFrom (all : List Nat) : List Nat → List (KvOp K) → Prop
  | _, [] => True
  | done, op :: rest => (∀ t ∈ op.inputs, t ∈ done ∨ t ∉ all) ∧ OrderedFrom all (done ++ op.outputs) rest

/-- A plan in the order of its dependencies. -/
structure ForwardPlan (K : Type) where
  ops : List (KvOp K)
  ordered : OrderedFrom (ops.flatMap (·.outputs)) [] ops

section Retry

variable {buffers : Nat → TensorView K} {all done : List Nat} {op : KvOp K} {s d : KvSession K}

theorem outcome_agree (hin : ∀ t ∈ op.inputs, s.floats t = d.floats t) (hc : s.cache.committed = d.cache.committed) :
    op.outcome buffers s = op.outcome buffers d := by
  unfold KvOp.outcome
  rw [hc]
  congr 1
  refine List.map_congr_left fun t ht => ?_
  rw [viewOf, viewOf, hin t ht]

theorem arg_agree {f g : Nat → List K} (hin : ∀ t ∈ op.inputs, f t = g t) (i : Nat) : op.arg buffers f i = op.arg buffers g i := by
  unfold KvOp.arg
  cases h : op.inputs[i]? with
  | none => rfl
  | some t =>
    rw [Option.map_some, Option.map_some, viewOf, viewOf, hin t (List.mem_of_getElem? h)]

theorem put_agree {f g : Nat → List K} (h : Agree all done f g) (outs : Nat → List K) :
    Agree all (done ++ op.outputs) (op.put outs f) (op.put outs g) := by
  intro t ht
  unfold KvOp.put
  split
  · rfl
  · next hout =>
    refine h t (ht.imp_left fun hm => ?_)
    exact (List.mem_append.mp hm).resolve_right hout

/-- One operator on equal caches. -/
theorem dispatch_agree (hagree : Agree all done s.floats d.floats) (hin : ∀ t ∈ op.inputs, t ∈ done ∨ t ∉ all)
    (hc : s.cache = d.cache) : (op.dispatch buffers s).1 = (op.dispatch buffers d).1 ∧
      (op.dispatch buffers s).2.cache = (op.dispatch buffers d).2.cache ∧
      Agree all (done ++ op.outputs) (op.dispatch buffers s).2.floats (op.dispatch buffers d).2.floats := by
  have hfloats : ∀ t ∈ op.inputs, s.floats t = d.floats t := fun t ht => hagree t (hin t ht)
  have happend : op.append buffers s = op.append buffers d := by
    unfold KvOp.append
    rw [hc, arg_agree hfloats, arg_agree hfloats]
  unfold KvOp.dispatch
  rw [outcome_agree hfloats (congrArg _ hc), happend]
  rcases op.outcome buffers d with ⟨_ | _, outs⟩
  · exact ⟨rfl, hc, put_agree hagree outs⟩
  · exact ⟨rfl, rfl, put_agree hagree outs⟩

/-- The rest of a plan on equal caches. -/
theorem runPlan_agree {o : Outside} : ∀ {ops : List (KvOp K)} {i : Nat} {done : List Nat} {s d : KvSession K},
    Agree all done s.floats d.floats → OrderedFrom all done ops → s.cache = d.cache →
    (runPlan buffers o i ops s).1 = (runPlan buffers o i ops d).1 ∧
      (runPlan buffers o i ops s).2.cache = (runPlan buffers o i ops d).2.cache ∧
      ((runPlan buffers o i ops s).1 = .ok () → Agree all (done ++ ops.flatMap (·.outputs))
        (runPlan buffers o i ops s).2.floats (runPlan buffers o i ops d).2.floats) := by
  intro ops
  induction ops with
  | nil =>
    intro i done s d hagree _ hc
    exact ⟨rfl, hc, fun _ => by simpa [runPlan] using hagree⟩
  | cons op rest ih =>
    intro i done s d hagree hord hc
    unfold runPlan
    cases o.before i with
    | some e => exact ⟨rfl, hc, fun h => by cases h⟩
    | none =>
      dsimp only
      have hhead : (op.dispatch buffers s).1 = (op.dispatch buffers d).1 ∧ _ := dispatch_agree hagree hord.1 hc
      rcases hhead with ⟨hres, hcache, hfloats⟩
      rcases hs : op.dispatch buffers s with ⟨e | _, s'⟩
      · rcases hd : op.dispatch buffers d with ⟨e' | _, d'⟩
        · rw [hs, hd] at hres hcache
          cases hres
          exact ⟨rfl, hcache, fun h => by cases h⟩
        · rw [hs, hd] at hres
          cases hres
      · rcases hd : op.dispatch buffers d with ⟨e' | _, d'⟩
        · rw [hs, hd] at hres
          cases hres
        · rw [hs, hd] at hcache hfloats
          rw [List.flatMap_cons, ← List.append_assoc]
          exact ih hfloats hord.2 hcache

/-- `d` is `last` but for the rows that the operators `ops` write from the cache `c` on. -/
structure Ahead (buffers : Nat → TensorView K) (ops : List (KvOp K)) (c d last : KvCache K) : Prop where
  rows : KvCache.SameOff (fun l b p => ∃ op ∈ ops, op.Writes buffers c l b p) last d
  pending : (∀ op ∈ ops, op.layer = none) → d.pendingSeq = last.pendingSeq

/-- A write that was part of what led to `last`, made again. -/
theorem Ahead.wrote {rest : List (KvOp K)} {c d last : KvCache K} {layer : Nat} {seq : Int} {k v : TensorView K}
    (h : Ahead buffers (op :: rest) c d last) (hl : op.layer = some layer) (hseq : op.appendSeq buffers c layer = .ok seq)
    (hlast : KvCache.SameOff (fun l b p => ∃ q ∈ rest, q.Writes buffers c l b p) (c.wrote layer seq k v) last)
    (hpending : (∀ q ∈ rest, q.layer = none) → last.pendingSeq = seq) :
    Ahead buffers rest (c.wrote layer seq k v) (d.wrote layer seq k v) last := by
  have hframe : d.frame = c.frame := h.rows.frame.trans hlast.frame
  rcases KvCache.frame_inj hframe with ⟨-, hb, -, hk, hv, -, hp, -⟩
  -- a row that the rest does not write is this write's, or was right before it
  have hrow : ∀ l b p, (¬ ∃ q ∈ rest, q.Writes buffers (c.wrote layer seq k v) l b p) →
      (l = (layer : Int).toNat ∧ b < c.batch ∧ c.pastLen ≤ p ∧ p < c.pastLen + seq) ∨
      ¬ (l = (layer : Int).toNat ∧ b < c.batch ∧ c.pastLen ≤ p ∧ p < c.pastLen + seq) ∧
        ¬ ∃ q ∈ op :: rest, q.Writes buffers c l b p := by
    intro l b p hrest
    by_cases hcell : l = (layer : Int).toNat ∧ b < c.batch ∧ c.pastLen ≤ p ∧ p < c.pastLen + seq
    · exact .inl hcell
    · refine .inr ⟨hcell, ?_⟩
      rintro ⟨q, hq, hw⟩
      rcases List.mem_cons.mp hq with rfl | hq
      · rcases hw with ⟨n, hlayer, hn, hrange⟩
        rw [hl] at hlayer
        cases hlayer
        rw [hseq] at hn
        cases hn
        exact hcell ⟨rfl, hrange⟩
      · exact hrest ⟨q, hq, hw⟩
  refine ⟨⟨hframe.trans hlast.frame.symm, fun l b p hw => ?_, fun l b p hw => ?_⟩, fun hnone => (hpending hnone).symm⟩
  · have hd : (d.wrote layer seq k v).k l b p = KvCache.writeRows layer c.batch c.pastLen seq c.kDim k.f32 d.k l b p := by
      rw [KvCache.wrote, hb, hp, hk]
    rw [hd]
    rcases hrow l b p hw with hcell | ⟨hcell, hnone⟩
    · exact (if_pos hcell).trans ((hlast.k l b p hw).trans (if_pos hcell)).symm
    · exact (if_neg hcell).trans (h.rows.k l b p hnone)
  · have hd : (d.wrote layer seq k v).v l b p = KvCache.writeRows layer c.batch c.pastLen seq c.vDim v.f32 d.v l b p := by
      rw [KvCache.wrote, hb, hp, hv]
    rw [hd]
    rcases hrow l b p hw with hcell | ⟨hcell, hnone⟩
    · exact (if_pos hcell).trans ((hlast.v l b p hw).trans (if_pos hcell)).symm
    · exact (if_neg hcell).trans (h.rows.v l b p hnone)

/-- The append that is part of what led to `last`, made again. -/
theorem Ahead.append {rest : List (KvOp K)} {last : KvCache K} (h : Ahead buffers (op :: rest) s.cache d.cache last)
    (hlast : KvCache.SameOff (fun l b p => ∃ q ∈ rest, q.Writes buffers s.cache l b p) (op.append buffers s).2 last)
    (hpending : (∀ q ∈ rest, q.layer = none) → last.pendingSeq = (op.append buffers s).2.pendingSeq)
    (hkeeps : op.Keeps buffers s.cache) (hin : ∀ t ∈ op.inputs, s.floats t = d.floats t)
    (hok : (op.append buffers s).1 = .ok ()) :
    (op.append buffers d).1 = .ok () ∧ Ahead buffers rest (op.append buffers s).2 (op.append buffers d).2 last := by
  have hframe : d.cache.frame = s.cache.frame :=
    h.rows.frame.trans (hlast.frame.trans (KvOp.append_sameOff hkeeps).frame)
  cases hl : op.layer with
  | none =>
    have hs : op.append buffers s = (.ok (), s.cache) := by rw [KvOp.append, hl]
    have hd : op.append buffers d = (.ok (), d.cache) := by rw [KvOp.append, hl]
    rw [hs, hd]
    refine ⟨rfl, h.rows.mono fun l b p => ?_, fun hnone => h.pending fun q hq => ?_⟩
    · rintro ⟨q, hq, hw⟩
      rcases List.mem_cons.mp hq with rfl | hq
      · rcases hw with ⟨seq, hlayer, -⟩
        simp [hl] at hlayer
      · exact ⟨q, hq, hw⟩
    · rcases List.mem_cons.mp hq with rfl | hq
      · exact hl
      · exact hnone q hq
  | some layer =>
    have hs := KvOp.append_keeps hkeeps hl
    have hd := KvOp.append_keeps ((KvOp.keeps_frame hframe).mpr hkeeps) hl
    rw [KvCache.appendRoom_frame hframe, ← arg_agree hin, ← arg_agree hin] at hd
    cases hroom : s.cache.appendRoom layer (op.arg buffers s.floats 1) (op.arg buffers s.floats 2) with
    | error e =>
      rw [hroom] at hs
      rw [hs] at hok
      cases hok
    | ok seq =>
      rw [hroom] at hs hd
      rw [hs] at hlast hpending ⊢
      rw [hd]
      have hseq := KvCache.appendRoom_checks hroom
      rw [KvOp.appendChecks_arg] at hseq
      exact ⟨rfl, h.wrote hl hseq hlast hpending⟩

theorem Ahead.committed {ops : List (KvOp K)} {c d last : KvCache K} (h : Ahead buffers ops c d last)
    (hlast : KvCache.SameOff (fun l b p => ∃ op ∈ ops, op.Writes buffers c l b p) c last) : d.committed = c.committed := by
  refine (hlast.trans h.rows).committed fun l b p => ?_
  rintro ⟨op, -, seq, -, -, -, hp, -⟩
  exact hp

/-- With nothing left to write, the caches are equal. -/
theorem Ahead.nil {c d last : KvCache K} (h : Ahead buffers [] c d last) : d = last := by
  have hframe := KvCache.frame_inj h.rows.frame
  have hpending := h.pending (by simp)
  have hk : d.k = last.k := by
    funext l b p
    exact h.rows.k l b p (by simp)
  have hv : d.v = last.v := by
    funext l b p
    exact h.rows.v l b p (by simp)
  cases d
  cases last
  simp_all

/-- The operators that led to `last`, run again: they stop before it as they would have,
    or lead to it. -/
theorem replay {o o' : Outside} {last : KvSession K} : ∀ {ops : List (KvOp K)} {i : Nat} {done : List Nat} {s d : KvSession K},
    (∀ op ∈ reachedAppends buffers o i ops s, op.Keeps buffers s.cache) → runPlan buffers o i ops s = (.ok (), last) →
    Ahead buffers ops s.cache d.cache last.cache → Agree all done s.floats d.floats → OrderedFrom all done ops →
    ((runPlan buffers o' i ops s).1 = (runPlan buffers o' i ops d).1 ∧
      (runPlan buffers o' i ops s).2.cache.committed = (runPlan buffers o' i ops d).2.cache.committed ∧
      (runPlan buffers o' i ops s).1 ≠ .ok ()) ∨
    ∃ d', runPlan buffers o' i ops s = (.ok (), last) ∧ runPlan buffers o' i ops d = (.ok (), d') ∧ d'.cache = last.cache ∧
      Agree all (done ++ ops.flatMap (·.outputs)) last.floats d'.floats := by
  intro ops
  induction ops with
  | nil =>
    intro i done s d _ hrun hahead hagree _
    cases hrun
    refine .inr ⟨d, rfl, rfl, hahead.nil, ?_⟩
    simpa using hagree
  | cons op rest ih =>
    intro i done s d hkeeps hrun hahead hagree hord
    have hlast := runPlan_sameOff hkeeps
    rw [hrun] at hlast
    have hcommitted := hahead.committed hlast
    have hin : ∀ t ∈ op.inputs, s.floats t = d.floats t := fun t ht => hagree t (hord.1 t ht)
    unfold runPlan at hrun ⊢
    cases ho : o.before i with
    | some e => simp [ho] at hrun
    | none =>
      cases ho' : o'.before i with
      | some e => exact .inl ⟨rfl, hcommitted.symm, fun h => by cases h⟩
      | none =>
        rw [ho] at hrun
        dsimp only at hrun ⊢
        rcases hout : op.outcome buffers s with ⟨e | _, outs⟩
        · simp [KvOp.dispatch, hout] at hrun
        have hstep : op.dispatch buffers s = ((op.append buffers s).1, ⟨op.put outs s.floats, (op.append buffers s).2⟩) := by
          rw [KvOp.dispatch, hout]
        have hstep' : op.dispatch buffers d = ((op.append buffers d).1, ⟨op.put outs d.floats, (op.append buffers d).2⟩) := by
          rw [KvOp.dispatch, ← outcome_agree hin hcommitted.symm, hout]
        cases hok : (op.append buffers s).1 with
        | error e =>
          rw [hstep, hok] at hrun
          cases hrun
        | ok _ =>
          rw [hok] at hstep
          rw [hstep] at hrun
          dsimp only at hrun
          have hreach : (op.outcome buffers s).1 = .ok () := by rw [hout]
          have hhead := hkeeps op (mem_reached ho hreach)
          have hsame := KvOp.append_sameOff hhead
          have hkeeps' : ∀ q ∈ reachedAppends buffers o (i + 1) rest ⟨op.put outs s.floats, (op.append buffers s).2⟩,
              q.Keeps buffers (op.append buffers s).2 :=
            fun q hq => (KvOp.keeps_frame hsame.frame).mpr (hkeeps q (reached_tail ho hstep hq))
          have hrest := runPlan_sameOff hkeeps'
          rw [hrun] at hrest
          have hpending : (∀ q ∈ rest, q.layer = none) → last.cache.pendingSeq = (op.append buffers s).2.pendingSeq := by
            intro hnone
            have hcache : (runPlan buffers o (i + 1) rest ⟨op.put outs s.floats, (op.append buffers s).2⟩).2.cache =
                (op.append buffers s).2 := runPlan_noLayer hnone
            rw [hrun] at hcache
            rw [hcache]
          have hwrites := hrest.mono fun l b p => by
            rintro ⟨q, hq, hw⟩
            exact (⟨q, hq, (KvOp.writes_frame hsame.frame l b p).mp hw⟩ : ∃ q ∈ rest, q.Writes buffers s.cache l b p)
          rcases hahead.append hwrites hpending hhead hin hok with ⟨hok', hahead'⟩
          rw [hok'] at hstep'
          rw [hstep, hstep']
          dsimp only
          rw [List.flatMap_cons, ← List.append_assoc]
          exact ih hkeeps' hrun hahead' (put_agree hagree outs) hord.2

theorem orderedFrom_append : ∀ {P Q : List (KvOp K)} {done : List Nat}, OrderedFrom all done (P ++ Q) →
    OrderedFrom all done P ∧ OrderedFrom all (done ++ P.flatMap (·.outputs)) Q := by
  intro P
  induction P with
  | nil => exact fun h => ⟨trivial, by simpa using h⟩
  | cons op P ih =>
    intro Q done h
    rcases ih h.2 with ⟨hP, hQ⟩
    rw [List.flatMap_cons, ← List.append_assoc]
    exact ⟨⟨h.1, hP⟩, hQ⟩

theorem runPlan_append (o : Outside) (Q : List (KvOp K)) : ∀ (P : List (KvOp K)) (i : Nat) (s : KvSession K),
    runPlan buffers o i (P ++ Q) s =
      match runPlan buffers o i P s with
      | (.error e, s) => (.error e, s)
      | (.ok (), s) => runPlan buffers o (i + P.length) Q s := by
  intro P
  induction P with
  | nil => exact fun i s => rfl
  | cons op P ih =>
    intro i s
    rw [List.cons_append, runPlan, runPlan]
    cases o.before i with
    | some e => rfl
    | none =>
      dsimp only
      rcases op.dispatch buffers s with ⟨_ | _, s'⟩
      · rfl
      · dsimp only
        rw [ih, List.length_cons, Nat.add_assoc, Nat.add_comm 1]

theorem dispatch_floats (op : KvOp K) (s : KvSession K) {t : Nat} (ht : t ∉ op.outputs) :
    (op.dispatch buffers s).2.floats t = s.floats t := by
  unfold KvOp.dispatch
  rcases op.outcome buffers s with ⟨_ | _, outs⟩
  · exact if_neg ht
  · exact if_neg ht

/-- An operator that fails leaves the cache alone, unless its append drops rows. -/
theorem dispatch_failed {e : Fault} {s' : KvSession K} (h : op.dispatch buffers s = (.error e, s'))
    (hkeeps : (op.outcome buffers s).1 = .ok () → op.Keeps buffers s.cache) : s'.cache = s.cache := by
  unfold KvOp.dispatch at h
  rcases hout : op.outcome buffers s with ⟨_ | _, outs⟩
  · rw [hout] at h
    cases h
    rfl
  · rw [hout] at h hkeeps
    rcases Prod.mk.inj h with ⟨hres, hstate⟩
    rw [← hstate]
    cases hl : op.layer with
    | none => simp [KvOp.append, hl] at hres
    | some layer =>
      have happend := KvOp.append_keeps (hkeeps rfl) hl
      dsimp only
      rw [happend] at hres ⊢
      cases hroom : s.cache.appendRoom layer (op.arg buffers s.floats 1) (op.arg buffers s.floats 2) with
      | error e => rfl
      | ok seq =>
        rw [hroom] at hres
        cases hres

theorem runPlan_floats {o : Outside} {t : Nat} {ops : List (KvOp K)} {i : Nat} {s : KvSession K} (ht : t ∉ ops.flatMap (·.outputs)) :
    (runPlan buffers o i ops s).2.floats t = s.floats t :=
  runPlan_preserves (r := fun a b => b.floats t = a.floats t) (fun _ => rfl) (fun h h' => h'.trans h)
    fun op hop s => dispatch_floats op s fun hout => ht (List.mem_flatMap.mpr ⟨op, hop, hout⟩)

/-- For the cache, a failed run is a run of the operators before the failure. -/
theorem runPlan_failed {o : Outside} {e : Fault} {s' : KvSession K} : ∀ {ops : List (KvOp K)} {i : Nat} {s : KvSession K},
    (∀ q ∈ reachedAppends buffers o i ops s, q.Keeps buffers s.cache) → runPlan buffers o i ops s = (.error e, s') →
    ∃ P Q last, ops = P ++ Q ∧ runPlan buffers o i P s = (.ok (), last) ∧
      (∀ q ∈ reachedAppends buffers o i P s, q.Keeps buffers s.cache) ∧ s'.cache = last.cache := by
  intro ops
  induction ops with
  | nil =>
    intro i s _ h
    cases h
  | cons op rest ih =>
    intro i s hkeeps h
    unfold runPlan at h
    cases ho : o.before i with
    | some e' =>
      rw [ho] at h
      cases h
      exact ⟨[], op :: rest, _, rfl, rfl, by simp [reachedAppends], rfl⟩
    | none =>
      rw [ho] at h
      dsimp only at h
      have hhead : (op.outcome buffers s).1 = .ok () → op.Keeps buffers s.cache := fun hok => hkeeps op (mem_reached ho hok)
      rcases hstep : op.dispatch buffers s with ⟨e' | _, s₁⟩
      · rw [hstep] at h
        cases h
        exact ⟨[], op :: rest, _, rfl, rfl, by simp [reachedAppends], dispatch_failed hstep hhead⟩
      · rw [hstep] at h
        have hsame := dispatch_sameOff hhead
        rw [hstep] at hsame
        rcases ih (fun q hq => (KvOp.keeps_frame hsame.frame).mpr (hkeeps q (reached_tail ho hstep hq))) h with
          ⟨P, Q, last, hops, hrun, hreach, hcache⟩
        refine ⟨op :: P, Q, last, by rw [hops, List.cons_append], ?_, fun q hq => ?_, hcache⟩
        · rw [runPlan, ho]
          dsimp only
          rw [hstep]
          exact hrun
        · unfold reachedAppends at hq
          rw [ho, hstep] at hq
          dsimp only at hq
          rcases List.mem_append.mp hq with hq | hq
          · split at hq
            · cases hq
            · next hok =>
              rw [List.mem_singleton] at hq
              exact hq ▸ hhead hok
          · exact (KvOp.keeps_frame hsame.frame).mp (hreach q hq)

end Retry

/-! ## A failed run -/

/-- The same result, with the same rows committed; and the same state on success. -/
structure SameOutcome (r r' : Result Unit × KvSession K) : Prop where
  result : r.1 = r'.1
  committed : r.2.cache.committed = r'.2.cache.committed
  state : r.1 = .ok () → r.2 = r'.2

/-- A failed run has changed nothing that is committed, and another run goes as it would have
    gone without it. -/
structure Hidden (buffers : Nat → TensorView K) (ops : List (KvOp K)) (s s' : KvSession K) : Prop where
  committed : s'.cache.committed = s.cache.committed
  retry : ∀ o, SameOutcome (runSession buffers o ops s') (runSession buffers o ops s)

section Failed

variable {buffers : Nat → TensorView K} {s s' : KvSession K}

theorem SameOutcome.forward {ops : List (KvOp K)} (hc : s'.cache.committed = s.cache.committed) {o : Outside}
    (h : SameOutcome (runPlan buffers o 0 ops s') (runPlan buffers o 0 ops s)) :
    SameOutcome (runForward buffers o ops s') (runForward buffers o ops s) := by
  rcases h with ⟨hres, hcommitted, hstate⟩
  unfold runForward
  cases o.start with
  | some e => exact ⟨rfl, hc, fun h => by cases h⟩
  | none =>
    dsimp only
    rcases hs : runPlan buffers o 0 ops s with ⟨e | _, t⟩
    · rcases hs' : runPlan buffers o 0 ops s' with ⟨e' | _, t'⟩
      · rw [hs, hs'] at hres hcommitted
        exact ⟨hres, hcommitted, fun h => by cases h⟩
      · rw [hs, hs'] at hres
        cases hres
    · rcases hs' : runPlan buffers o 0 ops s' with ⟨e' | _, t'⟩
      · rw [hs, hs'] at hres
        cases hres
      · rw [hs, hs'] at hstate
        cases hstate rfl
        cases o.synchronize with
        | some e => exact ⟨rfl, rfl, fun h => by cases h⟩
        | none => exact ⟨rfl, rfl, fun _ => rfl⟩

theorem SameOutcome.session {ops : List (KvOp K)} {o : Outside}
    (h : SameOutcome (runForward buffers o ops s') (runForward buffers o ops s)) :
    SameOutcome (runSession buffers o ops s') (runSession buffers o ops s) := by
  rcases h with ⟨hres, hcommitted, hstate⟩
  unfold runSession
  rcases hs : runForward buffers o ops s with ⟨e | _, t⟩
  · rcases hs' : runForward buffers o ops s' with ⟨e' | _, t'⟩
    · rw [hs, hs'] at hres hcommitted
      exact ⟨hres, hcommitted, fun h => by cases h⟩
    · rw [hs, hs'] at hres
      cases hres
  · rcases hs' : runForward buffers o ops s' with ⟨e' | _, t'⟩
    · rw [hs, hs'] at hres
      cases hres
    · rw [hs, hs'] at hstate
      cases hstate rfl
      exact ⟨rfl, rfl, fun _ => rfl⟩

/-- A state whose cache is where some of the operators led. -/
theorem hidden_of_prefix {plan : ForwardPlan K} {o : Outside} {P Q : List (KvOp K)} {last : KvSession K} (hops : plan.ops = P ++ Q)
    (hkeeps : ∀ q ∈ reachedAppends buffers o 0 P s, q.Keeps buffers s.cache) (hrun : runPlan buffers o 0 P s = (.ok (), last))
    (hcache : s'.cache = last.cache) (hfloats : ∀ t, t ∉ plan.ops.flatMap (·.outputs) → s'.floats t = s.floats t) :
    Hidden buffers plan.ops s s' := by
  have hlast := runPlan_sameOff hkeeps
  rw [hrun] at hlast
  have hahead : Ahead buffers P s.cache s'.cache last.cache := by
    rw [hcache]
    exact ⟨KvCache.SameOff.refl _ _, fun _ => rfl⟩
  have hcommitted := hahead.committed hlast
  have hagree : Agree (plan.ops.flatMap (·.outputs)) [] s.floats s'.floats := by
    rintro t (ht | ht)
    · cases ht
    · exact (hfloats t ht).symm
  have hord := plan.ordered
  rw [hops] at hord
  rcases orderedFrom_append hord with ⟨hordP, hordQ⟩
  refine ⟨hcommitted, fun o' => (SameOutcome.forward hcommitted ?_).session⟩
  rw [hops] at hagree ⊢
  rw [runPlan_append, runPlan_append]
  rcases replay hkeeps hrun hahead hagree hordP with ⟨hres, hc, hfailed⟩ | ⟨d', hs, hd, hdcache, hdagree⟩
  · rcases hs : runPlan buffers o' 0 P s with ⟨e | _, t⟩
    · rcases hd : runPlan buffers o' 0 P s' with ⟨e' | _, t'⟩
      · rw [hs, hd] at hres hc
        exact ⟨hres.symm, hc.symm, fun h => by cases h⟩
      · rw [hs, hd] at hres
        cases hres
    · rw [hs] at hfailed
      exact absurd rfl hfailed
  · rw [hs, hd]
    dsimp only
    rcases runPlan_agree hdagree hordQ hdcache.symm with ⟨hres, hc, hfinal⟩
    refine ⟨hres.symm, congrArg _ hc.symm, fun hok => ?_⟩
    have hall := hfinal (hres.trans hok)
    rcases hl : runPlan buffers o' (0 + P.length) Q last with ⟨r, ⟨f, c⟩⟩
    rcases hr : runPlan buffers o' (0 + P.length) Q d' with ⟨r', ⟨f', c'⟩⟩
    rw [hl, hr] at hc hall
    have hff : f = f' := by
      funext t
      refine hall t ?_
      rw [List.nil_append, ← List.flatMap_append]
      exact Classical.em _
    rw [hff, show c = c' from hc]

/-- What a failed run leaves, before what follows it. -/
theorem runForward_failed {o : Outside} {ops : List (KvOp K)} {e : Fault} (hstart : o.start = none)
    (h : runForward buffers o ops s = (.error e, s')) : s' = (runPlan buffers o 0 ops s).2 := by
  unfold runForward at h
  rw [hstart] at h
  dsimp only at h
  rcases hrun : runPlan buffers o 0 ops s with ⟨_ | _, t⟩
  · rw [hrun] at h
    exact (Prod.mk.inj h).2.symm
  · rw [hrun] at h
    cases hsync : o.synchronize with
    | none => simp [hsync] at h
    | some e' =>
      rw [hsync] at h
      exact (Prod.mk.inj h).2.symm

/-- `Attention` of a layer as an operator on tensors. -/
def attentionOp [Field K] [LinearOrder K] (exp tanh sqrt : K → K) (p : AttnParams K) (nodeId layer q k v out : Nat)
    (outView : TensorView K) : KvOp K :=
  ⟨"Attention", nodeId, [q, k, v], [out], some layer, fun ins c =>
    match attentionKvF32 exp tanh sqrt p (ins.getD 0 .null) (ins.getD 1 .null) (ins.getD 2 .null) outView
      (present (c.kView layer)) (present (c.vView layer)) with
    | .error e => (.error e, fun _ => [])
    | .ok xs => (.ok (), fun _ => xs)⟩

/-- One head of one float; tensor 3 is the output, and tensor 4 a copy of it. -/
def copyPlan : ForwardPlan Rat :=
  ⟨[attentionOp (fun _ => 1) id id ⟨1, 1, true, 0, 0⟩ 1 0 0 1 2 3 (.ofF32 [1, 1, 1] [0]),
    ⟨"Identity", 2, [3], [4], none, fun ins _ => (.ok (), fun _ => (ins.getD 0 .null).f32)⟩], by simp [OrderedFrom, attentionOp]⟩

/-- A window of two rows, of which `past` are taken. -/
def copySession (past : Int) : KvSession Rat :=
  ⟨fun _ => [1], ⟨1, 1, 2, 1, 1, 1, past, 0, past, 0, 0, fun _ _ p => [10 * (p + 1)], fun _ _ p => [10 * (p + 1)]⟩⟩

/-- The copy's inputs cannot be staged. -/
def stagingFails : Outside := ⟨none, fun i => if i = 1 then some (.error .ioError "open failed") else none, none, none⟩

def oneFloat : Nat → TensorView Rat := fun _ => .ofF32 [1, 1, 1] [0]

end Failed

end Uaii.Runtime
