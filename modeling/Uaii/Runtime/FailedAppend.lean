/-
  Uaii.Runtime.FailedAppend — what a call of `append_layer` leaves when it fails
  (`include/uaii/runtime/kv_cache.hpp`).

  `compact_to_fit` drops rows of every layer before `ensure_capacity` has its say, and
  never those of the sink.

  Proved: a failed call leaves the cache as it was unless it drops in vain, that is, rows
  were dropped and the new ones do not fit beside the sink (`failed_append_keeps_iff`).
  Steps that fit beside the sink never do (`append_keeps_of_fits`).

  As built, a prompt chunk larger than the window without its sink shortens the cache by
  the call that refuses it (`refused_chunk_shortens`).
-/

import Uaii.Runtime.KvStore

namespace Uaii.Runtime.KvStore

open Uaii.Kernels

variable {K : Type}

/-- What a caller sees of a cache. -/
structure SameCache (c c' : KvStore K) : Prop where
  past : c'.pastLen = c.pastLen
  pending : c'.pendingSeq = c.pendingSeq
  ropePos : c'.ropePos = c.ropePos
  kView : ∀ layer, c'.kView layer = c.kView layer
  vView : ∀ layer, c'.vView layer = c.vView layer

theorem SameCache.refl (c : KvStore K) : SameCache c c := ⟨rfl, rfl, rfl, fun _ => rfl, fun _ => rfl⟩

/-- A returned error leaves the cache as it was. -/
def KeepsOnError (c : KvStore K) (layer : Int) (k v : TensorView K) : Prop :=
  ∀ code message, (c.appendLayer layer k v).1 = fail code message → SameCache c (c.appendLayer layer k v).2

/-- Rows beyond the sink are dropped, and what is left has no room for `seq` more. A
    configured cache has a positive `max_seq`. -/
def DropsInVain (c : KvStore K) (seq : Int) : Prop :=
  c.maxSeq < c.pastLen + seq ∧ c.sink < c.pastLen ∧ (c.maxSeq < c.sink + seq ∨ c.maxSeq < 0)

instance (c : KvStore K) (seq : Int) : Decidable (c.DropsInVain seq) := inferInstanceAs (Decidable (_ ∧ _))

section Compact

variable {c : KvStore K} {seq : Int}

/-- Nothing is dropped, or as much as is needed, or all but the sink. -/
theorem compactToFit_past (c : KvStore K) (seq : Int) :
    (c.pastLen + seq ≤ c.maxSeq ∨ c.pastLen ≤ c.sink) ∧ c.compactToFit seq = c ∨
      (c.maxSeq < c.pastLen + seq ∧ c.sink < c.pastLen) ∧
        (c.compactToFit seq).pastLen = max c.sink (c.maxSeq - seq) := by
  unfold compactToFit
  dsimp only
  split_ifs with hfits hall hnone hnone
  · exact .inl ⟨.inl hfits, rfl⟩
  · exact .inl ⟨.inr (by omega), rfl⟩
  · exact .inr ⟨by omega, show c.pastLen - _ = _ by omega⟩
  · exact .inl ⟨.inr (by omega), rfl⟩
  · exact .inr ⟨by omega, show c.pastLen - _ = _ by omega⟩

theorem compactToFit_sizes (c : KvStore K) (seq : Int) :
    (c.compactToFit seq).nLayers = c.nLayers ∧ (c.compactToFit seq).maxSeq = c.maxSeq := by
  unfold compactToFit
  dsimp only
  split_ifs <;> exact ⟨rfl, rfl⟩

/-- The checks pass for configured caches only. -/
theorem configured_of_checks {layer : Int} {k v : TensorView K} (h : c.rows.appendChecks layer k v = .ok seq) :
    c.rows.configured = true := by
  unfold KvCache.appendChecks at h
  split at h
  · exact absurd h (fail_ne_ok _ _ _)
  · next hconf => simpa using hconf

/-- Whether there is room after compaction. -/
theorem ensureCapacity_compacted (hconf : c.rows.configured = true) :
    (∃ code message, (c.compactToFit seq).rows.ensureCapacity ((c.compactToFit seq).pastLen + seq) = fail code message) ↔
      (c.compactToFit seq).pastLen + seq < 0 ∨ c.maxSeq < (c.compactToFit seq).pastLen + seq := by
  obtain ⟨hlayers, hmax⟩ := compactToFit_sizes c seq
  have hconf' : (c.compactToFit seq).rows.configured = true := by
    show decide (0 < (c.compactToFit seq).nLayers) = true
    rw [hlayers]
    exact hconf
  have hmax' : (c.compactToFit seq).rows.maxSeq = c.maxSeq := hmax
  unfold KvCache.ensureCapacity
  rw [hconf', hmax', Bool.not_true, if_neg Bool.false_ne_true]
  split
  · next hover => exact ⟨fun _ => hover, fun _ => ⟨_, _, rfl⟩⟩
  · next hroom =>
    refine ⟨fun hfail => ?_, fun hover => absurd hover hroom⟩
    obtain ⟨code, message, hfail⟩ := hfail
    cases hfail

end Compact

/-- An error that is returned comes from a check, or from the capacity after compaction. -/
theorem appendLayer_fails {c : KvStore K} {layer : Int} {k v : TensorView K} {code : ErrorCode} {message : String}
    (h : (c.appendLayer layer k v).1 = fail code message) :
    (c.appendLayer layer k v).2 = c ∨ ∃ seq, c.rows.appendChecks layer k v = .ok seq ∧
      (c.compactToFit seq).rows.ensureCapacity ((c.compactToFit seq).pastLen + seq) = fail code message ∧
      (c.appendLayer layer k v).2 = c.compactToFit seq := by
  unfold appendLayer at h ⊢
  cases hchecks : c.rows.appendChecks layer k v with
  | error e => exact .inl rfl
  | ok seq =>
    right
    refine ⟨seq, rfl, ?_⟩
    simp only [hchecks] at h ⊢
    cases hcap : (c.compactToFit seq).rows.ensureCapacity ((c.compactToFit seq).pastLen + seq) with
    | error e =>
      simp only [hcap] at h ⊢
      exact ⟨h, trivial⟩
    | ok u =>
      simp only [hcap] at h
      split at h
      · cases h
      · cases h

theorem failed_append_keeps_iff (c : KvStore K) (layer : Int) (k v : TensorView K) :
    c.KeepsOnError layer k v ↔ ∀ seq, c.rows.appendChecks layer k v = .ok seq → ¬ c.DropsInVain seq := by
  constructor
  · intro hkeeps seq hchecks hvain
    obtain ⟨hover, hsink, hroom⟩ := hvain
    have hconf := configured_of_checks hchecks
    rcases compactToFit_past c seq with ⟨hnone, -⟩ | ⟨-, hpast⟩
    · omega
    · obtain ⟨code, message, hfail⟩ : ∃ code message,
          (c.compactToFit seq).rows.ensureCapacity ((c.compactToFit seq).pastLen + seq) = fail code message :=
        (ensureCapacity_compacted hconf).mpr (by omega)
      have hcall : c.appendLayer layer k v = (fail code message, c.compactToFit seq) := by
        unfold appendLayer
        simp only [hchecks, hfail]
        rfl
      have hsame := (hkeeps code message (by rw [hcall])).past
      rw [hcall] at hsame
      dsimp only at hsame
      omega
  · intro hroom code message hfail
    rcases appendLayer_fails hfail with hsame | ⟨seq, hchecks, hcap, hleft⟩
    · rw [hsame]
      exact .refl c
    · rcases compactToFit_past c seq with ⟨-, hsame⟩ | ⟨hdrop, hpast⟩
      · rw [hleft, hsame]
        exact .refl c
      · have hover := (ensureCapacity_compacted (configured_of_checks hchecks)).mp ⟨code, message, hcap⟩
        exact absurd ⟨hdrop.1, hdrop.2, by omega⟩ (hroom seq hchecks)

/-- So a step that fits beside the sink. -/
theorem append_keeps_of_fits {c : KvStore K} (hmax : 0 ≤ c.maxSeq) {layer : Int} {k v : TensorView K}
    (hfits : ∀ seq, c.rows.appendChecks layer k v = .ok seq → c.sink + seq ≤ c.maxSeq) : c.KeepsOnError layer k v := by
  refine (failed_append_keeps_iff c layer k v).mpr fun seq hchecks hvain => ?_
  obtain ⟨-, -, hroom⟩ := hvain
  have hle := hfits seq hchecks
  omega

/-! ## A chunk too large -/

/-- One layer, a window of three positions of which one is the sink. -/
def smallStore : KvStore Int := ⟨1, 1, 3, 1, 1, 1, 0, 0, 0, 0, 1, [[0, 0, 0]], [[0, 0, 0]]⟩

/-- After two tokens. -/
def twoTokens : KvStore Int := ⟨1, 1, 3, 1, 1, 1, 2, 0, 2, 0, 1, [[5, 6, 0]], [[5, 6, 0]]⟩

theorem twoTokens_reached : (KvStore.configure ⟨0, 0, 0, 0, 0, 0, 0, 0, 0, 0, 4, [], []⟩ 1 1 3 1 1 1 1) = .ok smallStore ∧
    (smallStore.appendLayer 0 (.ofF32 [1, 2, 1] [5, 6]) (.ofF32 [1, 2, 1] [5, 6])).1 = .ok () ∧
    (smallStore.appendLayer 0 (.ofF32 [1, 2, 1] [5, 6]) (.ofF32 [1, 2, 1] [5, 6])).2.commitStep = twoTokens := by
  decide

/-- Three tokens are refused, and the second token is gone. -/
theorem refused_chunk_shortens :
    (twoTokens.appendLayer 0 (.ofF32 [1, 3, 1] [7, 8, 9]) (.ofF32 [1, 3, 1] [7, 8, 9])).1 =
      fail .invalidArgument "KvCache capacity exceeded: seq=4 max_seq=3" ∧
    (twoTokens.appendLayer 0 (.ofF32 [1, 3, 1] [7, 8, 9]) (.ofF32 [1, 3, 1] [7, 8, 9])).2.pastLen = 1 ∧
    twoTokens.pastLen = 2 ∧ ¬ twoTokens.KeepsOnError 0 (.ofF32 [1, 3, 1] [7, 8, 9]) (.ofF32 [1, 3, 1] [7, 8, 9]) := by
  have hfail : (twoTokens.appendLayer 0 (.ofF32 [1, 3, 1] [7, 8, 9]) (.ofF32 [1, 3, 1] [7, 8, 9])).1 =
      fail .invalidArgument "KvCache capacity exceeded: seq=4 max_seq=3" := by decide
  refine ⟨hfail, by decide, rfl, fun hkeeps => ?_⟩
  exact absurd (hkeeps _ _ hfail).past (by decide)

end Uaii.Runtime.KvStore
