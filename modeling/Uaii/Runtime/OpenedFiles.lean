/-
  Uaii.Runtime.OpenedFiles — the files that a session opens for its weights
  (`libs/uaii-runtime/src/session.cpp`, `libs/uaii-loaders/src/registry.cpp`).

  Each `opens…` lists the files that the function of that name opens, in order. The
  header of a GGUF file names the file it was read from, so its tensors are read from
  the same one. A streamed weight is fetched by the loader that the session installs,
  again whenever it is staged.

  Proved: everything that is opened lies under the root, and a reference that leaves it is
  refused before anything is opened, exactly when every reference that a route takes without
  asking `path_under_root` names a file under the root (`session_confined_iff`).

  As built, only the raw read asks, and it comes last: the GGUF header, the generic
  loaders and the streaming loader have opened the file by then (`escape_is_opened`).
-/

import Uaii.Runtime.LoadWeights
import Uaii.Storage.Streaming

namespace Uaii.Runtime

open Uaii.Ir Uaii.Quant Uaii.Loaders Uaii.Planner

/-- The file of a reference. -/
def refPath (weightRef weightsDir : String) : String :=
  match splitHash weightRef with
  | some (file, _) => joinPath weightsDir file
  | none => joinPath weightsDir weightRef

/-- The sandbox, or the weights' directory. -/
def rootOf (o : SessionOptions) : String := if o.weightsSandbox = "" then o.weightsDir else o.weightsSandbox

section Opens

variable {K : Type} [CommRing K] (F : FloatBits K) (env : LoadEnv K) (o : SessionOptions) (t : Tensor) (d : Dest)

/-- `load_weight_ref_f32`. -/
def opensF32 (weightRef weightsDir : String) (hasDst : Bool) (nbytes : Nat) : List String :=
  if !hasDst ∨ nbytes = 0 then []
  else
    match splitHash weightRef with
    | some (file, _) =>
      if lowerExtension (joinPath weightsDir file) = ".gguf" then [joinPath weightsDir file]
      else if lowerExtension (joinPath weightsDir file) = ".safetensors" then [joinPath weightsDir file]
      else []
    | none => [joinPath weightsDir weightRef]

/-- `load_weight_ref_auto`, which gives `load_weight_ref_f32` no destination. -/
def opensAuto (weightRef weightsDir : String) : List String :=
  match splitHash weightRef with
  | none => opensF32 weightRef weightsDir false 0
  | some (file, _) =>
    if lowerExtension (joinPath weightsDir file) ≠ ".gguf" then opensF32 weightRef weightsDir false 0
    else [joinPath weightsDir file]

def opensCached : List String :=
  match splitHash t.weightRef with
  | none => []
  | some (file, _) =>
    let path := joinPath o.weightsDir file
    if extension path ≠ ".gguf" ∧ extension path ≠ ".GGUF" then [] else [path]

def opensLoader (st : Attempts K) : List String :=
  if st.loaded.isSome then []
  else
    (if wantsPacked o t then opensAuto t.weightRef o.weightsDir else []) ++
    match tryPacked o t d (loadWeightRefAuto F env.rd t.weightRef o.weightsDir t.shape) st with
    | .error _ => []
    | .ok st => if st.loaded.isSome ∨ !d.hasFloats then [] else opensF32 t.weightRef o.weightsDir true d.nbytes

def opensRaw (st : Attempts K) : List String :=
  if st.loaded.isSome ∨ !pathUnderRoot env (rootOf o) (rawPath o t) then [] else [rawPath o t]

/-- What the routes open that do not ask. -/
def opensUnchecked : List String :=
  opensCached o t ++
  match tryCached F env o t d ⟨none, none⟩ with
  | .error _ => []
  | .ok st => opensLoader F env o t d st

/-- One weight of `load_or_init_weights`. -/
def opensWeight : List String :=
  if t.weightRef = "" then []
  else
    opensUnchecked F env o t d ++
    match tryCached F env o t d ⟨none, none⟩ >>= tryLoader F env o t d with
    | .error _ => []
    | .ok st => opensRaw env o t st

/-- The reference that the streaming loader is given, or the tensor's own. -/
def streamRef (p : StoragePlacement) : String := if Storage.uriOf p = "" then t.weightRef else Storage.uriOf p

/-- The tensor loader that the session gives its streaming store. -/
def streamLoad (p : StoragePlacement) : Result (Content K) :=
  if wantsPacked o t then do
    let (packed, _) ← loadWeightRefAuto F env.rd (streamRef t p) o.weightsDir t.shape
    if packed.length ≠ p.bytes then
      fail .invalidArgument ("packed stream size mismatch for " ++ t.name ++ " got=" ++ toString packed.length ++ " want=" ++
        toString p.bytes)
    else .ok (.bytes packed)
  else loadWeightRefF32 F env.rd (streamRef t p) o.weightsDir t.shape true p.bytes

def opensStream (p : StoragePlacement) : List String :=
  if wantsPacked o t then opensAuto (streamRef t p) o.weightsDir
  else opensF32 (streamRef t p) o.weightsDir true p.bytes

/-! ## The condition -/

/-- A container that the loaders know. -/
def knownContainer (path : String) : Prop := lowerExtension path = ".gguf" ∨ lowerExtension path = ".safetensors"

/-- A route that does not ask takes the reference of a weight. -/
def Unchecked : Prop :=
  match splitHash t.weightRef with
  | some (file, _) =>
    let path := joinPath o.weightsDir file
    (extension path = ".gguf" ∨ extension path = ".GGUF") ∨ (wantsPacked o t = true ∧ lowerExtension path = ".gguf") ∨
      (d.hasFloats = true ∧ d.nbytes ≠ 0 ∧ knownContainer path)
  | none => d.hasFloats = true ∧ d.nbytes ≠ 0

/-- The streaming loader takes its reference. -/
def UncheckedStream (p : StoragePlacement) : Prop :=
  match splitHash (streamRef t p) with
  | some (file, _) =>
    let path := joinPath o.weightsDir file
    if wantsPacked o t then lowerExtension path = ".gguf" else p.bytes ≠ 0 ∧ knownContainer path
  | none => wantsPacked o t = false ∧ p.bytes ≠ 0

/-- The root holds what a path leads to. -/
def Under (path : String) : Prop := pathUnderRoot env (rootOf o) path = true

/-- Where no route takes a reference unasked, the file that the check is about must leave the root when the reference does;
    it is the reference's own unless the directory's name holds a `#`. -/
def Careful : Prop :=
  (t.weightRef ≠ "" → Unchecked o t d → Under env o (refPath t.weightRef o.weightsDir)) ∧
  (t.weightRef ≠ "" → ¬ Unchecked o t d → Under env o (rawPath o t) → Under env o (refPath t.weightRef o.weightsDir))

/-- All that is opened lies under the root, and a reference that leaves it is refused before anything is opened. -/
structure Confined (weightRef : String) (opened : List String) (refused : Prop) : Prop where
  inside : ∀ path ∈ opened, Under env o path
  refusal : weightRef ≠ "" → ¬ Under env o (refPath weightRef o.weightsDir) → opened = [] ∧ refused

end Opens

/-! ## One fetch -/

section Fetch

variable {K : Type} [CommRing K] {F : FloatBits K} {env : LoadEnv K} {o : SessionOptions} {t : Tensor} {d : Dest}

variable (F env) in
/-- The loader opens nothing or the reference's file, and fails when it opens nothing. -/
theorem opensF32_cases (weightRef weightsDir : String) (expected : List Int) (hasDst : Bool) (nbytes : Nat) :
    (opensF32 weightRef weightsDir hasDst nbytes = [] ∧
      ∃ code m, loadWeightRefF32 F env.rd weightRef weightsDir expected hasDst nbytes = .error (.error code m)) ∨
    opensF32 weightRef weightsDir hasDst nbytes = [refPath weightRef weightsDir] := by
  unfold opensF32 loadWeightRefF32 refPath
  split
  · exact .inl ⟨rfl, _, _, rfl⟩
  · cases hsplit : splitHash weightRef with
    | none => exact .inr rfl
    | some r =>
      obtain ⟨file, tensor⟩ := r
      dsimp only
      by_cases hg : lowerExtension (joinPath weightsDir file) = ".gguf"
      · exact .inr (if_pos hg)
      · by_cases hs : lowerExtension (joinPath weightsDir file) = ".safetensors"
        · exact .inr (by rw [if_neg hg, if_pos hs])
        · refine .inl ⟨by rw [if_neg hg, if_neg hs], .invalidArgument, "unsupported weight container in ref: " ++ weightRef, ?_⟩
          simp only [loadContainerF32, if_neg hg, if_neg hs]
          rfl

variable (F env) in
theorem opensAuto_cases (weightRef weightsDir : String) (expected : List Int) :
    (opensAuto weightRef weightsDir = [] ∧
      ∃ code m, loadWeightRefAuto F env.rd weightRef weightsDir expected = .error (.error code m)) ∨
    opensAuto weightRef weightsDir = [refPath weightRef weightsDir] := by
  unfold opensAuto loadWeightRefAuto refPath
  cases hsplit : splitHash weightRef with
  | none => exact .inl ⟨rfl, _, _, rfl⟩
  | some r =>
    obtain ⟨file, tensor⟩ := r
    dsimp only
    by_cases hg : lowerExtension (joinPath weightsDir file) = ".gguf"
    · exact .inr (by rw [if_neg (not_not.mpr hg)])
    · refine .inl ⟨by rw [if_pos hg]; rfl, .invalidArgument, "weight load args", ?_⟩
      simp only [if_pos hg]
      rfl

theorem opensF32_iff (weightRef weightsDir : String) (nbytes : Nat) : opensF32 weightRef weightsDir true nbytes ≠ [] ↔
    nbytes ≠ 0 ∧ ∀ file tensor, splitHash weightRef = some (file, tensor) → knownContainer (joinPath weightsDir file) := by
  unfold opensF32 knownContainer
  by_cases hn : nbytes = 0
  · simp [hn]
  · cases hsplit : splitHash weightRef with
    | none => simp [hn]
    | some r =>
      obtain ⟨file, tensor⟩ := r
      by_cases hg : lowerExtension (joinPath weightsDir file) = ".gguf"
      · simp [hn, hg]
      · by_cases hs : lowerExtension (joinPath weightsDir file) = ".safetensors" <;> simp [hn, hg, hs]

theorem opensAuto_iff (weightRef weightsDir : String) : opensAuto weightRef weightsDir ≠ [] ↔
    ∃ file tensor, splitHash weightRef = some (file, tensor) ∧ lowerExtension (joinPath weightsDir file) = ".gguf" := by
  unfold opensAuto
  cases hsplit : splitHash weightRef with
  | none => simp [opensF32]
  | some r =>
    obtain ⟨file, tensor⟩ := r
    by_cases hg : lowerExtension (joinPath weightsDir file) = ".gguf" <;> simp [hg, opensF32]

/-- The streaming loader's fetch. -/
theorem opensStream_iff (p : StoragePlacement) : opensStream o t p ≠ [] ↔ UncheckedStream o t p := by
  unfold opensStream UncheckedStream
  cases hw : wantsPacked o t with
  | true =>
    simp only [if_true, opensAuto_iff]
    cases hsplit : splitHash (streamRef t p) with
    | none => simp
    | some r =>
      obtain ⟨file, tensor⟩ := r
      simp
  | false =>
    simp only [Bool.false_eq_true, if_false, opensF32_iff]
    cases hsplit : splitHash (streamRef t p) with
    | none => simp
    | some r =>
      obtain ⟨file, tensor⟩ := r
      simp

variable (F env) in
theorem opensStream_cases (p : StoragePlacement) :
    (opensStream o t p = [] ∧ ∃ e, streamLoad F env o t p = .error e) ∨
    opensStream o t p = [refPath (streamRef t p) o.weightsDir] := by
  unfold opensStream streamLoad
  split
  · rcases opensAuto_cases F env (streamRef t p) o.weightsDir t.shape with ⟨hno, code, m, he⟩ | hone
    · exact .inl ⟨hno, _, by rw [he]; rfl⟩
    · exact .inr hone
  · rcases opensF32_cases F env (streamRef t p) o.weightsDir t.shape true p.bytes with ⟨hno, code, m, he⟩ | hone
    · exact .inl ⟨hno, _, he⟩
    · exact .inr hone

theorem stream_confined_iff (p : StoragePlacement) :
    Confined env o (streamRef t p) (opensStream o t p) (∃ e, streamLoad F env o t p = .error e) ↔
      (UncheckedStream o t p → Under env o (refPath (streamRef t p) o.weightsDir)) := by
  rw [← opensStream_iff]
  rcases opensStream_cases F env (o := o) (t := t) p with ⟨hno, he⟩ | hone
  · exact iff_of_true ⟨by simp [hno], fun _ _ => ⟨hno, he⟩⟩ fun hopen => absurd hno hopen
  · constructor
    · intro hc _
      exact hc.inside _ (by simp [hone])
    · intro h
      have hin := h (by simp [hone])
      exact ⟨by simpa [hone] using hin, fun _ hout => absurd hin hout⟩

/-! ## A weight of the first load -/

variable (F env) in
theorem tryCached_opens : (opensCached o t = [] ∧ tryCached F env o t d ⟨none, none⟩ = .ok ⟨none, none⟩) ∨
    opensCached o t = [refPath t.weightRef o.weightsDir] := by
  unfold opensCached tryCached refPath
  cases hsplit : splitHash t.weightRef with
  | none => exact .inl ⟨rfl, rfl⟩
  | some r =>
    obtain ⟨file, tensor⟩ := r
    dsimp only
    by_cases hext : extension (joinPath o.weightsDir file) ≠ ".gguf" ∧ extension (joinPath o.weightsDir file) ≠ ".GGUF"
    · exact .inl ⟨if_pos hext, if_pos hext⟩
    · exact .inr (if_neg hext)

theorem opensCached_iff : opensCached o t ≠ [] ↔ ∃ file tensor, splitHash t.weightRef = some (file, tensor) ∧
    (extension (joinPath o.weightsDir file) = ".gguf" ∨ extension (joinPath o.weightsDir file) = ".GGUF") := by
  unfold opensCached
  cases hsplit : splitHash t.weightRef with
  | none => simp
  | some r =>
    obtain ⟨file, tensor⟩ := r
    simp only [Option.some.injEq, Prod.mk.injEq]
    constructor
    · intro hne
      refine ⟨file, tensor, ⟨rfl, rfl⟩, ?_⟩
      by_contra hno
      rw [not_or] at hno
      exact hne (if_pos hno)
    · rintro ⟨file', tensor', ⟨rfl, rfl⟩, hext⟩
      rw [if_neg (fun hno => hext.elim hno.1 hno.2)]
      exact List.cons_ne_nil _ _

omit [CommRing K] in
/-- A packed attempt that fails stores nothing. -/
theorem tryPacked_failed {r : Result (List UInt8 × QuantFormat)} (code : ErrorCode) (m : String)
    (hr : wantsPacked o t = true → r = .error (.error code m)) :
    ∃ st : Attempts K, tryPacked o t d r ⟨none, none⟩ = .ok st ∧ st.loaded = none := by
  unfold tryPacked
  split
  · exact ⟨_, rfl, rfl⟩
  · next hw =>
    rw [hr (by simpa using hw)]
    exact ⟨_, rfl, rfl⟩

theorem opensLoader_path (st : Attempts K) : ∀ path ∈ opensLoader F env o t d st, path = refPath t.weightRef o.weightsDir := by
  have hauto : ∀ path ∈ opensAuto t.weightRef o.weightsDir, path = refPath t.weightRef o.weightsDir := by
    rcases opensAuto_cases F env t.weightRef o.weightsDir t.shape with ⟨hno, -⟩ | hone <;> simp [*]
  have hf32 : ∀ path ∈ opensF32 t.weightRef o.weightsDir true d.nbytes, path = refPath t.weightRef o.weightsDir := by
    rcases opensF32_cases F env t.weightRef o.weightsDir t.shape true d.nbytes with ⟨hno, -⟩ | hone <;> simp [*]
  intro path hpath
  unfold opensLoader at hpath
  split at hpath
  · cases hpath
  · rcases List.mem_append.mp hpath with hpath | hpath
    · split at hpath
      · exact hauto path hpath
      · cases hpath
    · split at hpath
      · cases hpath
      · split at hpath
        · cases hpath
        · exact hf32 path hpath

variable (F env) in
/-- Where the packed attempt opens nothing it stores nothing. -/
theorem packed_failed (hauto : ¬ (wantsPacked o t = true ∧ opensAuto t.weightRef o.weightsDir ≠ [])) :
    ∃ st : Attempts K, tryPacked o t d (loadWeightRefAuto F env.rd t.weightRef o.weightsDir t.shape) ⟨none, none⟩ = .ok st ∧
      st.loaded = none := by
  rcases opensAuto_cases F env t.weightRef o.weightsDir t.shape with ⟨-, code, m, he⟩ | hone
  · exact tryPacked_failed code m fun _ => he
  · exact tryPacked_failed .internal "" fun hw => absurd ⟨hw, by simp [hone]⟩ hauto

theorem opensLoader_iff : opensLoader F env o t d ⟨none, none⟩ ≠ [] ↔
    (wantsPacked o t = true ∧ opensAuto t.weightRef o.weightsDir ≠ []) ∨
    (d.hasFloats = true ∧ opensF32 t.weightRef o.weightsDir true d.nbytes ≠ []) := by
  by_cases hauto : wantsPacked o t = true ∧ opensAuto t.weightRef o.weightsDir ≠ []
  · refine iff_of_true ?_ (.inl hauto)
    unfold opensLoader
    simp [hauto.1, hauto.2]
  · obtain ⟨st, hst, hloaded⟩ := packed_failed F env (d := d) hauto
    have hfirst : (if wantsPacked o t then opensAuto t.weightRef o.weightsDir else []) = [] := by
      split
      · next hw => exact not_not.mp fun hne => hauto ⟨hw, hne⟩
      · rfl
    unfold opensLoader
    simp only [Option.isSome_none, Bool.false_eq_true, if_false, hfirst, hst, hloaded, List.nil_append, false_or]
    cases hf : d.hasFloats <;> simp [hauto]

variable (F env) in
/-- Some route opens the reference's file unasked, exactly when one takes the reference. -/
theorem opensUnchecked_iff : opensUnchecked F env o t d ≠ [] ↔ Unchecked o t d := by
  have hcached := opensCached_iff (o := o) (t := t)
  unfold opensUnchecked
  rcases tryCached_opens F env (o := o) (t := t) (d := d) with ⟨hno, hok⟩ | hone
  · rw [hno, hok, List.nil_append, opensLoader_iff, opensAuto_iff, opensF32_iff]
    have hexact := mt hcached.mpr (by simp [hno])
    unfold Unchecked
    cases hsplit : splitHash t.weightRef with
    | none => simp
    | some r =>
      obtain ⟨file, tensor⟩ := r
      simp only [hsplit, Option.some.injEq, Prod.mk.injEq, not_exists, not_and] at hexact
      have hno := hexact file tensor ⟨rfl, rfl⟩
      simp [hno, and_assoc]
  · have htrue := hcached.mp (by simp [hone])
    obtain ⟨file, tensor, hsplit, hext⟩ := htrue
    refine iff_of_true (by simp [hone]) ?_
    unfold Unchecked
    rw [hsplit]
    exact .inl hext

theorem opensUnchecked_path : ∀ path ∈ opensUnchecked F env o t d, path = refPath t.weightRef o.weightsDir := by
  intro path hpath
  rcases List.mem_append.mp hpath with hpath | hpath
  · rcases tryCached_opens F env (o := o) (t := t) (d := d) with ⟨hno, -⟩ | hone
    · simp [hno] at hpath
    · simpa [hone] using hpath
  · split at hpath
    · cases hpath
    · exact opensLoader_path _ path hpath

variable (F env) in
/-- Where no route takes the reference unasked, nothing is loaded before the raw read. -/
theorem nothing_loaded (h : ¬ Unchecked o t d) : ∃ st, (tryCached F env o t d ⟨none, none⟩ >>= tryLoader F env o t d) = .ok st ∧
    st.loaded = none := by
  have hnone : opensUnchecked F env o t d = [] := not_not.mp fun hne => h ((opensUnchecked_iff F env).mp hne)
  obtain ⟨hcached, hloader⟩ := List.append_eq_nil_iff.mp hnone
  rcases tryCached_opens F env (o := o) (t := t) (d := d) with ⟨-, hok⟩ | hone
  · rw [hok] at hloader ⊢
    have hneither := mt opensLoader_iff.mpr (not_not.mpr hloader)
    rw [not_or] at hneither
    obtain ⟨st, hst, hloaded⟩ := packed_failed F env (d := d) hneither.1
    simp only [ok_bind, tryLoader, Option.isSome_none, Bool.false_eq_true, if_false, hst, hloaded, false_or]
    split
    · exact ⟨st, rfl, hloaded⟩
    · next hf =>
      rcases opensF32_cases F env t.weightRef o.weightsDir t.shape true d.nbytes with ⟨-, code, m, he⟩ | hone
      · exact ⟨⟨none, some (code, m)⟩, by rw [he]; rfl, rfl⟩
      · exact absurd ⟨by simpa using hf, by simp [hone]⟩ hneither.2
  · rw [hone] at hcached
    cases hcached

omit [CommRing K] in
theorem opensRaw_inside (st : Attempts K) : ∀ path ∈ opensRaw env o t st, Under env o path := by
  intro path hpath
  unfold opensRaw at hpath
  split at hpath
  · cases hpath
  · next hno =>
    rw [List.mem_singleton.mp hpath]
    simpa [Under] using (not_or.mp hno).2

/-- A weight of the first load. -/
theorem weight_confined_iff : Confined env o t.weightRef (opensWeight F env o t d) (∃ e, loadWeight F env o t d = .error e) ↔
    Careful env o t d := by
  by_cases href : t.weightRef = ""
  · refine iff_of_true ⟨by simp [opensWeight, href], fun hne => absurd href hne⟩ ⟨fun hne => absurd href hne, fun hne => absurd href hne⟩
  have hopens : opensWeight F env o t d = opensUnchecked F env o t d ++
      match tryCached F env o t d ⟨none, none⟩ >>= tryLoader F env o t d with
      | .error _ => []
      | .ok st => opensRaw env o t st := if_neg href
  have hraw : ∀ path ∈ (match tryCached F env o t d ⟨none, none⟩ >>= tryLoader F env o t d with
      | .error _ => []
      | .ok st => opensRaw env o t st), Under env o path := by
    intro path hpath
    split at hpath
    · cases hpath
    · exact opensRaw_inside _ path hpath
  by_cases hun : Unchecked o t d
  · -- the file is opened, so it has to lie inside
    have hne := (opensUnchecked_iff F env).mpr hun
    obtain ⟨path, hpath⟩ := List.exists_mem_of_ne_nil _ hne
    constructor
    · intro hc
      have hin := hc.inside path (by rw [hopens]; exact List.mem_append_left _ hpath)
      rw [opensUnchecked_path path hpath] at hin
      exact ⟨fun _ _ => hin, fun _ hno => absurd hun hno⟩
    · intro hc
      have hin := hc.1 href hun
      refine ⟨fun q hq => ?_, fun _ hout => absurd hin hout⟩
      rw [hopens] at hq
      rcases List.mem_append.mp hq with hq | hq
      · rw [opensUnchecked_path q hq]
        exact hin
      · exact hraw q hq
  · -- only the raw read is left
    have hnone : opensUnchecked F env o t d = [] := not_not.mp fun hne => hun ((opensUnchecked_iff F env).mp hne)
    obtain ⟨st, hst, hloaded⟩ := nothing_loaded F env hun
    rw [hnone, hst, List.nil_append] at hopens
    constructor
    · intro hc
      refine ⟨fun _ h => absurd h hun, fun _ _ hrawIn => ?_⟩
      by_contra hout
      have hempty := (hc.refusal href hout).1
      rw [hopens] at hempty
      unfold Under at hrawIn
      simp [opensRaw, hloaded, hrawIn] at hempty
    · intro hc
      refine ⟨fun path hpath => opensRaw_inside st path (hopens ▸ hpath), fun _ hout => ?_⟩
      have hrawOut : pathUnderRoot env (rootOf o) (rawPath o t) = false := by
        by_contra hin
        exact hout (hc.2 href hun (by simpa [Under] using hin))
      refine ⟨by rw [hopens]; simp [opensRaw, hrawOut], .error .invalidArgument ("weight path escapes sandbox: " ++ rawPath o t), ?_⟩
      obtain ⟨st₁, hst₁, hst₂⟩ := bind_ok hst
      have hroot : (if o.weightsSandbox = "" then o.weightsDir else o.weightsSandbox) = rootOf o := rfl
      simp only [loadWeight, if_neg href, hst₁, ok_bind, hst₂, tryRaw, hloaded, Option.isSome_none, Bool.false_eq_true, if_false,
        hroot, hrawOut, Bool.not_false, if_true]
      rfl

end Fetch

/-! ## A session -/

section Session

variable {K : Type} [CommRing K] (F : FloatBits K) (env : LoadEnv K) (o : SessionOptions) (streamed : TensorId → Bool)
  (owned : List OwnedSlot)

/-- The weights that `load_or_init_weights` comes to, with their buffers. -/
def fetched : List Tensor → Weights K → List (Tensor × Dest)
  | [], _ => []
  | t :: ts, w =>
    if !t.isWeight ∨ streamed t.id then fetched ts w
    else
      match w.buffers.find t.id with
      | none => []
      | some buf =>
        (t, destOf owned buf) ::
        match loadWeight F env o t (destOf owned buf) with
        | .error _ => []
        | .ok (content, format) =>
          let mem := match buf.data with
            | some ptr => Function.update w.mem ptr (some content)
            | none => w.mem
          fetched ts ⟨w.buffers.setFormat t.id format, mem⟩

/-- What a session fetches: the weights of the first load, and streamed ones whenever they are staged. -/
inductive Fetch where
  | load (t : Tensor) (d : Dest)
  | stage (t : Tensor) (p : StoragePlacement)

def Fetch.Confined : Fetch → Prop
  | .load t d => Runtime.Confined env o t.weightRef (opensWeight F env o t d) (∃ e, loadWeight F env o t d = .error e)
  | .stage t p => Runtime.Confined env o (streamRef t p) (opensStream o t p) (∃ e, streamLoad F env o t p = .error e)

def Fetch.Careful : Fetch → Prop
  | .load t d => Runtime.Careful env o t d
  | .stage t p => UncheckedStream o t p → Under env o (refPath (streamRef t p) o.weightsDir)

variable {R : Type}

def fetches (g : Graph R) (buffers : Buffers) (staged : List (Tensor × StoragePlacement)) : List Fetch :=
  (fetched F env o streamed owned g.tensors ⟨buffers, fun _ => none⟩).map (fun x => .load x.1 x.2) ++
  staged.map fun x => .stage x.1 x.2

/-- Every fetch of a session keeps to the root exactly when each is careful. -/
theorem session_confined_iff (g : Graph R) (buffers : Buffers) (staged : List (Tensor × StoragePlacement)) :
    (∀ x ∈ fetches F env o streamed owned g buffers staged, x.Confined F env o) ↔
      ∀ x ∈ fetches F env o streamed owned g buffers staged, x.Careful env o := by
  refine forall₂_congr fun x _ => ?_
  cases x with
  | load t d => exact weight_confined_iff
  | stage t p => exact stream_confined_iff p

end Session

/-! ## A reference that leaves its directory -/

def modelsOptions : SessionOptions := { reuseOptions with weightsDir := "/models", weightsSandbox := "/models" }

/-- Every file holds four bytes, and all but one path lie where they seem to. -/
def secretEnv : LoadEnv Int where
  rd :=
    { fs := fun _ => some [1, 2, 3, 4]
      ggufHeader := fun _ => fail .invalidArgument "not a GGUF file"
      safetensors := fun _ _ => fail .ioError "" }
  underRoot _ path := path != "/models/../secret.bin"
  unpack _ _ _ := fail .invalidArgument ""

def secretBuffers : Buffers := [(1, ⟨1, .f32, [1], some 0, 4, true, .f32, 0, 0⟩)]

/-- The weight is loaded from beside the sandbox. -/
theorem escape_is_opened : ¬ ∀ x ∈ fetches oneBits secretEnv modelsOptions (fun _ => false) [] (weightGraph "../secret.bin")
    secretBuffers [], x.Confined oneBits secretEnv modelsOptions := by
  intro hall
  have hin := (hall _ List.mem_cons_self).inside "/models/../secret.bin" (by decide)
  exact absurd hin (by unfold Under; decide)

end Uaii.Runtime
