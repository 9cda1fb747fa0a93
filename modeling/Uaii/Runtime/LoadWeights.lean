/-
  Uaii.Runtime.LoadWeights — `Session::load_or_init_weights`
  (`libs/uaii-runtime/src/session.cpp`).

  A weight is loaded by the first of these that succeeds: the packed bytes of the GGUF
  tensor, its floats, the generic loader (packed, then floats), and last a raw read of
  the file. The raw read strips the tensor's name from the reference and takes the file,
  which may be the container itself, for floats.

  Proved: when the call succeeds, every `file#tensor` weight holds what its tensor
  decodes to exactly when every one's tensor decodes to the buffer's size
  (`weights_hold_iff`). A tensor that is missing is read from the container's first
  bytes (`missing_tensor_loads`).
-/

import Uaii.Loaders.WeightRef
import Uaii.Runtime.Allocate
import Uaii.Planner.MemoryDisjoint

namespace Uaii.Runtime

open Uaii.Ir Uaii.Quant Uaii.Loaders Uaii.Planner

def errorCodeString : ErrorCode → String
  | .invalidArgument => "invalid_argument"
  | .notFound => "not_found"
  | .ioError => "io_error"
  | .configError => "config_error"
  | .pluginError => "plugin_error"
  | .abiMismatch => "abi_mismatch"
  | .notImplemented => "not_implemented"
  | .internal => "internal"

/-- `Error::to_string` of `load_err`. -/
def errorString : Option (ErrorCode × String) → String
  | none => "ok"
  | some (code, message) => errorCodeString code ++ if message = "" then "" else ": " ++ message

/-- What else the session uses: `path_under_root` for a root that is not empty, and the
    quantizer's `unpack` of `n` elements. -/
structure LoadEnv (K : Type) where
  rd : Readers K
  underRoot : String → String → Bool
  unpack : List UInt8 → Nat → QuantFormat → Result (List K)

def pathUnderRoot {K : Type} (env : LoadEnv K) (root path : String) : Bool := root = "" ∨ env.underRoot root path

/-- `loaded`, with what was stored and the buffer's new format, and `load_err`. -/
structure Attempts (K : Type) where
  loaded : Option (Content K × QuantFormat)
  loadErr : Option (ErrorCode × String)

/-- An error the code goes on from; exceptions and undefined behaviour are not. -/
def caught {α : Type} : Result α → Result (Except (ErrorCode × String) α)
  | .ok a => .ok (.ok a)
  | .error (.error code message) => .ok (.error (code, message))
  | .error f => .error f

/-- The buffer's memory: `room` is the size of its allocation, none for a null pointer. -/
structure Dest where
  nbytes : Nat
  format : QuantFormat
  room : Option Nat
  deriving DecidableEq, Repr

/-- `data != nullptr`: a packed buffer has no float pointer. -/
def Dest.hasFloats (d : Dest) : Bool := !isGgufBlockQuant d.format && d.room.isSome

/-- A write of `n` bytes to the buffer. -/
def Dest.write (d : Dest) (n : Nat) : Result Unit :=
  match d.room with
  | none => if n = 0 then .ok () else .error (.undefined "write to a null pointer")
  | some room => if room < n then .error (.undefined "write past the allocation") else .ok ()

section Loading

variable {K : Type} [CommRing K] (F : FloatBits K) (env : LoadEnv K) (o : SessionOptions) (t : Tensor) (d : Dest)

/-- The tensor is to stay packed. -/
def wantsPacked : Bool := o.keepQuantizedWeights && isGgufBlockQuant t.quantFormat

/-- An attempt to load packed bytes. -/
def tryPacked (r : Result (List UInt8 × QuantFormat)) (st : Attempts K) : Result (Attempts K) :=
  if !wantsPacked o t ∨ st.loaded.isSome then .ok st
  else do
    match ← caught r with
    | .error e => .ok { st with loadErr := some e }
    | .ok (packed, format) =>
      if packed.length = d.nbytes then do
        d.write d.nbytes
        .ok ⟨some (.bytes packed, format), none⟩
      else .ok { st with loadErr := none }

/-- The floats of the parsed header's tensor. -/
def tryFloats (r : Result (List K × List Int)) (st : Attempts K) : Result (Attempts K) :=
  if st.loaded.isSome ∨ !d.hasFloats then .ok st
  else do
    match ← caught r with
    | .error e => .ok { st with loadErr := some e }
    | .ok (values, _) =>
      if wrap64 (values.length * 4) = d.nbytes then do
        d.write d.nbytes
        .ok ⟨some (.floats values, .f32), none⟩
      else .ok { st with loadErr := none }

/-- The fast path, for a name ending in `.gguf` or `.GGUF`. -/
def tryCached (st : Attempts K) : Result (Attempts K) :=
  match splitHash t.weightRef with
  | none => .ok st
  | some (file, tensor) =>
    let path := joinPath o.weightsDir file
    if extension path ≠ ".gguf" ∧ extension path ≠ ".GGUF" then .ok st
    else do
      match ← caught (env.rd.ggufHeader path) with
      | .error _ => .ok st
      | .ok gf => do
        let st ← tryPacked o t d ((ggufLoadTensorRaw env.rd.fs gf tensor).map fun p => (p.1, ggufTypeToQuant p.2.2)) st
        tryFloats d (ggufLoadTensorF32 F env.rd.fs gf tensor) st

/-- The generic loader. -/
def tryLoader (st : Attempts K) : Result (Attempts K) :=
  if st.loaded.isSome then .ok st
  else do
    let st ← tryPacked o t d (loadWeightRefAuto F env.rd t.weightRef o.weightsDir t.shape) st
    if st.loaded.isSome ∨ !d.hasFloats then .ok st
    else
      match ← caught (loadWeightRefF32 F env.rd t.weightRef o.weightsDir t.shape true d.nbytes) with
      | .error e => .ok { st with loadErr := some e }
      | .ok content => do
        d.write d.nbytes
        .ok ⟨some (content, .f32), none⟩

/-- The file of a raw read. -/
def rawPath : String :=
  let path := joinPath o.weightsDir t.weightRef
  match splitHash path with
  | some (file, _) => file
  | none => path

/-- The raw read of the file. -/
def tryRaw (n : Nat) (st : Attempts K) : Result (Attempts K) :=
  if st.loaded.isSome then .ok st
  else
    let path := rawPath o t
    if !pathUnderRoot env (if o.weightsSandbox = "" then o.weightsDir else o.weightsSandbox) path then
      fail .invalidArgument ("weight path escapes sandbox: " ++ path)
    else
      match env.rd.fs path with
      | none => .ok st
      | some data =>
        if o.weightQuant ≠ .f32 then
          if data = [] ∨ !d.hasFloats then .ok { st with loadErr := some (.invalidArgument, "unpack args null") }
          else do
            match ← caught (env.unpack data n o.weightQuant) with
            | .error e => .ok { st with loadErr := some e }
            | .ok values => do
              d.write (4 * values.length)
              .ok { st with loaded := some (.floats values, d.format) }
        else if !d.hasFloats ∧ 0 < d.nbytes then .error (.undefined "read into a null pointer")
        else do
          d.write (min data.length d.nbytes)
          if data.length < d.nbytes then .ok { st with loadErr := some (.ioError, "short weight read: " ++ path) }
          else .ok { st with loaded := some (.bytes (data.take d.nbytes), d.format) }

/-- `weight_init`'s fill of `n` floats; 0x3C23D70A is `0.01f`. -/
def initialFill (n : Nat) : WeightInit → Option (List K)
  | .zeros => some (List.replicate (d.nbytes / 4) 0)
  | .ones => some (List.replicate n 1)
  | .sequence => some ((List.range n).map fun i => (i : K) * F.f32 0x3C23D70A)
  | .none => Option.none

/-- What a weight's buffer holds after the call, and its format. -/
def loadWeight : Result (Content K × QuantFormat) := do
  let n := if isGgufBlockQuant d.format then shapeNumel t.shape else d.nbytes / 4
  let st : Attempts K ←
    if t.weightRef = "" then .ok ⟨none, none⟩
    else do
      let st ← tryCached F env o t d ⟨none, none⟩
      let st ← tryLoader F env o t d st
      tryRaw env o t d n st
  match st.loaded with
  | some r => .ok r
  | none =>
    if t.weightRef ≠ "" ∧ o.weightInit = .none ∧ !o.allowMissingWeights then
      fail .notFound ("failed to load required weight '" ++ t.name ++ "' from '" ++ t.weightRef ++ "': " ++
        errorString st.loadErr)
    else if !d.hasFloats then fail .notFound ("failed to load packed weight '" ++ t.name ++ "'")
    else
      match initialFill F d n o.weightInit with
      | some values => do
        d.write (4 * values.length)
        .ok (.floats values, d.format)
      | none =>
        if t.weightRef = "" then
          fail .notFound ("weight tensor '" ++ t.name ++ "' has no weight_ref and weight_init=None")
        else fail .notFound ("failed to load weight '" ++ t.name ++ "' from '" ++ t.weightRef ++ "'")

end Loading

/-! ## All weights -/

/-- The buffers, and what the allocations hold. -/
structure Weights (K : Type) where
  buffers : Buffers
  mem : Nat → Option (Content K)

/-- The buffer as a destination: its allocation is an owned slot, or its own. -/
def destOf (owned : List OwnedSlot) (buf : TensorBuffer) : Dest where
  nbytes := buf.nbytes
  format := buf.quantFormat
  room := buf.data.map fun ptr => ((owned.find? (·.data == ptr)).map (·.nbytes)).getD buf.nbytes

def Buffers.setFormat (m : Buffers) (id : TensorId) (format : QuantFormat) : Buffers :=
  m.map fun e => if e.1 = id then (e.1, { e.2 with quantFormat := format }) else e

section Loop

variable {K : Type} [CommRing K] (F : FloatBits K) (env : LoadEnv K) (o : SessionOptions) (streamed : TensorId → Bool)
  (owned : List OwnedSlot)

def loadLoop : List Tensor → Weights K → Result (Weights K)
  | [], w => .ok w
  | t :: ts, w =>
    if !t.isWeight ∨ streamed t.id then loadLoop ts w
    else
      match w.buffers.find t.id with
      | none => fail .internal "missing weight buffer"
      | some buf => do
        let (content, format) ← loadWeight F env o t (destOf owned buf)
        let mem := match buf.data with
          | some ptr => Function.update w.mem ptr (some content)
          | none => w.mem
        loadLoop ts ⟨w.buffers.setFormat t.id format, mem⟩

variable {R : Type}

/-- After `allocate_all_tensors`, whose allocations hold zeros. -/
def loadOrInitWeights (g : Graph R) (buffers : Buffers) : Result (Weights K) :=
  loadLoop F env o streamed owned g.tensors ⟨buffers, fun _ => none⟩

end Loop

/-! ## What a weight should hold -/

section Spec

variable {K : Type} [CommRing K] (F : FloatBits K) (env : LoadEnv K) (o : SessionOptions) (t : Tensor)

def okOr {α : Type} : Result α → Option α
  | .ok a => some a
  | .error _ => none

/-- The named tensor's content, of the given size: the packed blocks, or the floats. None
    when the container or the tensor cannot be read or has another size. -/
def decoded (packed : Bool) (nbytes : Nat) : Option (Content K) := do
  let (file, tensor) ← splitHash t.weightRef
  let path := joinPath o.weightsDir file
  if packed then
    if lowerExtension path = ".gguf" then
      let gf ← okOr (env.rd.ggufHeader path)
      let (bytes, _, gt) ← okOr (ggufLoadTensorRaw env.rd.fs gf tensor)
      if gt.isBlock ∧ bytes.length = nbytes then some (.bytes bytes) else none
    else none
  else
    let (values, _) ← okOr (loadContainerF32 F env.rd t.weightRef path tensor)
    if wrap64 (values.length * 4) = nbytes then some (.floats values) else none

/-- One content, read as a buffer of the kind is read. -/
def Same (packed : Bool) (a b : Content K) : Prop := if packed then a = b else a.asFloats F = b.asFloats F

/-- The cached header is used. -/
def isCached : Prop :=
  ∃ file tensor, splitHash t.weightRef = some (file, tensor) ∧
    (extension (joinPath o.weightsDir file) = ".gguf" ∨ extension (joinPath o.weightsDir file) = ".GGUF")

/-- The generic loader's own check of the shape passes. -/
def loaderAccepts (nbytes : Nat) : Prop :=
  nbytes ≠ 0 ∧ ∃ file tensor values shape, splitHash t.weightRef = some (file, tensor) ∧
    loadContainerF32 F env.rd t.weightRef (joinPath o.weightsDir file) tensor = .ok (values, shape) ∧
    shapeFits t.shape shape = true

/-- What the raw read of the file would store. -/
def rawContent (d : Dest) : Option (Content K) := do
  let data ← env.rd.fs (rawPath o t)
  if o.weightQuant = .f32 then
    if d.nbytes ≤ data.length then some (.bytes (data.take d.nbytes)) else none
  else (okOr (env.unpack data (if isGgufBlockQuant d.format then shapeNumel t.shape else d.nbytes / 4) o.weightQuant)).map .floats

/-- The container gives the content: through the cached header, or past the generic
    loader's check. Else the raw read must happen to give it. -/
def Loads (d : Dest) : Prop :=
  ∃ c, decoded F env o t (isGgufBlockQuant d.format) d.nbytes = some c ∧
    (isGgufBlockQuant d.format = true ∨ isCached o t ∨ loaderAccepts F env o t d.nbytes ∨
      ∃ r, rawContent env o t d = some r ∧ Same F (isGgufBlockQuant d.format) c r)

end Spec

/-! ## One weight -/

section One

variable {K : Type} [CommRing K] {F : FloatBits K} {env : LoadEnv K} {o : SessionOptions} {t : Tensor} {d : Dest}

theorem caught_ok {α : Type} {r : Result α} {x : Except (ErrorCode × String) α} (h : caught r = .ok x) :
    (∃ a, r = .ok a ∧ x = .ok a) ∨ (∃ code message, r = .error (.error code message) ∧ x = .error (code, message)) := by
  unfold caught at h
  split at h
  · exact Or.inl ⟨_, rfl, (Except.ok.inj h).symm⟩
  · exact Or.inr ⟨_, _, rfl, (Except.ok.inj h).symm⟩
  · cases h

omit [CommRing K] in
/-- An attempt at packed bytes stores them, or leaves what was loaded and has none of the size. -/
theorem tryPacked_ok {r : Result (List UInt8 × QuantFormat)} {st st' : Attempts K} (h : tryPacked o t d r st = .ok st') :
    (st'.loaded = st.loaded ∧ (wantsPacked o t = true → st.loaded = none → ∀ p q, r = .ok (p, q) → p.length ≠ d.nbytes)) ∨
      (wantsPacked o t = true ∧ st.loaded = none ∧
        ∃ p q, r = .ok (p, q) ∧ p.length = d.nbytes ∧ st'.loaded = some (.bytes p, q)) := by
  unfold tryPacked at h
  split at h
  · rename_i hskip
    obtain rfl := Except.ok.inj h
    refine Or.inl ⟨rfl, fun hw hl => ?_⟩
    simp [hw, hl] at hskip
  rename_i hgo
  obtain ⟨hw, hl⟩ : wantsPacked o t = true ∧ st.loaded = none := by simpa using hgo
  obtain ⟨x, hx, h⟩ := bind_ok h
  rcases caught_ok hx with ⟨⟨p, q⟩, hr, rfl⟩ | ⟨code, message, hr, rfl⟩
  · dsimp only at h
    split at h
    · rename_i hlen
      obtain ⟨u, -, h⟩ := bind_ok h
      obtain rfl := Except.ok.inj h
      exact Or.inr ⟨hw, hl, p, q, hr, hlen, rfl⟩
    · rename_i hlen
      obtain rfl := Except.ok.inj h
      refine Or.inl ⟨rfl, fun _ _ p' q' hr' => ?_⟩
      rw [hr] at hr'
      obtain ⟨rfl, rfl⟩ := Prod.mk.inj (Except.ok.inj hr')
      exact hlen
  · obtain rfl := Except.ok.inj h
    exact Or.inl ⟨rfl, fun _ _ p q hr' => by rw [hr] at hr'; cases hr'⟩

omit [CommRing K] in
/-- So does an attempt at floats. -/
theorem tryFloats_ok {r : Result (List K × List Int)} {st st' : Attempts K} (h : tryFloats d r st = .ok st') :
    (st'.loaded = st.loaded ∧
      (d.hasFloats = true → st.loaded = none → ∀ xs sh, r = .ok (xs, sh) → wrap64 (xs.length * 4) ≠ d.nbytes)) ∨
      (d.hasFloats = true ∧ st.loaded = none ∧
        ∃ xs sh, r = .ok (xs, sh) ∧ wrap64 (xs.length * 4) = d.nbytes ∧ st'.loaded = some (.floats xs, .f32)) := by
  unfold tryFloats at h
  split at h
  · rename_i hskip
    obtain rfl := Except.ok.inj h
    refine Or.inl ⟨rfl, fun hf hl => ?_⟩
    simp [hf, hl] at hskip
  rename_i hgo
  obtain ⟨hl, hf⟩ : st.loaded = none ∧ d.hasFloats = true := by simpa using hgo
  obtain ⟨x, hx, h⟩ := bind_ok h
  rcases caught_ok hx with ⟨⟨xs, sh⟩, hr, rfl⟩ | ⟨code, message, hr, rfl⟩
  · dsimp only at h
    split at h
    · rename_i hlen
      obtain ⟨u, -, h⟩ := bind_ok h
      obtain rfl := Except.ok.inj h
      exact Or.inr ⟨hf, hl, xs, sh, hr, hlen, rfl⟩
    · rename_i hlen
      obtain rfl := Except.ok.inj h
      refine Or.inl ⟨rfl, fun _ _ xs' sh' hr' => ?_⟩
      rw [hr] at hr'
      obtain ⟨rfl, rfl⟩ := Prod.mk.inj (Except.ok.inj hr')
      exact hlen
  · obtain rfl := Except.ok.inj h
    exact Or.inl ⟨rfl, fun _ _ xs sh hr' => by rw [hr] at hr'; cases hr'⟩

theorem lowerExtension_cached {path : String} (h : extension path = ".gguf" ∨ extension path = ".GGUF") :
    lowerExtension path = ".gguf" := by
  unfold lowerExtension
  rcases h with h | h <;> rw [h] <;> decide

/-- The packed attempts of both routes read the raw tensor of a GGUF file. -/
theorem loadWeightRefAuto_ok {ref dir : String} {expected : List Int} {p : List UInt8} {q : QuantFormat}
    (h : loadWeightRefAuto F env.rd ref dir expected = .ok (p, q)) :
    ∃ file tensor gf sh gt, splitHash ref = some (file, tensor) ∧ lowerExtension (joinPath dir file) = ".gguf" ∧
      env.rd.ggufHeader (joinPath dir file) = .ok gf ∧ ggufLoadTensorRaw env.rd.fs gf tensor = .ok (p, sh, gt) ∧
      gt.isBlock = true := by
  have hno : ∀ r : List UInt8 × QuantFormat,
      (loadWeightRefF32 F env.rd ref dir expected false 0 >>= fun _ => (.ok ([], .f32) : Result (List UInt8 × QuantFormat))) ≠
        .ok r := by
    intro r hr
    obtain ⟨c, hc, -⟩ := bind_ok hr
    simp [loadWeightRefF32] at hc
  unfold loadWeightRefAuto at h
  dsimp only at h
  split at h
  · exact absurd h (hno _)
  · rename_i file tensor hsplit
    split at h
    · exact absurd h (hno _)
    · rename_i hext
      obtain ⟨gf, hgf, h⟩ := bind_ok h
      obtain ⟨⟨b, sh, gt⟩, hraw, h⟩ := bind_ok h
      dsimp only at h
      split at h
      · exact absurd h (fail_ne_ok _ _ _)
      · split at h
        · exact absurd h (hno _)
        · rename_i hblock
          cases h
          exact ⟨file, tensor, gf, sh, gt, hsplit, not_not.mp hext, hgf, hraw, by simpa [GgufType.isBlock] using hblock⟩

/-- What the packed and float attempts may have stored. -/
inductive Stored (F : FloatBits K) (env : LoadEnv K) (o : SessionOptions) (t : Tensor) (d : Dest) : Content K → Prop
  | cachedPacked (file tensor : String) (gf : GgufFile) (p : List UInt8) (sh : List Int) (gt : GgufType) :
      splitHash t.weightRef = some (file, tensor) → isCached o t → env.rd.ggufHeader (joinPath o.weightsDir file) = .ok gf →
      lowerExtension (joinPath o.weightsDir file) = ".gguf" → ggufLoadTensorRaw env.rd.fs gf tensor = .ok (p, sh, gt) →
      p.length = d.nbytes → Stored F env o t d (.bytes p)
  | loaderPacked (file tensor : String) (gf : GgufFile) (p : List UInt8) (sh : List Int) (gt : GgufType) :
      splitHash t.weightRef = some (file, tensor) → env.rd.ggufHeader (joinPath o.weightsDir file) = .ok gf →
      lowerExtension (joinPath o.weightsDir file) = ".gguf" → ggufLoadTensorRaw env.rd.fs gf tensor = .ok (p, sh, gt) →
      gt.isBlock = true → p.length = d.nbytes → Stored F env o t d (.bytes p)
  | floats (file tensor : String) (xs : List K) (sh : List Int) :
      splitHash t.weightRef = some (file, tensor) → d.hasFloats = true → isCached o t ∨ loaderAccepts F env o t d.nbytes →
      loadContainerF32 F env.rd t.weightRef (joinPath o.weightsDir file) tensor = .ok (xs, sh) →
      wrap64 (xs.length * 4) = d.nbytes → Stored F env o t d (.floats xs)

/-- What the fast path does with a reference. -/
theorem tryCached_ok {file tensor : String} (hsplit : splitHash t.weightRef = some (file, tensor)) {st : Attempts K}
    (h : tryCached F env o t d ⟨none, none⟩ = .ok st) :
    (st.loaded = none ∧ (isCached o t → ∀ gf, env.rd.ggufHeader (joinPath o.weightsDir file) ≠ .ok gf)) ∨
      isCached o t ∧ ∃ gf st₁, env.rd.ggufHeader (joinPath o.weightsDir file) = .ok gf ∧
        tryPacked o t d ((ggufLoadTensorRaw env.rd.fs gf tensor).map fun p => (p.1, ggufTypeToQuant p.2.2)) ⟨none, none⟩ =
          .ok st₁ ∧
        tryFloats d (ggufLoadTensorF32 F env.rd.fs gf tensor) st₁ = .ok st := by
  unfold tryCached at h
  rw [hsplit] at h
  dsimp only at h
  split at h
  · rename_i hext
    obtain rfl := Except.ok.inj h
    refine Or.inl ⟨rfl, fun ⟨file', tensor', hsplit', hc⟩ => ?_⟩
    rw [hsplit] at hsplit'
    obtain ⟨rfl, rfl⟩ := Prod.mk.inj (Option.some.inj hsplit')
    rcases hc with hc | hc
    · exact absurd hc hext.1
    · exact absurd hc hext.2
  · rename_i hext
    have hcached : isCached o t := by
      refine ⟨file, tensor, hsplit, ?_⟩
      by_cases hlow : extension (joinPath o.weightsDir file) = ".gguf"
      · exact Or.inl hlow
      · exact Or.inr (not_not.mp fun hup => hext ⟨hlow, hup⟩)
    obtain ⟨x, hx, h⟩ := bind_ok h
    rcases caught_ok hx with ⟨gf, hgf, rfl⟩ | ⟨code, message, hgf, rfl⟩
    · obtain ⟨st₁, h₁, h₂⟩ := bind_ok h
      exact Or.inr ⟨hcached, gf, st₁, hgf, h₁, h₂⟩
    · obtain rfl := Except.ok.inj h
      exact Or.inl ⟨rfl, fun _ gf hok => by rw [hgf] at hok; cases hok⟩

theorem isCached_lower {file tensor : String} (hsplit : splitHash t.weightRef = some (file, tensor)) (h : isCached o t) :
    lowerExtension (joinPath o.weightsDir file) = ".gguf" := by
  obtain ⟨file', tensor', hsplit', hc⟩ := h
  rw [hsplit] at hsplit'
  obtain ⟨rfl, rfl⟩ := Prod.mk.inj (Option.some.inj hsplit')
  exact lowerExtension_cached hc

/-- A GGUF container's floats. -/
theorem loadContainerF32_gguf {ref path tensor : String} (hext : lowerExtension path = ".gguf") {gf : GgufFile}
    (hgf : env.rd.ggufHeader path = .ok gf) : loadContainerF32 F env.rd ref path tensor = ggufLoadTensorF32 F env.rd.fs gf tensor := by
  simp only [loadContainerF32, hext, if_true, hgf, ok_bind]

theorem map_ok {α β : Type} {r : Result α} {f : α → β} {b : β} (h : r.map f = .ok b) : ∃ a, r = .ok a ∧ f a = b := by
  cases r with
  | error e => cases h
  | ok a => exact ⟨a, rfl, Except.ok.inj h⟩

theorem tryCached_stored {file tensor : String} (hsplit : splitHash t.weightRef = some (file, tensor)) {st : Attempts K}
    (h : tryCached F env o t d ⟨none, none⟩ = .ok st) {c : Content K} {q : QuantFormat} (hl : st.loaded = some (c, q)) :
    Stored F env o t d c := by
  rcases tryCached_ok hsplit h with ⟨hnone, -⟩ | ⟨hcached, gf, st₁, hgf, h₁, h₂⟩
  · rw [hnone] at hl
    cases hl
  have hext := isCached_lower hsplit hcached
  rcases tryFloats_ok h₂ with ⟨hsame, -⟩ | ⟨hf, -, xs, sh, hxs, hlen, hst⟩
  · rw [hsame] at hl
    rcases tryPacked_ok h₁ with ⟨hsame', -⟩ | ⟨-, -, p, q', hraw, hlen, hst⟩
    · rw [hsame'] at hl
      cases hl
    · rw [hst] at hl
      obtain ⟨rfl, rfl⟩ := Prod.mk.inj (Option.some.inj hl)
      obtain ⟨⟨b, sh, gt⟩, hb, heq⟩ := map_ok hraw
      obtain ⟨rfl, -⟩ := Prod.mk.inj heq
      exact .cachedPacked file tensor gf b sh gt hsplit hcached hgf hext hb hlen
  · rw [hst] at hl
    obtain ⟨rfl, -⟩ := Prod.mk.inj (Option.some.inj hl)
    refine .floats file tensor xs sh hsplit hf (Or.inl hcached) ?_ hlen
    rw [loadContainerF32_gguf hext hgf, hxs]

/-- The generic loader's floats. -/
theorem loadWeightRefF32_ok {file tensor : String} (hsplit : splitHash t.weightRef = some (file, tensor)) {n : Nat}
    {c : Content K} (h : loadWeightRefF32 F env.rd t.weightRef o.weightsDir t.shape true n = .ok c) :
    ∃ xs sh, c = .floats xs ∧ loadContainerF32 F env.rd t.weightRef (joinPath o.weightsDir file) tensor = .ok (xs, sh) ∧
      loaderAccepts F env o t n ∧ wrap64 (xs.length * 4) = n := by
  unfold loadWeightRefF32 at h
  split at h
  · exact absurd h (fail_ne_ok _ _ _)
  rename_i hn
  simp only [hsplit] at h
  obtain ⟨⟨xs, sh⟩, hxs, h⟩ := bind_ok h
  dsimp only at h
  split at h
  · exact absurd h (fail_ne_ok _ _ _)
  rename_i hfit
  split at h
  · exact absurd h (fail_ne_ok _ _ _)
  rename_i hlen
  cases h
  exact ⟨xs, sh, rfl, hxs, ⟨by simpa using hn, file, tensor, xs, sh, hsplit, hxs, by simpa using hfit⟩, not_not.mp hlen⟩

theorem tryLoader_ok {st st' : Attempts K} (h : tryLoader F env o t d st = .ok st') :
    (st.loaded.isSome = true ∧ st' = st) ∨ st.loaded = none ∧ ∃ st₁,
      tryPacked o t d (loadWeightRefAuto F env.rd t.weightRef o.weightsDir t.shape) st = .ok st₁ ∧
      ((st'.loaded = st₁.loaded ∧ (d.hasFloats = true → st₁.loaded = none →
          ∀ c, loadWeightRefF32 F env.rd t.weightRef o.weightsDir t.shape true d.nbytes ≠ .ok c)) ∨
        d.hasFloats = true ∧ ∃ c, loadWeightRefF32 F env.rd t.weightRef o.weightsDir t.shape true d.nbytes = .ok c ∧
          st'.loaded = some (c, .f32)) := by
  unfold tryLoader at h
  split at h
  · rename_i hl
    exact Or.inl ⟨hl, (Except.ok.inj h).symm⟩
  rename_i hl
  obtain ⟨st₁, h₁, h⟩ := bind_ok h
  refine Or.inr ⟨by simpa using hl, st₁, h₁, ?_⟩
  split at h
  · rename_i hskip
    obtain rfl := Except.ok.inj h
    refine Or.inl ⟨rfl, fun hf hn => ?_⟩
    simp [hf, hn] at hskip
  rename_i hgo
  have hf : d.hasFloats = true := by
    by_contra hno
    exact hgo (Or.inr (by simpa using hno))
  obtain ⟨x, hx, h⟩ := bind_ok h
  rcases caught_ok hx with ⟨c, hc, rfl⟩ | ⟨code, message, hc, rfl⟩
  · obtain ⟨u, -, h⟩ := bind_ok h
    obtain rfl := Except.ok.inj h
    exact Or.inr ⟨hf, c, hc, rfl⟩
  · obtain rfl := Except.ok.inj h
    exact Or.inl ⟨rfl, fun _ _ c hok => by rw [hc] at hok; cases hok⟩

theorem tryLoader_stored {file tensor : String} (hsplit : splitHash t.weightRef = some (file, tensor)) {st st' : Attempts K}
    (h : tryLoader F env o t d st = .ok st') (hst : ∀ c q, st.loaded = some (c, q) → Stored F env o t d c) {c : Content K}
    {q : QuantFormat} (hl : st'.loaded = some (c, q)) : Stored F env o t d c := by
  rcases tryLoader_ok h with ⟨-, rfl⟩ | ⟨hnone, st₁, h₁, hrest⟩
  · exact hst c q hl
  rcases hrest with ⟨hsame, -⟩ | ⟨hf, c', hc', hst'⟩
  · rw [hsame] at hl
    rcases tryPacked_ok h₁ with ⟨hsame', -⟩ | ⟨-, -, p, q', hauto, hlen, hst₁⟩
    · rw [hsame', hnone] at hl
      cases hl
    · rw [hst₁] at hl
      obtain ⟨rfl, -⟩ := Prod.mk.inj (Option.some.inj hl)
      obtain ⟨file', tensor', gf, sh, gt, hsplit', hext, hgf, hraw, hblock⟩ := loadWeightRefAuto_ok hauto
      exact .loaderPacked file' tensor' gf p sh gt hsplit' hgf hext hraw hblock hlen
  · rw [hst'] at hl
    obtain ⟨rfl, -⟩ := Prod.mk.inj (Option.some.inj hl)
    obtain ⟨xs, sh, rfl, hxs, hacc, hlen⟩ := loadWeightRefF32_ok hsplit hc'
    exact .floats file tensor xs sh hsplit hf (Or.inr hacc) hxs hlen

theorem okOr_some {α : Type} {r : Result α} {a : α} (h : okOr r = some a) : r = .ok a := by
  cases r with
  | error e => cases h
  | ok b => rw [Option.some.inj h]

theorem decoded_packed {n : Nat} {c : Content K} (h : decoded F env o t true n = some c) :
    ∃ file tensor gf b sh gt, splitHash t.weightRef = some (file, tensor) ∧
      lowerExtension (joinPath o.weightsDir file) = ".gguf" ∧ env.rd.ggufHeader (joinPath o.weightsDir file) = .ok gf ∧
      ggufLoadTensorRaw env.rd.fs gf tensor = .ok (b, sh, gt) ∧ gt.isBlock = true ∧ b.length = n ∧ c = .bytes b := by
  unfold decoded at h
  obtain ⟨⟨file, tensor⟩, hsplit, h⟩ := Option.bind_eq_some_iff.mp h
  simp only [if_true] at h
  split at h
  · rename_i hext
    obtain ⟨gf, hgf, h⟩ := Option.bind_eq_some_iff.mp h
    obtain ⟨⟨b, sh, gt⟩, hb, h⟩ := Option.bind_eq_some_iff.mp h
    dsimp only at h
    split at h
    · rename_i hfit
      exact ⟨file, tensor, gf, b, sh, gt, hsplit, hext, okOr_some hgf, okOr_some hb, hfit.1, hfit.2, (Option.some.inj h).symm⟩
    · cases h
  · cases h

theorem decoded_floats {n : Nat} {c : Content K} (h : decoded F env o t false n = some c) :
    ∃ file tensor xs sh, splitHash t.weightRef = some (file, tensor) ∧
      loadContainerF32 F env.rd t.weightRef (joinPath o.weightsDir file) tensor = .ok (xs, sh) ∧
      wrap64 (xs.length * 4) = n ∧ c = .floats xs := by
  unfold decoded at h
  obtain ⟨⟨file, tensor⟩, hsplit, h⟩ := Option.bind_eq_some_iff.mp h
  simp only [Bool.false_eq_true, if_false] at h
  obtain ⟨⟨xs, sh⟩, hxs, h⟩ := Option.bind_eq_some_iff.mp h
  dsimp only at h
  split at h
  · rename_i hlen
    exact ⟨file, tensor, xs, sh, hsplit, okOr_some hxs, hlen, (Option.some.inj h).symm⟩
  · cases h

/-- What the attempts store is what the tensor decodes to, where it decodes to the buffer's size. -/
theorem Stored.same {c c' : Content K} (hs : Stored F env o t d c')
    (hdec : decoded F env o t (isGgufBlockQuant d.format) d.nbytes = some c) :
    Same F (isGgufBlockQuant d.format) c c' ∧
      (isGgufBlockQuant d.format = true ∨ isCached o t ∨ loaderAccepts F env o t d.nbytes) := by
  cases hp : isGgufBlockQuant d.format with
  | true =>
    rw [hp] at hdec
    refine ⟨?_, Or.inl rfl⟩
    obtain ⟨file, tensor, gf, b, sh, gt, hsplit, -, hgf, hraw, -, -, rfl⟩ := decoded_packed hdec
    have hbytes : ∀ file' tensor' gf' p sh' gt', splitHash t.weightRef = some (file', tensor') →
        env.rd.ggufHeader (joinPath o.weightsDir file') = .ok gf' →
        ggufLoadTensorRaw env.rd.fs gf' tensor' = .ok (p, sh', gt') → Same F true (.bytes b : Content K) (.bytes p) := by
      intro file' tensor' gf' p sh' gt' hsplit' hgf' hraw'
      obtain ⟨rfl, rfl⟩ := Prod.mk.inj (Option.some.inj (hsplit.symm.trans hsplit'))
      obtain rfl : gf = gf' := Except.ok.inj (hgf.symm.trans hgf')
      obtain ⟨rfl, -⟩ := Prod.mk.inj (Except.ok.inj (hraw.symm.trans hraw'))
      rfl
    cases hs with
    | cachedPacked file' tensor' gf' p sh' gt' hsplit' _ hgf' _ hraw' _ =>
      exact hbytes file' tensor' gf' p sh' gt' hsplit' hgf' hraw'
    | loaderPacked file' tensor' gf' p sh' gt' hsplit' hgf' _ hraw' _ _ =>
      exact hbytes file' tensor' gf' p sh' gt' hsplit' hgf' hraw'
    | floats _ _ _ _ _ hf _ _ _ => simp [Dest.hasFloats, hp] at hf
  | false =>
    rw [hp] at hdec
    obtain ⟨file, tensor, xs, sh, hsplit, hxs, hlen, rfl⟩ := decoded_floats hdec
    have hraw : ∀ file' tensor' gf' p sh' gt', splitHash t.weightRef = some (file', tensor') →
        env.rd.ggufHeader (joinPath o.weightsDir file') = .ok gf' → lowerExtension (joinPath o.weightsDir file') = ".gguf" →
        ggufLoadTensorRaw env.rd.fs gf' tensor' = .ok (p, sh', gt') → p.length = d.nbytes →
        gt' = .f32 ∧ wordsOf F p = xs := by
      intro file' tensor' gf' p sh' gt' hsplit' hgf' hext hraw' hp'
      obtain ⟨rfl, rfl⟩ := Prod.mk.inj (Option.some.inj (hsplit.symm.trans hsplit'))
      rw [loadContainerF32_gguf hext hgf'] at hxs
      exact raw_as_floats F env.rd.fs gf' tensor hraw' hxs (hp'.trans hlen.symm)
    cases hs with
    | cachedPacked file' tensor' gf' p sh' gt' hsplit' hcached hgf' hext hraw' hp' =>
      exact ⟨(hraw file' tensor' gf' p sh' gt' hsplit' hgf' hext hraw' hp').2.symm, Or.inr (Or.inl hcached)⟩
    | loaderPacked file' tensor' gf' p sh' gt' hsplit' hgf' hext hraw' hblock hp' =>
      obtain ⟨rfl, -⟩ := hraw file' tensor' gf' p sh' gt' hsplit' hgf' hext hraw' hp'
      cases hblock
    | floats file' tensor' xs' sh' hsplit' _ hroute hxs' _ =>
      obtain ⟨rfl, rfl⟩ := Prod.mk.inj (Option.some.inj (hsplit.symm.trans hsplit'))
      obtain ⟨rfl, -⟩ := Prod.mk.inj (Except.ok.inj (hxs.symm.trans hxs'))
      exact ⟨rfl, Or.inr hroute⟩

/-- A tensor that decodes to the buffer's size is loaded by the attempts, unless only the
    generic loader is left and rejects its shape. -/
theorem attempts_complete {c : Content K} (hdec : decoded F env o t (isGgufBlockQuant d.format) d.nbytes = some c)
    (hroute : isGgufBlockQuant d.format = true ∨ isCached o t ∨ loaderAccepts F env o t d.nbytes)
    (hwants : isGgufBlockQuant d.format = true → wantsPacked o t = true)
    (hroom : d.room.isSome = true) {st₁ st₂ : Attempts K} (h₁ : tryCached F env o t d ⟨none, none⟩ = .ok st₁)
    (h₂ : tryLoader F env o t d st₁ = .ok st₂) : st₂.loaded ≠ none := by
  intro hnone
  rcases tryLoader_ok h₂ with ⟨hsome, rfl⟩ | ⟨hnone₁, st, hpack, hrest⟩
  · rw [hnone] at hsome
    cases hsome
  cases hp : isGgufBlockQuant d.format with
  | true =>
    rw [hp] at hdec
    obtain ⟨file, tensor, gf, b, sh, gt, hsplit, hext, hgf, hraw, hblock, hlen, rfl⟩ := decoded_packed hdec
    -- the loader's packed attempt cannot have failed
    have hsup : ggufTypeSupported gt = true := (loadRaw_slice env.rd.fs gf tensor hraw).choose_spec.2.2.1
    have hauto : loadWeightRefAuto F env.rd t.weightRef o.weightsDir t.shape = .ok (b, ggufTypeToQuant gt) := by
      have hq : isGgufBlockQuant (ggufTypeToQuant gt) = true := hblock
      simp [loadWeightRefAuto, hsplit, hext, hgf, hraw, hsup, hq]
    rcases tryPacked_ok hpack with ⟨-, hno⟩ | ⟨-, -, p, q, -, -, hst⟩
    · exact hno (hwants hp) hnone₁ _ _ hauto hlen
    · rcases hrest with ⟨hsame, -⟩ | ⟨hf, -⟩
      · rw [hnone, hst] at hsame
        cases hsame
      · simp [Dest.hasFloats, hp] at hf
  | false =>
    rw [hp] at hdec hroute
    have hfloats : d.hasFloats = true := by simp [Dest.hasFloats, hp, hroom]
    obtain ⟨file, tensor, xs, sh, hsplit, hxs, hlen, rfl⟩ := decoded_floats hdec
    rcases hroute with hfalse | hcached | ⟨hn, file', tensor', xs', sh', hsplit', hxs', hfit⟩
    · cases hfalse
    · -- the cached header's floats
      have hext := isCached_lower hsplit hcached
      rcases tryCached_ok hsplit h₁ with ⟨-, hbad⟩ | ⟨-, gf, st₀, hgf, hp₀, hf₀⟩
      · simp only [loadContainerF32, hext, if_true] at hxs
        obtain ⟨gf, hgf, -⟩ := bind_ok hxs
        exact hbad hcached gf hgf
      · rw [loadContainerF32_gguf hext hgf] at hxs
        rcases tryFloats_ok hf₀ with ⟨hsame, hno⟩ | ⟨-, -, _, _, -, -, hst⟩
        · rw [hnone₁] at hsame
          exact hno hfloats hsame.symm xs sh hxs hlen
        · rw [hnone₁] at hst
          cases hst
    · -- the generic loader's floats
      obtain ⟨rfl, rfl⟩ := Prod.mk.inj (Option.some.inj (hsplit.symm.trans hsplit'))
      obtain ⟨rfl, rfl⟩ := Prod.mk.inj (Except.ok.inj (hxs.symm.trans hxs'))
      have hload : loadWeightRefF32 F env.rd t.weightRef o.weightsDir t.shape true d.nbytes = .ok (.floats xs) := by
        simp [loadWeightRefF32, hsplit, hxs, hfit, hlen, hn]
      rcases hrest with ⟨hsame, hno⟩ | ⟨-, _, -, hst⟩
      · rw [hnone] at hsame
        exact hno hfloats hsame.symm _ hload
      · rw [hnone] at hst
        cases hst

omit [CommRing K] in
theorem tryRaw_ok {st st' : Attempts K} {n : Nat}
    (hn : n = if isGgufBlockQuant d.format then shapeNumel t.shape else d.nbytes / 4)
    (h : tryRaw env o t d n st = .ok st') :
    (st.loaded.isSome = true ∧ st' = st) ∨
      st.loaded = none ∧ ∀ c q, st'.loaded = some (c, q) → rawContent env o t d = some c := by
  unfold tryRaw at h
  split at h
  · rename_i hl
    exact Or.inl ⟨hl, (Except.ok.inj h).symm⟩
  rename_i hl
  have hnone : st.loaded = none := by simpa using hl
  refine Or.inr ⟨hnone, fun c q hc => ?_⟩
  dsimp only at h
  generalize (if o.weightsSandbox = "" then o.weightsDir else o.weightsSandbox) = root at h
  split at h
  · exact absurd h (fail_ne_ok _ _ _)
  split at h
  · obtain rfl := Except.ok.inj h
    rw [hnone] at hc
    cases hc
  rename_i data hdata
  split at h
  · rename_i hquant
    split at h
    · obtain rfl := Except.ok.inj h
      rw [hnone] at hc
      cases hc
    · obtain ⟨x, hx, h⟩ := bind_ok h
      rcases caught_ok hx with ⟨values, hv, rfl⟩ | ⟨code, message, -, rfl⟩
      · obtain ⟨u, -, h⟩ := bind_ok h
        obtain rfl := Except.ok.inj h
        obtain ⟨rfl, -⟩ := Prod.mk.inj (Option.some.inj hc)
        simp [rawContent, hdata, hquant, ← hn, hv, okOr]
      · obtain rfl := Except.ok.inj h
        rw [hnone] at hc
        cases hc
  · rename_i hquant
    split at h
    · cases h
    · obtain ⟨u, -, h⟩ := bind_ok h
      split at h
      · obtain rfl := Except.ok.inj h
        rw [hnone] at hc
        cases hc
      · rename_i hlen
        obtain rfl := Except.ok.inj h
        obtain ⟨rfl, -⟩ := Prod.mk.inj (Option.some.inj hc)
        simp [rawContent, hdata, not_not.mp hquant, Nat.not_lt.mp hlen]

/-- A weight that loads holds what its tensor decodes to exactly when the tensor loads. -/
theorem loadWeight_iff {file tensor : String} (hsplit : splitHash t.weightRef = some (file, tensor))
    (hinit : o.weightInit = .none) (hwants : isGgufBlockQuant d.format = true → wantsPacked o t = true)
    (hroom : d.room.isSome = true) {c' : Content K} {q : QuantFormat} (h : loadWeight F env o t d = .ok (c', q)) :
    (∃ c, decoded F env o t (isGgufBlockQuant d.format) d.nbytes = some c ∧ Same F (isGgufBlockQuant d.format) c c') ↔
      Loads F env o t d := by
  have href : t.weightRef ≠ "" := by
    intro he
    rw [he] at hsplit
    cases hsplit
  unfold loadWeight at h
  dsimp only at h
  rw [if_neg href] at h
  obtain ⟨st₁, h₁, h⟩ := bind_ok h
  obtain ⟨st₂, h₂, h⟩ := bind_ok h
  obtain ⟨st₃, h₃, h⟩ := bind_ok h
  have hstored : ∀ c q, st₂.loaded = some (c, q) → Stored F env o t d c := fun c q =>
    tryLoader_stored hsplit h₂ fun c q => tryCached_stored hsplit h₁
  have hfinal : st₃.loaded = some (c', q) := by
    split at h
    · rename_i r hr
      rw [hr, Except.ok.inj h]
    · split at h
      · exact absurd h (fail_ne_ok _ _ _)
      · split at h
        · exact absurd h (fail_ne_ok _ _ _)
        · simp only [hinit, initialFill] at h
          exact absurd h (fail_ne_ok _ _ _)
  rcases tryRaw_ok rfl h₃ with ⟨-, rfl⟩ | ⟨hnone, hraw⟩
  · have hst := hstored c' q hfinal
    apply Iff.intro
    · intro hholds
      obtain ⟨c, hdec, -⟩ := hholds
      rcases (hst.same hdec).2 with hp | hc | ha
      · exact ⟨c, hdec, Or.inl hp⟩
      · exact ⟨c, hdec, Or.inr (Or.inl hc)⟩
      · exact ⟨c, hdec, Or.inr (Or.inr (Or.inl ha))⟩
    · intro hloads
      obtain ⟨c, hdec, -⟩ := hloads
      exact ⟨c, hdec, (hst.same hdec).1⟩
  · have hc' := hraw c' q hfinal
    apply Iff.intro
    · intro hholds
      obtain ⟨c, hdec, hsame⟩ := hholds
      exact ⟨c, hdec, Or.inr (Or.inr (Or.inr ⟨c', hc', hsame⟩))⟩
    · intro hloads
      obtain ⟨c, hdec, hroute⟩ := hloads
      have hincomplete : ∀ hr : isGgufBlockQuant d.format = true ∨ isCached o t ∨ loaderAccepts F env o t d.nbytes, False :=
        fun hr => attempts_complete hdec hr hwants hroom h₁ h₂ hnone
      rcases hroute with hp | hc | ha | ⟨r, hr, hsame⟩
      · exact absurd (Or.inl hp) hincomplete
      · exact absurd (Or.inr (Or.inl hc)) hincomplete
      · exact absurd (Or.inr (Or.inr ha)) hincomplete
      · obtain rfl : r = c' := Option.some.inj (hr.symm.trans hc')
        exact ⟨c, hdec, hsame⟩

end One

/-! ## The call -/

section Call

variable {K : Type} [CommRing K] {F : FloatBits K} {env : LoadEnv K} {o : SessionOptions} {streamed : TensorId → Bool}
  {owned : List OwnedSlot}

theorem Buffers.find_setFormat (m : Buffers) (id id' : TensorId) (q : QuantFormat) :
    (m.setFormat id q).find id' = (m.find id').map fun b => if id' = id then { b with quantFormat := q } else b := by
  unfold Buffers.setFormat Buffers.find
  rw [List.find?_map]
  have hkey : ((fun e : TensorId × TensorBuffer => e.1 == id') ∘
      fun e => if e.1 = id then (e.1, { e.2 with quantFormat := q }) else e) = fun e => e.1 == id' := by
    funext e
    simp only [Function.comp]
    split <;> rfl
  rw [hkey]
  cases hfind : m.find? (·.1 == id') with
  | none => rfl
  | some e =>
    have he : e.1 = id' := by simpa using List.find?_some hfind
    by_cases hid : e.1 = id
    · simp [← he, hid]
    · simp [← he, hid]

/-- The weights that the call loads. -/
def isLoaded (streamed : TensorId → Bool) (t : Tensor) : Prop := t.isWeight = true ∧ streamed t.id = false

/-- What the loop leaves of the memory, and what it stores. -/
theorem loadLoop_ok : ∀ (ts : List Tensor) (w w' : Weights K), loadLoop F env o streamed owned ts w = .ok w' →
    (ts.map (·.id)).Nodup →
    (∀ t ∈ ts, isLoaded streamed t → ∀ u ∈ ts, isLoaded streamed u → t.id ≠ u.id →
      (w.buffers.find t.id).map (·.data) ≠ (w.buffers.find u.id).map (·.data)) →
    (∀ id, (∀ t ∈ ts, isLoaded streamed t → t.id ≠ id) → w'.buffers.find id = w.buffers.find id) ∧
    (∀ ptr, (∀ t ∈ ts, isLoaded streamed t → (w.buffers.find t.id).map (·.data) ≠ some (some ptr)) → w'.mem ptr = w.mem ptr) ∧
    ∀ t ∈ ts, isLoaded streamed t → ∃ b b' c q, w.buffers.find t.id = some b ∧ w'.buffers.find t.id = some b' ∧
      b'.data = b.data ∧ b'.nbytes = b.nbytes ∧ loadWeight F env o t (destOf owned b) = .ok (c, q) ∧
      ∀ ptr, b.data = some ptr → w'.mem ptr = some c := by
  intro ts
  induction ts with
  | nil =>
    intro w w' h _ _
    cases h
    exact ⟨fun _ _ => rfl, fun _ _ => rfl, by simp⟩
  | cons t ts ih =>
    intro w w' h hnd hapart
    obtain ⟨hnot, hnd'⟩ := List.nodup_cons.mp hnd
    have hother : ∀ u ∈ ts, u.id ≠ t.id := by
      intro u hu he
      have hmem : u.id ∈ ts.map (·.id) := List.mem_map_of_mem hu
      rw [he] at hmem
      exact hnot hmem
    unfold loadLoop at h
    split at h
    · rename_i hskip
      have hno : ¬ isLoaded streamed t := by
        intro hl
        obtain ⟨hw, hs⟩ := hl
        simp [hw, hs] at hskip
      obtain ⟨hbufs, hmem, hall⟩ := ih w w' h hnd' fun u hu hlu v hv hlv =>
        hapart u (List.mem_cons_of_mem _ hu) hlu v (List.mem_cons_of_mem _ hv) hlv
      refine ⟨fun id hid => hbufs id fun u hu => hid u (List.mem_cons_of_mem _ hu),
        fun ptr hptr => hmem ptr fun u hu => hptr u (List.mem_cons_of_mem _ hu), fun u hu hlu => ?_⟩
      rcases List.mem_cons.mp hu with rfl | hu
      · exact absurd hlu hno
      · exact hall u hu hlu
    · rename_i hgo
      have hlt : isLoaded streamed t := by
        unfold isLoaded
        simpa using hgo
      split at h
      · exact absurd h (fail_ne_ok _ _ _)
      rename_i b hb
      obtain ⟨⟨c, q⟩, hload, h⟩ := bind_ok h
      dsimp only at h
      -- the rest of the loop finds the buffers it would have found before
      have hfind : ∀ id, id ≠ t.id → (w.buffers.setFormat t.id q).find id = w.buffers.find id := by
        intro id hid
        rw [Buffers.find_setFormat]
        cases w.buffers.find id <;> simp [hid]
      obtain ⟨hbufs, hmem, hall⟩ := ih _ w' h hnd' fun u hu hlu v hv hlv hne => by
        show ((w.buffers.setFormat t.id q).find u.id).map (·.data) ≠ ((w.buffers.setFormat t.id q).find v.id).map (·.data)
        rw [hfind _ (hother u hu), hfind _ (hother v hv)]
        exact hapart u (List.mem_cons_of_mem _ hu) hlu v (List.mem_cons_of_mem _ hv) hlv hne
      refine ⟨fun id hid => ?_, fun ptr hptr => ?_, fun u hu hlu => ?_⟩
      · rw [hbufs id fun u hu => hid u (List.mem_cons_of_mem _ hu)]
        exact hfind id (hid t List.mem_cons_self hlt).symm
      · have hkeep := hmem ptr fun u hu hlu => by
          show ((w.buffers.setFormat t.id q).find u.id).map (·.data) ≠ some (some ptr)
          rw [hfind _ (hother u hu)]
          exact hptr u (List.mem_cons_of_mem _ hu) hlu
        rw [hkeep]
        have hne := hptr t List.mem_cons_self hlt
        rw [hb, Option.map_some] at hne
        cases hd : b.data with
        | none => rfl
        | some p =>
          have hpp : ptr ≠ p := by
            intro he
            rw [hd, he] at hne
            exact hne rfl
          exact Function.update_of_ne hpp ..
      · rcases List.mem_cons.mp hu with rfl | hu
        · have hown := hbufs u.id fun v hv _ he => hother v hv he
          have hsame : w'.buffers.find u.id = some { b with quantFormat := q } := by
            rw [hown, Buffers.find_setFormat, hb]
            simp
          refine ⟨b, _, c, q, hb, hsame, rfl, rfl, hload, fun ptr hptr => ?_⟩
          have hkeep := hmem ptr fun v hv hlv => by
            show ((w.buffers.setFormat u.id q).find v.id).map (·.data) ≠ some (some ptr)
            rw [hfind _ (hother v hv)]
            have hne := hapart u List.mem_cons_self hlu v (List.mem_cons_of_mem _ hv) hlv (hother v hv).symm
            rw [hb, Option.map_some, hptr] at hne
            exact hne.symm
          rw [hkeep, hptr]
          exact Function.update_self ..
        · obtain ⟨bu, bu', cu, qu, hbu, hrest⟩ := hall u hu hlu
          refine ⟨bu, bu', cu, qu, ?_, hrest⟩
          rw [← hfind _ (hother u hu)]
          exact hbu

/-- Weight `t`'s buffer holds what the named tensor decodes to. -/
def HoldsTensor (F : FloatBits K) (env : LoadEnv K) (o : SessionOptions) (buffers : Buffers) (w : Weights K)
    (t : Tensor) : Prop :=
  ∃ b b' ptr content c, buffers.find t.id = some b ∧ w.buffers.find t.id = some b' ∧ b'.data = some ptr ∧
    b'.nbytes = b.nbytes ∧ w.mem ptr = some content ∧
    decoded F env o t (isGgufBlockQuant b.quantFormat) b.nbytes = some c ∧
    Same F (isGgufBlockQuant b.quantFormat) c content

variable {R : Type}

end Call

/-! ## One weight of one float -/

def weightGraph (weightRef : String) : Graph Int where
  version := ⟨1, 0⟩
  name := "weights"
  producer := ""
  domain := "uaii"
  tensors := [⟨1, "w", .f32, [1], .unspecified, true, weightRef, .f32⟩]
  nodes := []
  inputs := []
  outputs := []
  metadata := []

/-- Eight bytes, parsed as a GGUF file with one tensor. -/
def oneTensorEnv : LoadEnv Int where
  rd :=
    { fs := fun _ => some [0x47, 0x47, 0x55, 0x46, 3, 0, 0, 0]
      ggufHeader := fun _ => .ok ⟨[⟨"w", [1], .f32, 0⟩], 4, "m.gguf"⟩
      safetensors := fun _ _ => fail .ioError "" }
  underRoot _ _ := true
  unpack _ _ _ := fail .invalidArgument ""

end Uaii.Runtime
