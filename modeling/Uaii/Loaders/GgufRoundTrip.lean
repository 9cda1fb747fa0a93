/-
  Uaii.Loaders.GgufRoundTrip — `gguf_write_f32`, then `gguf_read_header` and
  `gguf_load_tensor_f32` of each tensor.

  `Takes p s x`: where the file goes on with `s`, the reader `p` reads it and gives `x`.
  The writer's ten alternatives are taken by the reader's cases (`value_takes`); the
  others are written as an empty string.

  Proved: the contents come back exactly when every value is of an alternative that is
  written, no tensor has 2^32 dimensions and every tensor's name leads to its values
  (`gguf_round_trip_iff`). A 64-bit integer is lost (`int64_lost`).
-/

import Mathlib.Algebra.BigOperators.Group.List.Lemmas
import Uaii.Lib.Lists
import Uaii.Loaders.GgufHeader
import Uaii.Loaders.GgufPaths

namespace Uaii.Loaders

open Codec (leBytes leValue leBytes_length leValue_leBytes textOf bytesOf ByteText textOf_bytesOf)

/-! ## Reading what is ahead -/

namespace ByteReader

/-- `s` is ahead. -/
structure At (r : ByteReader) (s : List UInt8) : Prop where
  inside : r.pos ≤ r.data.length
  ahead : s <+: r.data.drop r.pos
  size : r.data.length < 2 ^ 61

variable {r : ByteReader} {s t : List UInt8}

theorem At.length (h : r.At s) : r.pos + s.length ≤ r.data.length := by
  have hle := h.ahead.length_le
  have hin := h.inside
  rw [List.length_drop] at hle
  omega

theorem At.short (h : r.At s) : s.length < 2 ^ 61 := by
  have hlen := h.length
  have hsize := h.size
  omega

theorem At.first (h : r.At (s ++ t)) : r.At s := ⟨h.inside, (List.prefix_append s t).trans h.ahead, h.size⟩

theorem At.rest (h : r.At (s ++ t)) : (r.seek (r.pos + s.length)).At t := by
  have hlen := h.length
  rw [List.length_append] at hlen
  refine ⟨by simp only [seek]; omega, ?_, h.size⟩
  obtain ⟨u, hu⟩ := h.ahead
  refine ⟨u, ?_⟩
  rw [List.append_assoc] at hu
  rw [seek, ← List.drop_drop, ← hu, List.drop_left]

theorem At.read (h : r.At s) : r.readBytes s.length = .ok (s, r.seek (r.pos + s.length)) := by
  rw [readBytes_of_le h.length, ← List.prefix_iff_eq_take.mp h.ahead]
  rfl

end ByteReader

namespace Reading

open ByteReader (At)

variable {α β : Type}

/-- Where `s` is ahead, `p` reads it and gives `x`. -/
def Takes (p : Reading α) (s : List UInt8) (x : α) : Prop :=
  ∀ r : ByteReader, r.At s → p.run r = .ok (x, r.seek (r.pos + s.length))

namespace Takes

variable {p : Reading α} {f : α → Reading β} {s t : List UInt8} {x : α} {y : β}

theorem pure (x : α) : Takes (Pure.pure x : Reading α) [] x := fun _ _ => rfl

/-- The next step, and what is ahead of it. -/
theorem step (h : Takes p s x) {r : ByteReader} (hr : r.At (s ++ t)) (f : α → Reading β) :
    (p >>= f).run r = (f x).run (r.seek (r.pos + s.length)) := by
  rw [StateT.run_bind, h r hr.first]
  rfl

theorem bind (h : Takes p s x) (hf : Takes (f x) t y) : Takes (p >>= f) (s ++ t) y := by
  intro r hr
  rw [h.step hr, hf _ hr.rest, List.length_append, ← Nat.add_assoc]
  rfl

/-- What is computed from what was read. -/
theorem ret (h : Takes p s x) (hf : f x = Pure.pure y) : Takes (p >>= f) s y := by
  have hbind : Takes (p >>= f) (s ++ []) y := h.bind (by rw [hf]; exact pure y)
  rwa [List.append_nil] at hbind

/-- What is ahead is inside the file. -/
theorem of_short (h : s.length < 2 ^ 61 → Takes p s x) : Takes p s x := fun r hr => h hr.short r hr

theorem bytes (s : List UInt8) : Takes (Reading.bytes s.length) s s := fun _ hr => hr.read

theorem pod {k n : Nat} (hn : n < 256 ^ k) : Takes (Reading.pod k) (leBytes k n) n := by
  intro r hr
  have hread := hr.read
  rw [leBytes_length] at hread ⊢
  show r.readPod k = _
  rw [ByteReader.readPod, hread]
  simp only [ok_bind, leValue_leBytes, Nat.mod_eq_of_lt hn]

theorem bits {w k : Nat} (hw : w = 8 * k) (x : BitVec w) : Takes (Reading.bits w) (podBits x) x := by
  have hk : w / 8 = k := by omega
  have hlt : x.toNat < 256 ^ (w / 8) := by
    rw [hk, show (256 : Nat) = 2 ^ 8 from rfl, ← Nat.pow_mul, ← hw]
    exact x.isLt
  exact (pod hlt).ret (by rw [BitVec.ofNat_toNat, BitVec.setWidth_eq])

/-- `read_string`. -/
theorem stringBytes (b : List UInt8) : Takes ByteReader.readString (leBytes 8 b.length ++ b) b := by
  intro r hr
  have hshort := hr.short
  rw [List.length_append, leBytes_length] at hshort
  have hcount : r.readPod 8 = .ok (b.length, r.seek (r.pos + 8)) := by
    have hpod := pod (k := 8) (n := b.length) (by omega) r hr.first
    rwa [leBytes_length] at hpod
  have hrest := hr.rest
  rw [leBytes_length] at hrest
  have hlen := hrest.length
  have hsize := hr.size
  have htake := List.prefix_iff_eq_take.mp hrest.ahead
  simp only [ByteReader.seek] at hlen htake
  show r.readString = _
  simp only [ByteReader.readString, hcount, ok_bind, ByteReader.seek]
  rw [if_neg, if_neg, if_neg, ← htake, List.length_append, leBytes_length, Nat.add_assoc]
  · omega
  · unfold ByteReader.maxString
    omega
  · rw [wrap64_of_lt (by omega)]
    omega

theorem string {s : String} (hs : ByteText s.toList) : Takes Reading.string (writeString s) s := by
  have hb : (bytesOf s.toList).length = s.length := by rw [bytesOf, List.length_map, String.length_toList]
  have hread := stringBytes (bytesOf s.toList)
  rw [hb] at hread
  exact hread.ret (by rw [textOf_bytesOf hs, String.ofList_toList])

theorem reserve_eq {e n : Nat} (h : n ≤ (2 ^ 63 - 1) / e) : Reading.reserve e n = Pure.pure () := by
  rw [Reading.reserve, if_neg (by omega)]

/-- A vector of as many elements as are ahead is not too long. -/
theorem reserve {e n : Nat} {p : Reading α} (he : 0 < e) (hn : n * e ≤ 4 * s.length) (h : Takes p s x) :
    Takes (Reading.reserve e n >>= fun _ => p) s x := by
  refine of_short fun hs => ?_
  rw [reserve_eq ((Nat.le_div_iff_mul_le he).mpr (by omega)), pure_bind]
  exact h

theorem many {w : β → List UInt8} {g : β → α} :
    ∀ {xs : List β}, (∀ b ∈ xs, Takes p (w b) (g b)) → Takes (Reading.many p xs.length) (xs.flatMap w) (xs.map g)
  | [], _ => pure []
  | b :: xs, h =>
    have hb := h b List.mem_cons_self
    have hxs : Takes (Reading.many p xs.length) (xs.flatMap w) (xs.map g) := many fun c hc => h c (List.mem_cons_of_mem _ hc)
    hb.bind (hxs.ret rfl)

end Takes

/-! ## What every value read satisfies -/

def Gives (p : Reading α) (P : α → Prop) : Prop := ∀ r x r', p.run r = .ok (x, r') → P x

namespace Gives

variable {p : Reading α} {f : α → Reading β} {P : α → Prop} {Q : β → Prop}

theorem any (p : Reading α) : Gives p fun _ => True := fun _ _ _ _ => trivial

theorem pure {x : α} (h : P x) : Gives (Pure.pure x : Reading α) P := by
  intro r y r' hrun
  cases hrun
  exact h

theorem throw (e : Fault) : Gives (MonadExcept.throw e : Reading α) P := by
  intro r x r' hrun
  cases hrun

theorem bind (h : Gives p P) (hf : ∀ x, P x → Gives (f x) Q) : Gives (p >>= f) Q := by
  intro r y r' hrun
  rw [StateT.run_bind] at hrun
  obtain ⟨⟨x, r₁⟩, hp, hrun⟩ := bind_ok hrun
  exact hf x (h r x r₁ hp) r₁ y r' hrun

theorem pod (k : Nat) : Gives (Reading.pod k) fun n => n < 256 ^ k := by
  intro r n r' hrun
  obtain ⟨⟨b, r₁⟩, hb, hrun⟩ := bind_ok hrun
  obtain rfl := (Prod.mk.inj (Except.ok.inj hrun)).1
  have hlt := Codec.leValue_lt b
  rwa [ByteReader.readBytes_length hb] at hlt

theorem many (h : Gives p P) : ∀ n, Gives (Reading.many p n) fun xs => xs.length = n ∧ ∀ x ∈ xs, P x
  | 0 => pure (by simp)
  | n + 1 => h.bind fun x hx => (many h n).bind fun xs hxs =>
    pure ⟨by rw [List.length_cons, hxs.1], List.forall_mem_cons.mpr ⟨hx, hxs.2⟩⟩

end Gives

end Reading

/-! ## Values -/

/-- The alternative is one that `gguf_write_f32` writes. -/
def GgufValue.written : GgufValue → Bool
  | .monostate | .uint8 _ | .int8 _ | .uint16 _ | .int16 _ | .int64 _ | .double _ => false
  | _ => true

/-- What comes back. -/
def GgufValue.readBack (v : GgufValue) : GgufValue := if v.written then v else .string ""

def GgufValue.ByteStrings : GgufValue → Prop
  | .string s => ByteText s.toList
  | .strings xs => ∀ s ∈ xs, ByteText s.toList
  | _ => True

theorem readBack_eq_iff {v : GgufValue} : v.readBack = v ↔ v.written = true := by
  unfold GgufValue.readBack
  cases v <;> simp [GgufValue.written]

section Values

open Reading

variable {α : Type} {fuel : Nat} {s : List UInt8} {v : GgufValue}

/-- A type and its value. -/
def typed (fuel : Nat) : Reading GgufValue := do
  let vt ← pod 4
  readValue fuel (GgufValueType.ofCode vt)

theorem type_takes {f : Nat → Reading α} {x : α} (t : GgufValueType) (h : Takes (f t.code) s x) :
    Takes (pod 4 >>= f) (writeType t ++ s) x :=
  (Takes.pod (by cases t <;> decide)).bind h

theorem typed_takes {t : GgufValueType} (h : Takes (readValue fuel (some t)) s v) : Takes (typed fuel) (writeType t ++ s) v :=
  type_takes t (by rw [GgufValueType.ofCode_code]; exact h)

theorem elems_takes {e : Nat} {p : Reading α} {w : α → List UInt8} {c : List α → GgufValue} {xs : List α} (he : 0 < e)
    (hw : ∀ x ∈ xs, e ≤ 4 * (w x).length) (h : ∀ x ∈ xs, Takes p (w x) x) :
    Takes (do
      let n ← pod 8
      reserve e n
      let vals ← many p n
      pure (c vals)) (writeElems w xs) (c xs) := by
  have hlen := Lists.mul_length_le_flatMap hw
  have hmany := Takes.many h
  rw [List.map_id'] at hmany
  refine Takes.of_short fun hs => ?_
  rw [writeElems, List.length_append, leBytes_length] at hs
  have hcount : xs.length ≤ xs.length * e := Nat.le_mul_of_pos_right _ he
  exact (Takes.pod (by omega)).bind (Takes.reserve he hlen (hmany.ret rfl))

theorem bits_takes {w k : Nat} {c : List (BitVec w) → GgufValue} (hw : w = 8 * k) (hk : 0 < k) (xs : List (BitVec w)) :
    Takes (do
      let n ← pod 8
      reserve k n
      let vals ← many (bits w) n
      pure (c vals)) (writeElems podBits xs) (c xs) := by
  refine elems_takes hk (fun x _ => ?_) fun x _ => Takes.bits hw x
  rw [podBits, leBytes_length]
  omega

theorem strings_takes {xs : List String} (h : ∀ s ∈ xs, ByteText s.toList) :
    Takes (do
      let n ← pod 8
      reserve 32 n
      let vals ← many string n
      pure (GgufValue.strings vals)) (writeElems writeString xs) (.strings xs) := by
  refine elems_takes (by decide) (fun x _ => ?_) fun x hx => Takes.string (h x hx)
  rw [writeString, List.length_append, leBytes_length]
  omega

/-- The reader's cases and the writer's alternatives. -/
theorem value_takes (fuel : Nat) (h : v.ByteStrings) : Takes (typed (fuel + 1)) (writeValue v) v.readBack := by
  have hempty : Takes (typed (fuel + 1)) (writeType .string ++ writeString "") (.string "") :=
    typed_takes ((Takes.string (by decide)).ret rfl)
  cases v with
  | monostate => exact hempty
  | uint8 x => exact hempty
  | int8 x => exact hempty
  | uint16 x => exact hempty
  | int16 x => exact hempty
  | int64 x => exact hempty
  | double x => exact hempty
  | bool b =>
    refine typed_takes ?_
    cases b with
    | false => exact (Takes.bits (k := 1) rfl 0#8).ret rfl
    | true => exact (Takes.bits (k := 1) rfl 1#8).ret rfl
  | uint32 x => exact typed_takes ((Takes.bits (k := 4) rfl x).ret rfl)
  | int32 x => exact typed_takes ((Takes.bits (k := 4) rfl x).ret rfl)
  | uint64 x => exact typed_takes ((Takes.bits (k := 8) rfl x).ret rfl)
  | float x => exact typed_takes ((Takes.bits (k := 4) rfl x).ret rfl)
  | string s => exact typed_takes ((Takes.string h).ret rfl)
  | strings xs => exact typed_takes (type_takes .string (strings_takes h))
  | int32s xs => exact typed_takes (type_takes .int32 (bits_takes (k := 4) rfl (by decide) xs))
  | int64s xs => exact typed_takes (type_takes .int64 (bits_takes (k := 8) rfl (by decide) xs))
  | floats xs => exact typed_takes (type_takes .float32 (bits_takes (k := 4) rfl (by decide) xs))

theorem kv_takes {e : String × GgufValue} (hkey : ByteText e.1.toList) (h : e.2.ByteStrings) :
    Takes (readKv (fuel + 1)) (writeKv e) (e.1, e.2.readBack) := by
  have hread : readKv (fuel + 1) = (string >>= fun key => typed (fuel + 1) >>= fun v => pure (key, v)) := by
    simp only [readKv, typed, bind_assoc]
  rw [hread]
  exact (Takes.string hkey).bind ((value_takes fuel h).ret rfl)

end Values

/-! ## Tensor entries -/

/-- The entries as they are read. -/
def infosAt : Nat → List GgufTensorData → List GgufTensorInfo
  | _, [] => []
  | offset, t :: ts => ⟨t.name, t.dims, .f32, offset⟩ :: infosAt (wrap64 (offset + wrap64 (t.data.length * 4))) ts

/-- What the caller hands over: maps and strings as the code has them, and a file that is a
    vector of bytes. -/
structure GgufWritable (kv : List (String × GgufValue)) (tensors : List GgufTensorData) : Prop where
  keys : (kv.map (·.1)).Nodup
  kvBytes : ∀ e ∈ kv, ByteText e.1.toList ∧ e.2.ByteStrings
  nameBytes : ∀ t ∈ tensors, ByteText t.name.toList
  dims : ∀ t ∈ tensors, ∀ d ∈ t.dims, d < 2 ^ 64
  product : ∀ t ∈ tensors, t.dims.prod = t.data.length
  size : (ggufWriteF32 kv tensors).length < 2 ^ 61

section Infos

open Reading

variable {fuel : Nat} {kv : List (String × GgufValue)} {tensors : List GgufTensorData}

theorem info_takes {t : GgufTensorData} (hname : ByteText t.name.toList) (hdims : ∀ d ∈ t.dims, d < 2 ^ 64)
    (hrank : t.dims.length < 2 ^ 32) {offset : Nat} (ho : offset < 2 ^ 64) :
    Takes readTensorInfo (writeInfo t offset) ⟨t.name, t.dims, .f32, offset⟩ := by
  have hmany : Takes (many (pod 8) t.dims.length) (t.dims.flatMap (leBytes 8)) t.dims := by
    have hread := Takes.many (p := pod 8) (w := leBytes 8) (g := id) fun d hd => Takes.pod (hdims d hd)
    rwa [List.map_id] at hread
  refine (Takes.string hname).bind ((Takes.pod hrank).bind (hmany.bind ?_))
  exact (Takes.pod (by decide)).bind ((Takes.pod ho).ret rfl)

theorem infos_takes {tensors : List GgufTensorData} (hname : ∀ t ∈ tensors, ByteText t.name.toList)
    (hdims : ∀ t ∈ tensors, ∀ d ∈ t.dims, d < 2 ^ 64) (hrank : ∀ t ∈ tensors, t.dims.length < 2 ^ 32) {offset : Nat}
    (ho : offset < 2 ^ 64) :
    Takes (many readTensorInfo tensors.length) (writeInfos offset tensors) (infosAt offset tensors) := by
  induction tensors generalizing offset with
  | nil => exact Takes.pure []
  | cons t ts ih =>
    rw [List.forall_mem_cons] at hname hdims hrank
    have hnext : wrap64 (offset + wrap64 (t.data.length * 4)) < 2 ^ 64 := Nat.mod_lt _ (by decide)
    exact (info_takes hname.1 hdims.1 hrank.1 ho).bind ((ih hname.2 hdims.2 hrank.2 hnext).ret rfl)

theorem infosAt_dims (offset : Nat) (ts : List GgufTensorData) :
    (infosAt offset ts).map (fun i => (i.name, i.dims)) = ts.map fun t => (t.name, t.dims) := by
  induction ts generalizing offset with
  | nil => rfl
  | cons t ts ih => rw [infosAt, List.map_cons, List.map_cons, ih]

theorem writeInfos_length (offset : Nat) (ts : List GgufTensorData) : 24 * ts.length ≤ (writeInfos offset ts).length := by
  induction ts generalizing offset with
  | nil => simp
  | cons t ts ih =>
    have hts := ih (wrap64 (offset + wrap64 (t.data.length * 4)))
    rw [writeInfos, List.length_append, List.length_cons, writeInfo, writeString]
    simp only [List.length_append, leBytes_length]
    omega

theorem kv_length (kv : List (String × GgufValue)) : kv.length ≤ (kv.flatMap writeKv).length := by
  have hlen := Lists.mul_length_le_flatMap (f := writeKv) (c := 1) (d := 1) (l := kv) fun e _ => by
    rw [writeKv, List.length_append, writeString, List.length_append, leBytes_length]
    omega
  omega

/-- Keys are inserted once. -/
theorem emplaceKv_new {kv acc : List (String × GgufValue)} (h : ((acc ++ kv).map (·.1)).Nodup) :
    kv.foldl emplaceKv acc = acc ++ kv := by
  induction kv generalizing acc with
  | nil => rw [List.append_nil]; rfl
  | cons e kv ih =>
    have hnew : acc.any (·.1 == e.1) = false := by
      rw [List.any_eq_false]
      intro d hd hkey
      rw [List.map_append, List.nodup_append] at h
      exact h.2.2 d.1 (List.mem_map_of_mem hd) e.1 (List.mem_map_of_mem List.mem_cons_self) (beq_iff_eq.mp hkey)
    have hstep : emplaceKv acc e = acc ++ [e] := by rw [emplaceKv, hnew, if_neg Bool.false_ne_true]
    rw [List.append_cons] at h ⊢
    rw [List.foldl_cons, hstep, ih h]

end Infos

/-! ## The header -/

section Header

open Reading

variable {kv : List (String × GgufValue)} {tensors : List GgufTensorData} {fs : FileSystem} {path : String}

/-- The header that is read. -/
def headerBack (kv : List (String × GgufValue)) (tensors : List GgufTensorData) (path : String) : GgufHeader :=
  ⟨⟨infosAt 0 tensors, (ggufHead kv tensors).length + (padTo32 (ggufHead kv tensors).length).length, path⟩, 3,
    kv.map fun e => (e.1, e.2.readBack)⟩

theorem padTo32_length (size : Nat) : size + (padTo32 size).length = (size + 31) / 32 * 32 := by
  rw [padTo32, List.length_replicate]
  omega

theorem ggufWriteF32_length : (ggufWriteF32 kv tensors).length =
    (ggufHead kv tensors).length + (padTo32 (ggufHead kv tensors).length).length + (ggufData tensors).length := by
  rw [ggufWriteF32, List.length_append, List.length_append]
  omega

/-- What stands after the magic number. -/
def ggufFields (kv : List (String × GgufValue)) (tensors : List GgufTensorData) : List UInt8 :=
  leBytes 4 3 ++ (leBytes 8 tensors.length ++ (leBytes 8 kv.length ++ (kv.flatMap writeKv ++ writeInfos 0 tensors)))

def readFields (fuel : Nat) : Reading (Nat × List (String × GgufValue) × List GgufTensorInfo) := do
  let version ← pod 4
  let tensorCount ← pod 8
  let kvCount ← pod 8
  let entries ← many (readKv fuel) kvCount
  reserve tensorInfoSize tensorCount
  let tensors ← many readTensorInfo tensorCount
  pure (version, entries, tensors)

theorem readHeaderBody_fields (path : String) (fuel : Nat) : readHeaderBody path fuel =
    (bytes 4 >>= fun m =>
      if m ≠ magic then throw (.error .invalidArgument "not a GGUF file")
      else readFields fuel >>= fun f => get >>= fun r =>
        pure ⟨⟨f.2.2, wrap64 (r.pos + 31) / 32 * 32, path⟩, f.1, f.2.1.foldl emplaceKv []⟩) := by
  simp only [readHeaderBody, readFields, bind_assoc, pure_bind]

theorem fields_takes (h : GgufWritable kv tensors) (hrank : ∀ t ∈ tensors, t.dims.length < 2 ^ 32) (fuel : Nat) :
    Takes (readFields (fuel + 1)) (ggufFields kv tensors)
      (3, kv.map (fun e => (e.1, e.2.readBack)), infosAt 0 tensors) := by
  refine Takes.of_short fun hshort => ?_
  have hinfos := writeInfos_length 0 tensors
  have hkv := kv_length kv
  simp only [ggufFields, List.length_append, leBytes_length] at hshort
  have hentries : Takes (many (readKv (fuel + 1)) kv.length) (kv.flatMap writeKv) (kv.map fun e => (e.1, e.2.readBack)) :=
    Takes.many fun e he => kv_takes (h.kvBytes e he).1 (h.kvBytes e he).2
  have htensors : Takes (many readTensorInfo tensors.length) (writeInfos 0 tensors) (infosAt 0 tensors) :=
    infos_takes h.nameBytes h.dims hrank (by decide)
  refine (Takes.pod (by decide)).bind ((Takes.pod (by omega)).bind ((Takes.pod (by omega)).bind (hentries.bind ?_)))
  exact Takes.reserve (by decide) (by rw [tensorInfoSize]; omega) (htensors.ret rfl)

theorem header_read (h : GgufWritable kv tensors) (hrank : ∀ t ∈ tensors, t.dims.length < 2 ^ 32)
    (hfs : fs path = some (ggufWriteF32 kv tensors)) : ggufReadHeader fs path = .ok (headerBack kv tensors path) := by
  have hsize := h.size
  rw [ggufWriteF32_length] at hsize
  have hhead : (ByteReader.mk (ggufWriteF32 kv tensors) 0).At (magic ++ ggufFields kv tensors) :=
    ⟨Nat.zero_le _, List.prefix_append _ _, h.size⟩
  have hmagic : Takes (bytes 4) magic magic := Takes.bytes magic
  have hfields := fields_takes h hrank (ggufWriteF32 kv tensors).length
  have hkeys : ((([] : List (String × GgufValue)) ++ kv.map fun e => (e.1, e.2.readBack)).map (·.1)).Nodup := by
    rw [List.nil_append, List.map_map]
    exact h.keys
  have hpos : 0 + magic.length + (ggufFields kv tensors).length = (ggufHead kv tensors).length := by
    rw [Nat.zero_add, ← List.length_append]
    rfl
  have hrun : (readHeaderBody path ((ggufWriteF32 kv tensors).length + 1)).run ⟨ggufWriteF32 kv tensors, 0⟩ =
      .ok (headerBack kv tensors path, ⟨ggufWriteF32 kv tensors, (ggufHead kv tensors).length⟩) := by
    rw [readHeaderBody_fields, hmagic.step hhead, if_neg (by simp), StateT.run_bind, hfields _ hhead.rest]
    show Except.ok (GgufHeader.mk ⟨_, wrap64 (0 + magic.length + (ggufFields kv tensors).length + 31) / 32 * 32, path⟩ _ _,
      ByteReader.mk _ (0 + magic.length + (ggufFields kv tensors).length)) = _
    rw [emplaceKv_new hkeys, hpos, wrap64_of_lt (by omega), headerBack, padTo32_length]
    rfl
  simp only [ggufReadHeader, ByteReader.fromFile, hfs, ok_bind, hrun]

/-- A header that was read has no tensor of 2^32 dimensions. -/
theorem header_ranks {file : GgufHeader} (h : ggufReadHeader fs path = .ok file) :
    ∀ i ∈ file.tensors, i.dims.length < 2 ^ 32 := by
  obtain ⟨r, -, h⟩ := bind_ok h
  obtain ⟨⟨file', r'⟩, hbody, h⟩ := bind_ok h
  obtain rfl := Except.ok.inj h
  have hinfo : Gives readTensorInfo fun i => i.dims.length < 2 ^ 32 := by
    refine (Gives.any _).bind fun name _ => (Gives.pod 4).bind fun nDims hn => ?_
    refine (Gives.many (Gives.any (pod 8)) nDims).bind fun dims hdims => ?_
    exact (Gives.any _).bind fun typ _ => (Gives.any _).bind fun offset _ => Gives.pure (by rw [hdims.1]; exact hn)
  have hfields : ∀ fuel, Gives (readFields fuel) fun f => ∀ i ∈ f.2.2, i.dims.length < 2 ^ 32 := by
    intro fuel
    refine (Gives.any _).bind fun version _ => (Gives.any _).bind fun tensorCount _ => (Gives.any _).bind fun kvCount _ => ?_
    refine (Gives.any _).bind fun entries _ => (Gives.any _).bind fun _ _ => ?_
    exact (Gives.many hinfo tensorCount).bind fun tensors ht => Gives.pure ht.2
  have hheader : Gives (readHeaderBody path (r.data.length + 1)) fun file => ∀ i ∈ file.tensors, i.dims.length < 2 ^ 32 := by
    rw [readHeaderBody_fields]
    refine (Gives.any _).bind fun m _ => ?_
    split
    · exact Gives.throw _
    · exact (hfields _).bind fun f hf => (Gives.any _).bind fun r _ => Gives.pure hf
  exact hheader _ _ _ hbody

end Header

/-! ## Tensors -/

section Words

open Uaii.Quant

def valuesBytes (data : List UInt32) : List UInt8 := data.flatMap fun x => leBytes 4 x.toNat

theorem valuesBytes_length (data : List UInt32) : (valuesBytes data).length = 4 * data.length := by
  induction data with
  | nil => rfl
  | cons x data ih =>
    have hcons : valuesBytes (x :: data) = leBytes 4 x.toNat ++ valuesBytes data := rfl
    rw [hcons, List.length_append, leBytes_length, ih, List.length_cons]
    omega

theorem u16At_toNat (b : List UInt8) (i : Nat) : (u16At b i).toNat = (byteAt b i).toNat + 256 * (byteAt b (i + 1)).toNat := by
  have hlow := (byteAt b i).toNat_lt
  have hhigh := (byteAt b (i + 1)).toNat_lt
  rw [u16At, UInt16.toNat_or, UInt16.toNat_shiftLeft, UInt8.toNat_toUInt16, UInt8.toNat_toUInt16]
  have hshift : (byteAt b (i + 1)).toNat <<< ((8 : UInt16).toNat % 16) % 2 ^ 16 = 2 ^ 8 * (byteAt b (i + 1)).toNat := by
    rw [show (8 : UInt16).toNat % 16 = 8 from rfl, Nat.shiftLeft_eq]
    omega
  rw [hshift, Nat.or_comm, ← Nat.two_pow_add_eq_or_of_lt (by omega)]
  omega

theorem u32At_toNat (b : List UInt8) (i : Nat) :
    (u32At b i).toNat = (u16At b i).toNat + 65536 * (u16At b (i + 2)).toNat := by
  have hlow := (u16At b i).toNat_lt
  have hhigh := (u16At b (i + 2)).toNat_lt
  rw [u32At, UInt32.toNat_or, UInt32.toNat_shiftLeft, UInt16.toNat_toUInt32, UInt16.toNat_toUInt32]
  have hshift : (u16At b (i + 2)).toNat <<< ((16 : UInt32).toNat % 32) % 2 ^ 32 = 2 ^ 16 * (u16At b (i + 2)).toNat := by
    rw [show (16 : UInt32).toNat % 32 = 16 from rfl, Nat.shiftLeft_eq]
    omega
  rw [hshift, Nat.or_comm, ← Nat.two_pow_add_eq_or_of_lt (by omega)]
  omega

theorem valuesBytes_append (xs ys : List UInt32) : valuesBytes (xs ++ ys) = valuesBytes xs ++ valuesBytes ys := List.flatMap_append

theorem u32At_word (x : UInt32) (rest : List UInt8) : u32At (leBytes 4 x.toNat ++ rest) 0 = x := by
  have hx := x.toNat_lt
  apply UInt32.toNat_inj.mp
  rw [u32At_toNat, u16At_toNat, u16At_toNat]
  simp only [leBytes, byteAt, List.cons_append, List.getD_cons_zero, List.getD_cons_succ, UInt8.toNat_ofNat']
  omega

/-- The words of the bytes. -/
theorem words_read (data : List UInt32) : (List.range data.length).map (fun i => u32At (valuesBytes data) (4 * i)) = data := by
  induction data with
  | nil => rfl
  | cons x data ih =>
    have hcons : valuesBytes (x :: data) = leBytes 4 x.toNat ++ valuesBytes data := rfl
    have htail : valuesBytes data = (valuesBytes (x :: data)).drop 4 := by rw [hcons, List.drop_left' (leBytes_length _ _)]
    rw [htail] at ih
    simp only [u32At_drop] at ih
    rw [List.length_cons, List.range_succ_eq_map, List.map_cons, List.map_map, hcons, u32At_word]
    congr 1
    rw [← hcons]
    exact (List.map_congr_left fun i _ => by rw [Function.comp_apply, Nat.succ_eq_add_one, Nat.mul_add, Nat.add_comm]).trans ih

end Words

section Load

open Uaii.Quant

variable {kv : List (String × GgufValue)} {tensors : List GgufTensorData} {fs : FileSystem} {path name : String}

theorem numelOf_eq (dims : List Nat) : numelOf dims = wrap64 dims.prod := by
  have hfold := Lists.foldl_mul_mod (2 ^ 64) dims 1
  rwa [Nat.one_mul] at hfold

/-- Where a tensor's values are in the file. -/
theorem infosAt_find {key : String} {u : GgufTensorData} (offset : Nat) (hsize : offset + (ggufData tensors).length < 2 ^ 61)
    (hfind : tensors.find? (·.name == key) = some u) :
    ∃ before after, ggufData tensors = before ++ (valuesBytes u.data ++ after) ∧
      (infosAt offset tensors).find? (·.name == key) = some ⟨u.name, u.dims, .f32, offset + before.length⟩ := by
  induction tensors generalizing offset with
  | nil => cases hfind
  | cons t ts ih =>
    have hdata : ggufData (t :: ts) = valuesBytes t.data ++ ggufData ts := rfl
    rw [hdata, List.length_append, valuesBytes_length] at hsize
    cases hkey : t.name == key with
    | true =>
      simp only [List.find?_cons, hkey, Option.some.injEq] at hfind
      subst hfind
      exact ⟨[], ggufData ts, hdata, by simp [infosAt, hkey]⟩
    | false =>
      simp only [List.find?_cons, hkey] at hfind
      have hnext : wrap64 (offset + wrap64 (t.data.length * 4)) = offset + 4 * t.data.length := by
        rw [wrap64_of_lt (n := t.data.length * 4) (by omega), wrap64_of_lt (by omega)]
        omega
      obtain ⟨before, after, hsplit, hinfo⟩ := ih (offset + 4 * t.data.length) (by omega) hfind
      refine ⟨valuesBytes t.data ++ before, after, by rw [hdata, hsplit, List.append_assoc], ?_⟩
      simp only [infosAt, List.find?_cons, hkey, hnext, hinfo, List.length_append, valuesBytes_length, Nat.add_assoc]

theorem infosAt_find_none {key : String} (offset : Nat) (hfind : tensors.find? (·.name == key) = none) :
    (infosAt offset tensors).find? (·.name == key) = none := by
  induction tensors generalizing offset with
  | nil => rfl
  | cons t ts ih =>
    cases hkey : t.name == key with
    | true =>
      simp only [List.find?_cons, hkey] at hfind
      cases hfind
    | false =>
      simp only [List.find?_cons, hkey] at hfind
      simp only [infosAt, List.find?_cons, hkey]
      exact ih _ hfind

/-- The values that a name leads to: its tensor's, or one expert's of them. -/
def leadsTo (tensors : List GgufTensorData) (name : String) : Option (List UInt32) :=
  let (key, expert) := parseExpertSlice name
  (tensors.find? (·.name == key)).bind fun u =>
    if expert < 0 then some u.data
    else
      let eCount := u.dims.getLast?.getD 0
      if u.dims.length < 3 ∨ (eCount : Int) ≤ expert then none
      else
        let n := u.data.length / eCount
        some ((u.data.drop (expert.toNat * n)).take n)

/-- Values stand behind the header, the padding and the values before them. -/
theorem values_ahead (path : String) (h : GgufWritable kv tensors) {before after : List UInt8} {front part back : List UInt32}
    (hdata : ggufData tensors = before ++ (valuesBytes (front ++ (part ++ back)) ++ after)) :
    (ByteReader.mk (ggufWriteF32 kv tensors)
      ((headerBack kv tensors path).dataOffset + before.length + 4 * front.length)).At (valuesBytes part) := by
  have hfile : ggufWriteF32 kv tensors = (ggufHead kv tensors ++ (padTo32 (ggufHead kv tensors).length ++
      (before ++ valuesBytes front))) ++ (valuesBytes part ++ (valuesBytes back ++ after)) := by
    simp only [ggufWriteF32, hdata, valuesBytes_append, List.append_assoc]
  have hpos : (headerBack kv tensors path).dataOffset + before.length + 4 * front.length =
      (ggufHead kv tensors ++ (padTo32 (ggufHead kv tensors).length ++ (before ++ valuesBytes front))).length := by
    simp only [headerBack, List.length_append, valuesBytes_length]
    omega
  refine ⟨?_, ?_, h.size⟩
  · simp only [hfile, hpos, List.length_append]
    omega
  · simp only [hfile, hpos, List.drop_left]
    exact List.prefix_append _ _

variable {K : Type} [Ring K] (F : FloatBits K)

/-- A slice of the written file. -/
theorem load_slice (h : GgufWritable kv tensors) (hfs : fs path = some (ggufWriteF32 kv tensors)) {s : TensorSlice}
    (hs : resolveSlice "GGUF tensor not found: " (headerBack kv tensors path).toGgufFile name = .ok s) (htype : s.info.type = .f32)
    {before after : List UInt8} {front part back : List UInt32}
    (hdata : ggufData tensors = before ++ (valuesBytes (front ++ (part ++ back)) ++ after))
    (hoffset : s.info.offset = before.length) (hfront : s.eIdx * s.n = front.length) (hpart : s.n = part.length) :
    ggufLoadTensorF32 F fs (headerBack kv tensors path).toGgufFile name = .ok (part.map F.f32, s.shape) := by
  have hsize := h.size
  rw [ggufWriteF32_length, hdata] at hsize
  simp only [List.length_append, valuesBytes_length] at hsize
  have hbefore : s.packedBefore = 4 * front.length := by
    have hqf : s.qf = .f32 := by rw [TensorSlice.qf, htype]; rfl
    rw [TensorSlice.packedBefore, hqf, htype, packedNbytes, ggufTypeNbytesPerElem, hfront]
    rw [wrap64_of_lt (n := front.length) (by omega), wrap64_of_lt (by omega), ite_self, Nat.mul_comm]
  have hstart : s.start (headerBack kv tensors path).toGgufFile =
      (headerBack kv tensors path).dataOffset + before.length + 4 * front.length := by
    rw [TensorSlice.start, hoffset, hbefore]
    exact wrap64_of_lt (by simp only [headerBack]; omega)
  have hread := (values_ahead path h hdata).read
  rw [valuesBytes_length] at hread
  have hbytes : wrap64 (part.length * 4) = 4 * part.length := by rw [wrap64_of_lt (by omega), Nat.mul_comm]
  have hfits : ¬ part.length > maxFloats := by
    unfold maxFloats
    omega
  have hwords := congrArg (List.map F.f32) (words_read part)
  rw [List.map_map] at hwords
  simp only [ggufLoadTensorF32, hs, ok_bind, ByteReader.fromFile, show fs (headerBack kv tensors path).path = _ from hfs, hpart,
    if_neg hfits, htype, hbytes, ByteReader.seek, hstart, hread]
  exact congrArg (fun xs => Except.ok (xs, s.shape)) hwords

/-- What a name is resolved to in the header that was read. -/
theorem resolve_leads (h : GgufWritable kv tensors) (path name : String) :
    (leadsTo tensors name = none ∧
      ∃ e, resolveSlice "GGUF tensor not found: " (headerBack kv tensors path).toGgufFile name = .error e) ∨
    ∃ (s : TensorSlice) (before after : List UInt8) (front part back : List UInt32),
      leadsTo tensors name = some part ∧
      resolveSlice "GGUF tensor not found: " (headerBack kv tensors path).toGgufFile name = .ok s ∧ s.info.type = .f32 ∧
      ggufData tensors = before ++ (valuesBytes (front ++ (part ++ back)) ++ after) ∧ s.info.offset = before.length ∧
      s.eIdx * s.n = front.length ∧ s.n = part.length := by
  have hsize := h.size
  rw [ggufWriteF32_length] at hsize
  rcases hparse : parseExpertSlice name with ⟨key, expert⟩
  simp only [leadsTo, resolveSlice, hparse, headerBack]
  cases hfind : tensors.find? (·.name == key) with
  | none =>
    rw [infosAt_find_none 0 hfind]
    exact .inl ⟨rfl, _, rfl⟩
  | some u =>
    obtain ⟨before, after, hdata, hinfo⟩ := infosAt_find 0 (by omega) hfind
    have hlen := congrArg List.length hdata
    simp only [List.length_append, valuesBytes_length] at hlen
    have hproduct := h.product u (List.mem_of_find?_eq_some hfind)
    have hnumel : numelOf u.dims = u.data.length := by rw [numelOf_eq, hproduct, wrap64_of_lt (by omega)]
    rw [Nat.zero_add] at hinfo
    simp only [hinfo, Option.bind_some]
    by_cases hneg : expert < 0
    · rw [if_pos hneg, if_pos hneg]
      exact .inr ⟨_, before, after, [], u.data, [], rfl, rfl, rfl, by rw [List.append_nil]; exact hdata, rfl, Nat.zero_mul _, hnumel⟩
    · rw [if_neg hneg, if_neg hneg]
      by_cases hrank : u.dims.length < 3
      · rw [if_pos (.inl hrank), if_pos hrank]
        exact .inl ⟨rfl, _, rfl⟩
      · rw [if_neg hrank]
        -- the bank's last dimension counts its experts, and divides its elements
        have hdvd : u.dims.getLast?.getD 0 ∣ u.data.length := by
          rw [← hproduct]
          cases hlast : u.dims.getLast? with
          | none => rw [List.getLast?_eq_none_iff.mp hlast] at hrank; exact absurd (by decide) hrank
          | some d => exact List.dvd_prod (List.mem_of_getLast? hlast)
        generalize u.dims.getLast?.getD 0 = eCount at hdvd ⊢
        by_cases hcount : (eCount : Int) ≤ expert
        · rw [if_pos (.inr hcount), if_pos (.inr (.inr hcount))]
          exact .inl ⟨rfl, _, rfl⟩
        · have hin : expert.toNat * (u.data.length / eCount) + u.data.length / eCount ≤ u.data.length := by
            rw [← Nat.succ_mul]
            exact (Nat.mul_le_mul_right _ (show expert.toNat + 1 ≤ eCount by omega)).trans (Nat.mul_div_le _ _)
          have hmod := Nat.mod_eq_zero_of_dvd hdvd
          rw [hnumel, if_neg (by omega), if_neg (by omega)]
          generalize u.data.length / eCount = n at hin ⊢
          refine .inr ⟨_, before, after, u.data.take (expert.toNat * n), _, (u.data.drop (expert.toNat * n)).drop n,
            rfl, rfl, rfl, ?_, rfl, ?_, ?_⟩
          · rw [List.take_append_drop, List.take_append_drop]
            exact hdata
          · rw [List.length_take, Nat.min_eq_left (by omega)]
          · rw [List.length_take, List.length_drop, Nat.min_eq_left (by omega)]

/-- Loading under a name gives the values that it leads to. -/
theorem load_leads (h : GgufWritable kv tensors) (hfs : fs path = some (ggufWriteF32 kv tensors)) (ys : List K) :
    (ggufLoadTensorF32 F fs (headerBack kv tensors path).toGgufFile name).map Prod.fst = .ok ys ↔
      ∃ xs, leadsTo tensors name = some xs ∧ xs.map F.f32 = ys := by
  rcases resolve_leads h path name with ⟨hnone, e, he⟩ | ⟨s, before, after, front, part, back, hpart, hs, htype, hdata, ho, hf, hn⟩
  · simp [ggufLoadTensorF32, he, hnone, Except.map]
  · rw [load_slice F h hfs hs htype hdata ho hf hn]
    simp [hpart, Except.map]

end Load

/-! ## The round trip -/

/-- Written, read and loaded, everything is as it was. -/
def GgufRoundTrips (kv : List (String × GgufValue)) (tensors : List GgufTensorData) : Prop :=
  ∀ fs path, fs path = some (ggufWriteF32 kv tensors) →
    ∃ file, ggufReadHeader fs path = .ok file ∧ file.kv.Perm kv ∧
      file.tensors.map (fun i => (i.name, i.dims)) = tensors.map (fun t => (t.name, t.dims)) ∧
      ∀ (K : Type) [Ring K] (F : Quant.FloatBits K), ∀ t ∈ tensors,
        (ggufLoadTensorF32 F fs file.toGgufFile t.name).map Prod.fst = .ok (t.data.map F.f32)

/-- The condition: values of the alternatives that are written, ranks that fit their field,
    and names that lead to their own values. -/
structure GgufKept (kv : List (String × GgufValue)) (tensors : List GgufTensorData) : Prop where
  written : ∀ e ∈ kv, e.2.written = true
  ranks : ∀ t ∈ tensors, t.dims.length < 2 ^ 32
  leads : ∀ t ∈ tensors, leadsTo tensors t.name = some t.data

section RoundTrip

variable {kv : List (String × GgufValue)} {tensors : List GgufTensorData}

/-- Bit patterns as numbers, which tells them apart. -/
def patterns : Quant.FloatBits Int where
  f16 b := b.toNat
  f32 b := b.toNat

theorem patterns_inj {xs ys : List UInt32} (h : xs.map patterns.f32 = ys.map patterns.f32) : xs = ys := by
  refine List.map_injective_iff.mpr (fun x y hxy => ?_) h
  exact UInt32.toNat_inj.mp (Int.ofNat_inj.mp hxy)

/-- Distinct names without a suffix lead to their own values. -/
theorem plain_names_lead (hnames : (tensors.map (·.name)).Nodup) (hplain : ∀ t ∈ tensors, findSlice t.name.toList = none) :
    ∀ t ∈ tensors, leadsTo tensors t.name = some t.data := by
  intro t ht
  have hfind := Lists.find?_of_nodup hnames ht
  simp [leadsTo, parseExpertSlice, hplain t ht, hfind]

theorem kept_of_gguf_round_trips (h : GgufWritable kv tensors) (hround : GgufRoundTrips kv tensors) : GgufKept kv tensors := by
  have hpath : (fun _ => some (ggufWriteF32 kv tensors) : FileSystem) "" = some (ggufWriteF32 kv tensors) := rfl
  obtain ⟨file, hfile, hkv, hdims, hload⟩ := hround (fun _ => some (ggufWriteF32 kv tensors)) "" hpath
  have hranks : ∀ t ∈ tensors, t.dims.length < 2 ^ 32 := by
    intro t ht
    have hmem : (t.name, t.dims) ∈ file.tensors.map fun i => (i.name, i.dims) := by
      rw [hdims]
      exact List.mem_map_of_mem ht
    obtain ⟨i, hi, hsame⟩ := List.mem_map.mp hmem
    rw [← (Prod.mk.inj hsame).2]
    exact header_ranks hfile i hi
  obtain rfl := Except.ok.inj ((header_read h hranks hpath).symm.trans hfile)
  refine ⟨fun e he => ?_, hranks, fun t ht => ?_⟩
  · have hmem : (e.1, e.2.readBack) ∈ kv := hkv.mem_iff.mp (List.mem_map_of_mem he)
    have hsame := List.inj_on_of_nodup_map h.keys hmem he rfl
    exact readBack_eq_iff.mp (congrArg Prod.snd hsame)
  · obtain ⟨xs, hxs, hsame⟩ := (load_leads patterns h hpath _).mp (hload Int patterns t ht)
    rw [hxs, patterns_inj hsame]

theorem gguf_round_trips_of_kept (h : GgufWritable kv tensors) (hkept : GgufKept kv tensors) : GgufRoundTrips kv tensors := by
  intro fs path hfs
  refine ⟨_, header_read h hkept.ranks hfs, ?_, infosAt_dims 0 tensors, fun K _ F t ht => ?_⟩
  · have hself : kv.map (fun e => (e.1, e.2.readBack)) = kv.map id :=
      List.map_congr_left fun e he => by rw [readBack_eq_iff.mpr (hkept.written e he)]; rfl
    show (kv.map fun e => (e.1, e.2.readBack)).Perm kv
    rw [hself, List.map_id]
  · exact (load_leads F h hfs _).mpr ⟨t.data, hkept.leads t ht, rfl⟩

/-- The round trip keeps what it is given exactly when nothing that it drops occurs. -/
theorem gguf_round_trip_iff (kv : List (String × GgufValue)) (tensors : List GgufTensorData) (h : GgufWritable kv tensors) :
    GgufRoundTrips kv tensors ↔ GgufKept kv tensors :=
  ⟨kept_of_gguf_round_trips h, gguf_round_trips_of_kept h⟩

end RoundTrip

/-- One value under a key, and two tensors. -/
def oneKv (v : GgufValue) : List (String × GgufValue) := [("k", v)]

def twoTensors : List GgufTensorData := [⟨"w", [1, 2], [0x3F800000, 7]⟩, ⟨"b", [1], [0]⟩]

theorem oneKv_writable {v : GgufValue} (hv : v.ByteStrings) (hsize : (writeKv ("k", v)).length < 2 ^ 60) :
    GgufWritable (oneKv v) twoTensors := by
  refine ⟨List.nodup_singleton _, ?_, by decide, by decide, by decide, ?_⟩
  · intro e he
    rw [List.mem_singleton.mp he]
    exact ⟨show ByteText "k".toList by decide, hv⟩
  · have hlen : (ggufHead (oneKv v) twoTensors).length = (writeKv ("k", v)).length + (ggufHead [] twoTensors).length := by
      simp only [ggufHead, oneKv, List.length_append, leBytes_length, List.flatMap_cons, List.flatMap_nil, List.length_nil]
      omega
    have hfixed : (ggufHead [] twoTensors).length + (ggufData twoTensors).length < 2 ^ 10 := by decide
    have hpad := padTo32_length (ggufHead (oneKv v) twoTensors).length
    rw [ggufWriteF32_length, hpad, hlen]
    omega

theorem two_tensors_round_trip : GgufRoundTrips (oneKv (.strings ["a", "b"])) twoTensors := by
  have hwritable := oneKv_writable (v := .strings ["a", "b"]) (show ∀ s ∈ ["a", "b"], ByteText s.toList by decide) (by decide)
  exact (gguf_round_trip_iff _ _ hwritable).mpr ⟨by decide, by decide, by decide⟩

/-- What is read back is an empty string. -/
theorem int64_lost : GgufWritable (oneKv (.int64 1)) twoTensors ∧ ¬ GgufRoundTrips (oneKv (.int64 1)) twoTensors := by
  have hwritable := oneKv_writable (v := .int64 1) trivial (by decide)
  refine ⟨hwritable, fun hround => ?_⟩
  have hkept := kept_of_gguf_round_trips hwritable hround
  exact absurd (hkept.written _ (List.mem_singleton_self _)) (by decide)

end Uaii.Loaders
