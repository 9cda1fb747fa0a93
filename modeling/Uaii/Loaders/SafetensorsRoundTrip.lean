/-
  Uaii.Loaders.SafetensorsRoundTrip — `safetensors_write`, then `safetensors_read_header`
  and `safetensors_load_tensor_f32` of each tensor.

  The header is read back as it was written, its integers rounded to doubles
  (`header_parses`), and a tensor's range in the file holds its values (`plan_slices`).

  Proved: names, shapes, values and metadata come back exactly when no dimension is
  negative or rounded and no `F16` value is a subnormal half (`safetensors_round_trip_iff`). The
  smallest half is lost (`smallest_half_lost`).
-/

import Uaii.Loaders.HalfFloat

namespace Uaii.Loaders

open Codec (leBytes leValue leBytes_length leValue_leBytes textOf bytesOf ByteText textOf_bytesOf)
open MiniJson (Value Entry Spells findField quoted field commas arrayText objectText jsonEscape array_spells object_spells
  string_spells number_spells)
open TextStream (integer decimal)
open Uaii.Ir (castI64 castUnsigned castI64_int castUnsigned_int)
open Uaii.Ir.Json (toDouble toDouble_int stod_int stod_i64)
open Binary

/-! ## What is written -/

/-- What `safetensors_write` is given: two maps, each in the order in which it is walked. -/
structure Checkpoint where
  tensors : List NamedTensor
  metadata : List (String × String)
  names : (tensors.map (·.name)).Nodup
  keys : (metadata.map (·.1)).Nodup
  nameBytes : ∀ t ∈ tensors, ByteText t.name.toList
  metadataBytes : ∀ m ∈ metadata, ByteText m.1.toList ∧ ByteText m.2.toList
  dims : ∀ t ∈ tensors, ∀ d ∈ t.shape, -2 ^ 63 ≤ d ∧ d < 2 ^ 63

def elemBytes (dt : String) : Nat := if dt = "F32" then 4 else 2

/-- The bytes of the tensors. -/
def bodySize (dt : String) (ts : List NamedTensor) : Nat := (ts.map fun t => t.data.length * elemBytes dt).sum

/-- The dtype holds the value. -/
def Exact (dt : String) (x : UInt32) : Prop :=
  dt = "F32" ∨ (dt = "F16" ∧ Representable binary16 x) ∨ (dt = "BF16" ∧ Representable bfloat16 x)

/-- What the round trip asks for. The file is a vector of bytes. -/
structure Writable (c : Checkpoint) (dtype : String) : Prop where
  supported : upper dtype = "F32" ∨ upper dtype = "F16" ∨ upper dtype = "BF16"
  names : ∀ t ∈ c.tensors, t.name ≠ "__metadata__"
  product : ∀ t ∈ c.tensors, t.shape.prod = t.data.length
  exact : ∀ t ∈ c.tensors, ∀ x ∈ t.data, Exact (upper dtype) x
  offsets : bodySize (upper dtype) c.tensors < 2 ^ 53
  size : 8 + (headerText (upper dtype) c.metadata (planTensors (elemBytes (upper dtype)) 0 c.tensors)).length < 2 ^ 62

/-- Written, read and loaded, everything is as it was. -/
def RoundTrips (order : MapOrder) (c : Checkpoint) (dtype : String) : Prop :=
  ∃ bytes, safetensorsWrite c.tensors dtype c.metadata = .ok bytes ∧ ∀ fs path, fs path = some bytes →
    ∃ file, safetensorsReadHeader order fs path = .ok file ∧ file.metadata.Perm c.metadata ∧
      ∀ t ∈ c.tensors, safetensorsLoadTensorF32 fs file t.name = .ok (t.data, t.shape)

/-! ## The header as a text -/

section Bytes

variable {t : List Char}

theorem byteText_escape (h : ByteText t) : ByteText (jsonEscape t) := by
  intro c hc
  obtain ⟨d, hd, hc⟩ := List.mem_flatMap.mp hc
  have hlt := h d hd
  split at hc
  · simp only [List.mem_cons, List.not_mem_nil, or_false] at hc
    rcases hc with rfl | rfl <;> decide
  · split at hc
    · simp only [List.mem_cons, List.not_mem_nil, or_false] at hc
      rcases hc with rfl | rfl <;> decide
    · rw [List.mem_singleton.mp hc]
      exact hlt

theorem byteText_quoted {s : String} (h : ByteText s.toList) : ByteText (MiniJson.quoted s) :=
  .cons (by decide) ((byteText_escape h).append (.cons (by decide) .nil))

theorem byteText_field {s : String} (hs : ByteText s.toList) (ht : ByteText t) : ByteText (MiniJson.field s t) :=
  (byteText_quoted hs).append (.cons (by decide) ht)

theorem byteText_commas {ts : List (List Char)} (h : ∀ t ∈ ts, ByteText t) : ByteText (MiniJson.commas ts) := by
  induction ts with
  | nil => exact .nil
  | cons t ts ih =>
    have ht := h t List.mem_cons_self
    have hts := ih fun u hu => h u (List.mem_cons_of_mem _ hu)
    cases ts with
    | nil => exact ht
    | cons u us => exact ht.append (.cons (by decide) hts)

theorem byteText_array {ts : List (List Char)} (h : ∀ t ∈ ts, ByteText t) : ByteText (arrayText ts) :=
  .cons (by decide) ((byteText_commas h).append (.cons (by decide) .nil))

theorem byteText_object {ts : List (List Char)} (h : ∀ t ∈ ts, ByteText t) : ByteText (objectText ts) :=
  .cons (by decide) ((byteText_commas h).append (.cons (by decide) .nil))

theorem byteText_decimal (n : Nat) : ByteText (TextStream.decimal n) := by
  intro c hc
  have hdigit : c.isDigit = true := Decimal.toDigits_isDigit hc
  have hcode : c.toNat ≤ 57 := (show 48 ≤ c.toNat ∧ c.toNat ≤ 57 by simpa [Char.isDigit, UInt32.le_iff_toNat_le] using hdigit).2
  omega

theorem byteText_integer (i : Int) : ByteText (TextStream.integer i) := by
  refine .append ?_ (byteText_decimal _)
  split
  · exact .cons (by decide) .nil
  · exact .nil

end Bytes

/-! ## The header as a value -/

def offsetsValue (p : Planned) : Value := .array [.number (toDouble (p.first : Int)), .number (toDouble (p.last : Int))]

def plannedFields (dt : String) (p : Planned) : List (String × Value) :=
  [("dtype", .string dt), ("shape", .array (p.tensor.shape.map fun d : Int => .number (toDouble d))), ("data_offsets", offsetsValue p)]

def metadataFields (metadata : List (String × String)) : List (String × Value) := metadata.map fun m => (m.1, .string m.2)

/-- The fields of the header. -/
def headerFields (dt : String) (metadata : List (String × String)) (planned : List Planned) : List (String × Value) :=
  (if metadata = [] then [] else [("__metadata__", .object (metadataFields metadata))]) ++
    planned.map fun p => (p.tensor.name, .object (plannedFields dt p))

section Header

variable {dt : String} {metadata : List (String × String)} {planned : List Planned}

theorem integer_spells {n : Int} (hn : |n| ≤ 2 ^ 63) : Spells (integer n) (.number (toDouble n)) := number_spells (stod_i64 hn)

theorem decimal_spells {n : Nat} (hn : n ≤ 2 ^ 63) : Spells (decimal n) (.number (toDouble (n : Int))) := by
  have hint : integer (n : Int) = decimal n := by simp [integer]
  rw [← hint]
  exact integer_spells (by rw [Nat.abs_cast]; exact_mod_cast hn)

theorem metadata_spells (hkeys : (metadata.map (·.1)).Nodup) :
    Spells (objectText (metadata.map fun m => field m.1 (quoted m.2))) (.object (metadataFields metadata)) := by
  have hobj := object_spells (metadata.map fun m => (m.1, quoted m.2, .string m.2)) (by simpa [Function.comp_def] using hkeys)
    (by
      intro e he
      obtain ⟨m, -, rfl⟩ := List.mem_map.mp he
      exact string_spells m.2)
  simpa [Function.comp_def, Entry.text, Entry.pair, metadataFields] using hobj

theorem planned_spells {p : Planned} (hdims : ∀ d ∈ p.tensor.shape, -2 ^ 63 ≤ d ∧ d < 2 ^ 63) (hfirst : p.first ≤ 2 ^ 63)
    (hlast : p.last ≤ 2 ^ 63) :
    Spells (objectText [field "dtype" (quoted dt), field "shape" (arrayText (p.tensor.shape.map integer)),
      field "data_offsets" (arrayText [decimal p.first, decimal p.last])]) (.object (plannedFields dt p)) := by
  have hshape : Spells (arrayText (p.tensor.shape.map integer)) (.array (p.tensor.shape.map fun d : Int => .number (toDouble d))) := by
    have harr := array_spells (p.tensor.shape.map fun d : Int => (integer d, .number (toDouble d))) (by
      intro tv htv
      obtain ⟨d, hd, rfl⟩ := List.mem_map.mp htv
      have hd := hdims d hd
      exact integer_spells (abs_le.mpr ⟨hd.1, hd.2.le⟩))
    simpa [Function.comp_def] using harr
  have hoffsets : Spells (arrayText [decimal p.first, decimal p.last]) (offsetsValue p) :=
    array_spells [(decimal p.first, .number (toDouble (p.first : Int))), (decimal p.last, .number (toDouble (p.last : Int)))]
      (by simpa using ⟨decimal_spells hfirst, decimal_spells hlast⟩)
  exact object_spells [("dtype", quoted dt, .string dt), ("shape", arrayText (p.tensor.shape.map integer), _),
    ("data_offsets", arrayText [decimal p.first, decimal p.last], offsetsValue p)] (by simp)
    (by simpa using ⟨string_spells dt, hshape, hoffsets⟩)

theorem headerFields_keys (dt : String) (metadata : List (String × String)) (hnames : (planned.map (·.tensor.name)).Nodup) (hmeta : ∀ p ∈ planned, p.tensor.name ≠ "__metadata__") :
    ((headerFields dt metadata planned).map (·.1)).Nodup := by
  rw [headerFields, List.map_append, List.map_map]
  refine List.nodup_append.mpr ⟨?_, hnames, ?_⟩
  · split <;> simp
  · intro key hkey name hname
    obtain ⟨p, hp, rfl⟩ := List.mem_map.mp hname
    have hkey : key = "__metadata__" := by
      split at hkey
      · cases hkey
      · simpa using hkey
    rw [hkey]
    exact (hmeta p hp).symm

/-- What `parse` makes of a header. -/
theorem header_parses (hkeys : (metadata.map (·.1)).Nodup) (hnames : (planned.map (·.tensor.name)).Nodup)
    (hmeta : ∀ p ∈ planned, p.tensor.name ≠ "__metadata__") (hdims : ∀ p ∈ planned, ∀ d ∈ p.tensor.shape, -2 ^ 63 ≤ d ∧ d < 2 ^ 63)
    (hoffsets : ∀ p ∈ planned, p.first ≤ 2 ^ 63 ∧ p.last ≤ 2 ^ 63) :
    MiniJson.parse (headerText dt metadata planned) = .ok (.object (headerFields dt metadata planned)) := by
  have hfields := headerFields_keys dt metadata hnames hmeta
  -- each entry with its text
  have hobj := object_spells ((if metadata = [] then [] else
      [("__metadata__", objectText (metadata.map fun m => field m.1 (quoted m.2)), .object (metadataFields metadata))]) ++
    planned.map fun p => (p.tensor.name, objectText [field "dtype" (quoted dt), field "shape" (arrayText (p.tensor.shape.map integer)),
      field "data_offsets" (arrayText [decimal p.first, decimal p.last])], .object (plannedFields dt p)))
    (by
      rw [headerFields] at hfields
      split <;> simp_all [Function.comp_def])
    (by
      intro e he
      rcases List.mem_append.mp he with he | he
      · split at he
        · cases he
        · rw [List.mem_singleton.mp he]
          exact metadata_spells hkeys
      · obtain ⟨p, hp, rfl⟩ := List.mem_map.mp he
        exact planned_spells (hdims p hp) (hoffsets p hp).1 (hoffsets p hp).2)
  have htext := hobj.parse
  have hplanned : plannedText dt = fun p => field p.tensor.name (objectText [field "dtype" (quoted dt),
    field "shape" (arrayText (p.tensor.shape.map integer)), field "data_offsets" (arrayText [decimal p.first, decimal p.last])]) := rfl
  unfold headerText headerFields
  rw [hplanned]
  by_cases hm : metadata = []
  · simpa [hm, Function.comp_def, Entry.text, Entry.pair] using htext
  · simpa [hm, Function.comp_def, Entry.text, Entry.pair, metadataText] using htext

theorem header_bytes (hmeta : ∀ m ∈ metadata, ByteText m.1.toList ∧ ByteText m.2.toList)
    (hnames : ∀ p ∈ planned, ByteText p.tensor.name.toList) (hdt : ByteText dt.toList) :
    ByteText (headerText dt metadata planned) := by
  have hlit : ByteText "__metadata__".toList ∧ ByteText "dtype".toList ∧ ByteText "shape".toList ∧
      ByteText "data_offsets".toList := by decide
  refine byteText_object fun t ht => ?_
  rcases List.mem_append.mp ht with ht | ht
  · split at ht
    · cases ht
    · rw [List.mem_singleton.mp ht]
      refine byteText_field hlit.1 (byteText_object fun u hu => ?_)
      obtain ⟨m, hm, rfl⟩ := List.mem_map.mp hu
      exact byteText_field (hmeta m hm).1 (byteText_quoted (hmeta m hm).2)
  · obtain ⟨p, hp, rfl⟩ := List.mem_map.mp ht
    refine byteText_field (hnames p hp) (byteText_object fun u hu => ?_)
    simp only [List.mem_cons, List.not_mem_nil, or_false] at hu
    rcases hu with rfl | rfl | rfl
    · exact byteText_field hlit.2.1 (byteText_quoted hdt)
    · refine byteText_field hlit.2.2.1 (byteText_array fun u hu => ?_)
      obtain ⟨d, -, rfl⟩ := List.mem_map.mp hu
      exact byteText_integer d
    · exact byteText_field hlit.2.2.2 (byteText_array (by simpa using ⟨byteText_decimal _, byteText_decimal _⟩))

end Header

/-! ## Where a tensor is -/

section Plan

variable {dt : String}

theorem planTensors_tensors (eb offset : Nat) (ts : List NamedTensor) : (planTensors eb offset ts).map (·.tensor) = ts := by
  induction ts generalizing offset with
  | nil => rfl
  | cons t ts ih => rw [planTensors, List.map_cons, ih]

theorem bodySize_cons (t : NamedTensor) (ts : List NamedTensor) :
    bodySize dt (t :: ts) = t.data.length * elemBytes dt + bodySize dt ts := by simp [bodySize]

/-- A tensor starts where those before it end. -/
theorem plan_slices {ts : List NamedTensor} : ∀ (offset : Nat), offset + bodySize dt ts < 2 ^ 63 →
    ∀ p ∈ planTensors (elemBytes dt) offset ts, ∃ pre post, ts = pre ++ p.tensor :: post ∧
      p.first = offset + bodySize dt pre ∧ p.last = p.first + p.tensor.data.length * elemBytes dt := by
  induction ts with
  | nil =>
    intro offset _ p hp
    cases hp
  | cons t ts ih =>
    intro offset hfits p hp
    rw [bodySize_cons] at hfits
    have hlast : wrap64 (offset + wrap64 (t.data.length * elemBytes dt)) = offset + t.data.length * elemBytes dt := by
      rw [wrap64_of_lt (n := t.data.length * elemBytes dt) (by omega), wrap64_of_lt (by omega)]
    rw [planTensors, hlast] at hp
    rcases List.mem_cons.mp hp with rfl | hp
    · exact ⟨[], ts, rfl, rfl, rfl⟩
    · obtain ⟨pre, post, rfl, hfirst, hlast⟩ := ih _ (by omega) p hp
      exact ⟨t :: pre, post, rfl, by rw [hfirst, bodySize_cons]; omega, hlast⟩

theorem bodySize_append (pre post : List NamedTensor) : bodySize dt (pre ++ post) = bodySize dt pre + bodySize dt post := by
  simp [bodySize]

theorem plan_bounds {ts : List NamedTensor} (hfits : bodySize dt ts < 2 ^ 63) {p : Planned}
    (hp : p ∈ planTensors (elemBytes dt) 0 ts) : p.first ≤ p.last ∧ p.last ≤ bodySize dt ts := by
  obtain ⟨pre, post, hts, hfirst, hlast⟩ := plan_slices 0 (by omega) p hp
  have hsum := congrArg (bodySize dt) hts
  rw [bodySize_append, bodySize_cons] at hsum
  omega

end Plan

/-! ## The header as a file's contents -/

section Entries

variable {order : MapOrder} {file file' : SafetensorsFile} {kvs : List (String × Value)}

theorem tensorInfo_name {name : String} {fields : List (String × Value)} {info : SafetensorsTensorInfo}
    (h : tensorInfo name fields = .ok info) : info.name = name := by
  unfold tensorInfo at h
  split at h
  · obtain ⟨dtype, -, h⟩ := bind_ok h
    obtain ⟨shape, -, h⟩ := bind_ok h
    obtain ⟨offsets, -, h⟩ := bind_ok h
    cases h
    rfl
  · exact absurd h (fail_ne_ok _ _ _)

/-- What `file'` has of the entries `kvs`, added to `file`. -/
structure Gathered (order : MapOrder) (kvs : List (String × Value)) (file file' : SafetensorsFile) : Prop where
  path : file'.path = file.path
  dataOffset : file'.dataOffset = file.dataOffset
  kept : ∀ info ∈ file.tensors, info ∈ file'.tensors
  found : ∀ name fields, (name, .object fields) ∈ kvs → name ≠ "__metadata__" →
    ∃ info ∈ file'.tensors, tensorInfo name fields = .ok info
  only : ∀ info ∈ file'.tensors, info ∈ file.tensors ∨
    ∃ fields, (info.name, .object fields) ∈ kvs ∧ tensorInfo info.name fields = .ok info
  noMetadata : (∀ fields, ("__metadata__", .object fields) ∉ kvs) → file'.metadata = file.metadata
  metadata : ∀ fields, ("__metadata__", .object fields) ∈ kvs → (∀ v, ("__metadata__", v) ∈ kvs → v = .object fields) →
    file'.metadata = (order.walk fields).filterMap metadataEntry

theorem Gathered.nil (file : SafetensorsFile) : Gathered order [] file file := ⟨rfl, rfl, by simp, by simp, by simp, by simp, by simp⟩

theorem addEntry_gathered {kv : String × Value} (h : addEntry order file kv = .ok file') : Gathered order [kv] file file' := by
  obtain ⟨name, v⟩ := kv
  unfold addEntry at h
  split at h
  · rename_i fields hv
    obtain rfl : v = .object fields := hv
    split at h
    · rename_i hname
      obtain rfl : name = "__metadata__" := hname
      cases h
      exact ⟨rfl, rfl, by simp, by simp, fun info hinfo => .inl hinfo, by simp, by simp⟩
    · rename_i hname
      obtain ⟨info, hinfo, h⟩ := bind_ok h
      cases h
      have hkey := tensorInfo_name hinfo
      have hname' : "__metadata__" ≠ name := fun he => hname he.symm
      refine ⟨rfl, rfl, by simp; tauto, ?_, ?_, by simp, by simp [hname']⟩
      · intro name' fields' hmem _
        obtain ⟨rfl, hv⟩ := Prod.mk.inj (List.mem_singleton.mp hmem)
        obtain rfl := Value.object.inj hv
        exact ⟨info, by simp, hinfo⟩
      · intro i hi
        rcases List.mem_append.mp hi with hi | hi
        · exact .inl hi
        · obtain rfl := List.mem_singleton.mp hi
          refine .inr ⟨fields, ?_, ?_⟩ <;> simp_all
  · rename_i hv
    cases h
    refine ⟨rfl, rfl, by simp, ?_, by simp; tauto, by simp, ?_⟩
    · intro name' fields' hmem
      exact absurd (Prod.mk.inj (List.mem_singleton.mp hmem)).2.symm (hv fields')
    · intro fields' hmem
      exact absurd (Prod.mk.inj (List.mem_singleton.mp hmem)).2.symm (hv fields')

theorem Gathered.cons {kv : String × Value} {mid : SafetensorsFile} (h : Gathered order [kv] file mid)
    (ht : Gathered order kvs mid file') : Gathered order (kv :: kvs) file file' where
  path := ht.path.trans h.path
  dataOffset := ht.dataOffset.trans h.dataOffset
  kept info hinfo := ht.kept info (h.kept info hinfo)
  found name fields hmem hname := by
    rcases List.mem_cons.mp hmem with rfl | hmem
    · obtain ⟨info, hinfo, hok⟩ := h.found name fields List.mem_cons_self hname
      exact ⟨info, ht.kept info hinfo, hok⟩
    · exact ht.found name fields hmem hname
  only info hinfo := by
    rcases ht.only info hinfo with hmid | ⟨fields, hmem, hok⟩
    · rcases h.only info hmid with hfile | ⟨fields, hmem, hok⟩
      · exact .inl hfile
      · exact .inr ⟨fields, List.mem_cons.mpr (.inl (List.mem_singleton.mp hmem)), hok⟩
    · exact .inr ⟨fields, List.mem_cons_of_mem _ hmem, hok⟩
  noMetadata hno := by
    rw [ht.noMetadata fun fields hmem => hno fields (List.mem_cons_of_mem _ hmem)]
    exact h.noMetadata fun fields hmem => hno fields (List.mem_cons.mpr (.inl (List.mem_singleton.mp hmem)))
  metadata fields hmem hone := by
    by_cases hrest : ("__metadata__", .object fields) ∈ kvs
    · exact ht.metadata fields hrest fun v hv => hone v (List.mem_cons_of_mem _ hv)
    · have hkv : ("__metadata__", .object fields) = kv := (List.mem_cons.mp hmem).resolve_right hrest
      rw [ht.noMetadata]
      · refine h.metadata fields (by rw [hkv]; exact List.mem_cons_self) fun v hv => hone v ?_
        exact List.mem_cons.mpr (.inl (List.mem_singleton.mp hv))
      · intro fields' hmem'
        have heq := hone _ (List.mem_cons_of_mem _ hmem')
        rw [heq] at hmem'
        exact hrest hmem'

/-- The loop over the header. -/
theorem addEntries_gathered : ∀ {kvs : List (String × Value)} {file : SafetensorsFile},
    kvs.foldlM (addEntry order) file = .ok file' → Gathered order kvs file file'
  | [], file, h => by
    cases h
    exact .nil _
  | kv :: kvs, file, h => by
    rw [List.foldlM_cons] at h
    obtain ⟨mid, hkv, hrest⟩ := bind_ok h
    exact (addEntry_gathered hkv).cons (addEntries_gathered hrest)

theorem addEntries_total (order : MapOrder) : ∀ {kvs : List (String × Value)} (file : SafetensorsFile),
    (∀ name fields, (name, .object fields) ∈ kvs → name ≠ "__metadata__" → ∃ info, tensorInfo name fields = .ok info) →
    ∃ file', kvs.foldlM (addEntry order) file = .ok file' := by
  intro kvs
  induction kvs with
  | nil => exact fun _ _ => ⟨_, rfl⟩
  | cons kv kvs ih =>
    intro file h
    obtain ⟨name, v⟩ := kv
    have hone : ∃ mid, addEntry order file (name, v) = .ok mid := by
      unfold addEntry
      split
      · rename_i fields hv
        split
        · exact ⟨_, rfl⟩
        · rename_i hname
          obtain ⟨info, hinfo⟩ := h name fields (by rw [← hv]; exact List.mem_cons_self) hname
          exact ⟨_, by rw [hinfo]; rfl⟩
      · exact ⟨_, rfl⟩
    obtain ⟨mid, hmid⟩ := hone
    obtain ⟨file', hfile⟩ := ih mid fun n fields hmem => h n fields (List.mem_cons_of_mem _ hmem)
    refine ⟨file', ?_⟩
    rw [List.foldlM_cons, hmid]
    exact hfile

end Entries

/-! ## A tensor's header entry -/

section Info

variable {dt : String} {p : Planned}

/-- A rounded dimension, cast, is itself only when it was not rounded. -/
theorem cast_toDouble {d k : Int} (hlo : -2 ^ 63 ≤ k) (hhi : k < 2 ^ 63) :
    castI64 (toDouble (d : ℚ)) = .ok k ↔ toDouble (d : ℚ) = (k : ℚ) := by
  obtain ⟨m, hm⟩ := Rounding.roundAt_intCast (b := 2) (by decide) (max (Rounding.lastDigit 2 53 (d : ℚ)) (-1074)) d
  have hm' : toDouble (d : ℚ) = m := hm
  rw [hm', castI64_int hlo hhi]
  exact_mod_cast Iff.rfl

theorem dims_read {dims : List Int} (hdims : ∀ d ∈ dims, -2 ^ 63 ≤ d ∧ d < 2 ^ 63) :
    (dims.map fun d : Int => Value.number (toDouble d)).mapM shapeDim = .ok dims ↔ ∀ d ∈ dims, toDouble (d : ℚ) = d := by
  induction dims with
  | nil => simp [Pure.pure, Except.pure]
  | cons d ds ih =>
    have hd := hdims d List.mem_cons_self
    have ih := ih fun e he => hdims e (List.mem_cons_of_mem _ he)
    rw [List.forall_mem_cons, ← ih, ← cast_toDouble hd.1 hd.2, List.map_cons, List.mapM_cons]
    apply Iff.intro
    · intro h
      obtain ⟨k, hk, h⟩ := bind_ok h
      obtain ⟨ks, hks, h⟩ := bind_ok h
      obtain ⟨rfl, rfl⟩ := List.cons.inj (Except.ok.inj h)
      exact ⟨hk, hks⟩
    · intro ⟨hk, hks⟩
      show castI64 (toDouble (d : ℚ)) >>= _ = _
      rw [hk, hks]
      rfl

theorem offset_cast {n : Nat} (hn : n ≤ 2 ^ 53) : castUnsigned 64 (toDouble ((n : Int) : ℚ)) = .ok n := by
  rw [toDouble_int (by rw [Nat.abs_cast]; exact_mod_cast hn), castUnsigned_int (by omega)]

/-- What the entry of a planned tensor is read as. -/
theorem tensorInfo_planned (hfirst : p.first ≤ 2 ^ 53) (hlast : p.last ≤ 2 ^ 53) (name : String) :
    tensorInfo name (plannedFields dt p) =
      ((p.tensor.shape.map fun d : Int => Value.number (toDouble d)).mapM shapeDim).bind fun shape =>
        .ok ⟨name, dt, shape, p.first, p.last⟩ := by
  have hoffsets : dataOffsets (offsetsValue p) = .ok (p.first, p.last) := by
    show (castUnsigned 64 (toDouble ((p.first : Int) : ℚ)) >>= _) = _
    rw [offset_cast hfirst, ok_bind]
    show (castUnsigned 64 (toDouble ((p.last : Int) : ℚ)) >>= _) = _
    rw [offset_cast hlast]
    rfl
  show (((p.tensor.shape.map fun d : Int => Value.number (toDouble d)).mapM shapeDim) >>= fun shape => dataOffsets (offsetsValue p) >>= _) = _
  rw [hoffsets]
  rfl

end Info

/-! ## A tensor's bytes -/

section Bytes

variable {dt : String}

def packedWord (dt : String) (x : UInt32) : Nat :=
  if dt = "F32" then x.toNat else if dt = "F16" then (f32ToF16Bits x).toNat else (f32ToBf16Bits x).toNat

theorem packedBytes_eq (x : UInt32) : packedBytes dt x = leBytes (elemBytes dt) (packedWord dt x) := by
  unfold packedBytes elemBytes packedWord
  by_cases h32 : dt = "F32"
  · simp [h32]
  · by_cases h16 : dt = "F16" <;> simp [h32, h16]

theorem packedWord_lt (x : UInt32) : packedWord dt x < 256 ^ elemBytes dt := by
  have hx := x.toNat_lt
  have hhalf := (f32ToF16Bits x).toNat_lt
  have hbfloat := (f32ToBf16Bits x).toNat_lt
  unfold elemBytes packedWord
  by_cases h32 : dt = "F32"
  · simp only [h32, if_true]
    omega
  · by_cases h16 : dt = "F16"
    · simp only [h16, if_true, if_neg (show ¬ "F16" = "F32" by decide)]
      omega
    · simp only [h32, h16, if_false]
      omega

theorem packed_length (xs : List UInt32) : (xs.flatMap (packedBytes dt)).length = xs.length * elemBytes dt := by
  induction xs with
  | nil => simp
  | cons x xs ih => rw [List.flatMap_cons, List.length_append, ih, packedBytes_eq, leBytes_length, List.length_cons]; ring

/-- The words of what was packed. -/
theorem words_packed {β : Type} (f : Nat → β) (xs : List UInt32) :
    ((List.range xs.length).map fun i => f (wordAt (elemBytes dt) (xs.flatMap (packedBytes dt)) i)) =
      xs.map fun x => f (packedWord dt x) := by
  induction xs with
  | nil => rfl
  | cons x xs ih =>
    have hfirst : wordAt (elemBytes dt) ((x :: xs).flatMap (packedBytes dt)) 0 = packedWord dt x := by
      have htake : ((packedBytes dt x ++ xs.flatMap (packedBytes dt)).drop 0).take (elemBytes dt) = packedBytes dt x := by
        rw [List.drop_zero, List.take_left']
        rw [packedBytes_eq, leBytes_length]
      rw [wordAt, Nat.mul_zero, List.flatMap_cons, htake, packedBytes_eq, leValue_leBytes, Nat.mod_eq_of_lt (packedWord_lt x)]
    have hnext : ∀ i, wordAt (elemBytes dt) ((x :: xs).flatMap (packedBytes dt)) (i + 1) =
        wordAt (elemBytes dt) (xs.flatMap (packedBytes dt)) i := by
      intro i
      have hlen : (packedBytes dt x).length = elemBytes dt := by rw [packedBytes_eq, leBytes_length]
      have hdrop : (packedBytes dt x ++ xs.flatMap (packedBytes dt)).drop (elemBytes dt * (i + 1)) =
          (xs.flatMap (packedBytes dt)).drop (elemBytes dt * i) := by
        rw [Nat.mul_succ, Nat.add_comm, ← List.drop_drop, List.drop_left' hlen]
      rw [wordAt, wordAt, List.flatMap_cons, hdrop]
    rw [List.length_cons, List.range_succ_eq_map, List.map_cons, List.map_map, hfirst, List.map_cons, ← ih]
    refine congrArg (_ :: ·) (List.map_congr_left fun i _ => ?_)
    show f (wordAt _ _ (i + 1)) = _
    rw [hnext]

/-- The stored format of a dtype that is written. -/
def storedAs (dt : String) : Stored := if dt = "F32" then storedF32 else if dt = "F16" then storedF16 else storedBf16

/-- A value, written and read. -/
def rewritten (dt : String) (x : UInt32) : UInt32 := (storedAs dt).decode (packedWord dt x)

theorem rewritten_iff {x : UInt32} (h : Exact dt x) : rewritten dt x = x ↔ ¬ (dt = "F16" ∧ HalfSubnormal x) := by
  rcases h with rfl | ⟨rfl, hx⟩ | ⟨rfl, hx⟩
  · have hself : rewritten "F32" x = x := UInt32.ofNat_toNat
    simp [hself]
  · have hhalf : rewritten "F16" x = f16ToF32Bits (f32ToF16Bits x) := congrArg f16ToF32Bits UInt16.ofNat_toNat
    rw [hhalf, half_survives_iff hx]
    simp
  · have hbfloat : rewritten "BF16" x = bf16ToF32Bits (f32ToBf16Bits x) := congrArg bf16ToF32Bits UInt16.ofNat_toNat
    rw [hbfloat, bfloat_survives hx]
    simp

end Bytes

/-! ## Loading -/

section Load

variable {order : MapOrder} {c : Checkpoint} {dtype : String} {fs : FileSystem} {path : String}

/-- The plan, the header and the bytes of the tensors. -/
def Checkpoint.planned (c : Checkpoint) (dt : String) : List Planned := planTensors (elemBytes dt) 0 c.tensors

def Checkpoint.header (c : Checkpoint) (dt : String) : List UInt8 := bytesOf (headerText dt c.metadata (c.planned dt))

def body (dt : String) (ts : List NamedTensor) : List UInt8 := ts.flatMap fun t => t.data.flatMap (packedBytes dt)

def Checkpoint.file (c : Checkpoint) (dt : String) : List UInt8 := leBytes 8 (c.header dt).length ++ c.header dt ++ body dt c.tensors

theorem body_length (dt : String) (ts : List NamedTensor) : (body dt ts).length = bodySize dt ts := by
  induction ts with
  | nil => rfl
  | cons t ts ih =>
    have hcons : body dt (t :: ts) = t.data.flatMap (packedBytes dt) ++ body dt ts := rfl
    rw [hcons, List.length_append, packed_length, ih, bodySize_cons]

theorem write_ok (h : Writable c dtype) : safetensorsWrite c.tensors dtype c.metadata = .ok (c.file (upper dtype)) := by
  have hsupported := h.supported
  show (if upper dtype ≠ "F32" ∧ upper dtype ≠ "F16" ∧ upper dtype ≠ "BF16" then _ else Except.ok (c.file (upper dtype))) = _
  rw [if_neg (by tauto)]

theorem planned_mem {dt : String} {p : Planned} (hp : p ∈ c.planned dt) : p.tensor ∈ c.tensors := by
  have hmem := List.mem_map_of_mem (f := (·.tensor)) hp
  rwa [Checkpoint.planned, planTensors_tensors] at hmem

theorem mem_planned (dt : String) {t : NamedTensor} (ht : t ∈ c.tensors) : ∃ p ∈ c.planned dt, p.tensor = t := by
  rw [← planTensors_tensors (elemBytes dt) 0 c.tensors] at ht
  exact List.mem_map.mp ht

theorem planned_names (c : Checkpoint) (dt : String) : ((c.planned dt).map (·.tensor.name)).Nodup := by
  have hmap : (c.planned dt).map (·.tensor.name) = c.tensors.map (·.name) := by
    rw [← planTensors_tensors (elemBytes dt) 0 c.tensors, List.map_map]
    rfl
  rw [hmap]
  exact c.names

theorem header_length (c : Checkpoint) (dt : String) : (c.header dt).length = (headerText dt c.metadata (c.planned dt)).length :=
  List.length_map ..

theorem planned_bounds (h : Writable c dtype) {p : Planned} (hp : p ∈ c.planned (upper dtype)) :
    p.first ≤ 2 ^ 53 ∧ p.last ≤ 2 ^ 53 := by
  have hoffsets := h.offsets
  have hbounds : p.first ≤ p.last ∧ p.last ≤ bodySize (upper dtype) c.tensors := plan_bounds (by omega) hp
  omega

/-- The header that was written is the one that is walked. -/
theorem readHeader_eq (h : Writable c dtype) (hfs : fs path = some (c.file (upper dtype))) :
    safetensorsReadHeader order fs path = (order.walk (headerFields (upper dtype) c.metadata (c.planned (upper dtype)))).foldlM
      (addEntry order) ⟨path, (c.header (upper dtype)).length, 8 + (c.header (upper dtype)).length, [], []⟩ := by
  generalize hdt : upper dtype = dt at *
  have hsize := h.size
  have hoffsets := h.offsets
  have hsupported := h.supported
  have hbounds := fun p hp => planned_bounds h (p := p) hp
  rw [hdt] at hsize hoffsets hsupported hbounds
  have hlen : (c.header dt).length < 2 ^ 62 := by
    rw [header_length]
    unfold Checkpoint.planned
    omega
  have hpos : 0 < (c.header dt).length := by
    rw [header_length]
    exact Nat.succ_pos _
  have htotal : (c.file dt).length = 8 + (c.header dt).length + (body dt c.tensors).length := by
    simp [Checkpoint.file, Nat.add_assoc]
  have hword : ByteReader.readPod ⟨c.file dt, 0⟩ 8 = .ok ((c.header dt).length, ⟨c.file dt, 8⟩) := by
    have htake : ((c.file dt).drop 0).take 8 = leBytes 8 (c.header dt).length := by
      rw [List.drop_zero, Checkpoint.file, List.append_assoc, List.take_left' (leBytes_length ..)]
    rw [ByteReader.readPod, ByteReader.readBytes_of_le (by simp only; omega), ok_bind]
    show Except.ok (leValue (((c.file dt).drop 0).take 8), _) = _
    rw [htake, leValue_leBytes, Nat.mod_eq_of_lt (by omega)]
  have hheader : ByteReader.readBytes ⟨c.file dt, 8⟩ (c.header dt).length =
      .ok (c.header dt, ⟨c.file dt, 8 + (c.header dt).length⟩) := by
    have htake : ((c.file dt).drop 8).take (c.header dt).length = c.header dt := by
      rw [Checkpoint.file, List.append_assoc, List.drop_left' (leBytes_length ..), List.take_left' rfl]
    rw [ByteReader.readBytes_of_le (by simp only; omega), htake]
  have htext : textOf (c.header dt) = headerText dt c.metadata (c.planned dt) := by
    refine textOf_bytesOf (header_bytes c.metadataBytes (fun p hp => c.nameBytes _ (planned_mem hp)) ?_)
    rcases hsupported with rfl | rfl | rfl <;> decide
  have hparse : MiniJson.parse (headerText dt c.metadata (c.planned dt)) = .ok (.object (headerFields dt c.metadata (c.planned dt))) :=
    header_parses c.keys (planned_names c dt) (fun p hp => h.names _ (planned_mem hp))
    (fun p hp => c.dims _ (planned_mem hp)) fun p hp => ⟨(hbounds p hp).1.trans (by norm_num), (hbounds p hp).2.trans (by norm_num)⟩
  have hok : ¬ ((c.header dt).length = 0 ∨ (c.file dt).length < (c.header dt).length) := by omega
  rw [readHeader_of hfs hword hok hheader (by rw [htext, hparse]), headerFile, wrap64_of_lt (by omega)]

/-! ## The round trip -/

theorem storedOf_written {dt : String} (h : dt = "F32" ∨ dt = "F16" ∨ dt = "BF16") :
    storedOf dt = .ok (storedAs dt) ∧ (storedAs dt).size = elemBytes dt := by
  rcases h with rfl | rfl | rfl <;> exact ⟨rfl, rfl⟩

/-- The bytes of a tensor are where its plan says. -/
theorem body_slice {dt : String} {p : Planned} (hfits : bodySize dt c.tensors < 2 ^ 63) (hp : p ∈ c.planned dt) :
    ((c.file dt).drop (8 + (c.header dt).length + p.first)).take (p.tensor.data.length * elemBytes dt) =
      p.tensor.data.flatMap (packedBytes dt) := by
  obtain ⟨pre, post, hts, hfirst, -⟩ := plan_slices 0 (by omega) p hp
  have hbody : body dt c.tensors = body dt pre ++ (p.tensor.data.flatMap (packedBytes dt) ++ body dt post) := by
    rw [hts]
    simp [body]
  have hpre : (body dt pre).length = p.first := by rw [body_length, hfirst, Nat.zero_add]
  have hhead : (leBytes 8 (c.header dt).length ++ c.header dt).length = 8 + (c.header dt).length := by simp
  rw [Checkpoint.file, ← List.drop_drop, List.drop_left' hhead, hbody, List.drop_left' hpre,
    List.take_left' (packed_length _)]

/-- A planned tensor whose shape was read is loaded, value by value. -/
theorem load_planned (h : Writable c dtype) {file : SafetensorsFile} (hfs : fs file.path = some (c.file (upper dtype)))
    (hoffset : file.dataOffset = 8 + (c.header (upper dtype)).length) {p : Planned} (hp : p ∈ c.planned (upper dtype))
    (hinfo : file.tensors.find? (·.name == p.tensor.name) = some ⟨p.tensor.name, upper dtype, p.tensor.shape, p.first, p.last⟩)
    (hnonneg : ∀ d ∈ p.tensor.shape, 0 ≤ d) :
    safetensorsLoadTensorF32 fs file p.tensor.name = .ok (p.tensor.data.map (rewritten (upper dtype)), p.tensor.shape) := by
  have hoffsets := h.offsets
  have hsize := h.size
  have hproduct := h.product _ (planned_mem hp)
  have hsupported := h.supported
  generalize upper dtype = dt at *
  obtain ⟨hstored, hsz⟩ := storedOf_written hsupported
  obtain ⟨pre, post, hts, hfirst, hlast⟩ := plan_slices 0 (by omega) p hp
  have hsum := congrArg (bodySize dt) hts
  rw [bodySize_append, bodySize_cons] at hsum
  have helem : 1 ≤ elemBytes dt := by
    unfold elemBytes
    split <;> decide
  have hcount : p.tensor.data.length ≤ p.tensor.data.length * elemBytes dt := Nat.le_mul_of_pos_right _ helem
  have hheader := header_length c dt
  have hnumel : loadNumel p.tensor.shape = .ok p.tensor.data.length := by
    rw [loadNumel_iff, hproduct, Int.toNat_natCast, wrap64_of_lt (by omega)]
    exact ⟨hnonneg, rfl⟩
  have hnbytes : SafetensorsTensorInfo.nbytes ⟨p.tensor.name, dt, p.tensor.shape, p.first, p.last⟩ =
      p.tensor.data.length * elemBytes dt := by
    unfold SafetensorsTensorInfo.nbytes wrap64
    dsimp only
    omega
  have hstart : file.start ⟨p.tensor.name, dt, p.tensor.shape, p.first, p.last⟩ = 8 + (c.header dt).length + p.first := by
    unfold SafetensorsFile.start
    rw [hoffset, wrap64_of_lt (by unfold Checkpoint.planned at hheader; dsimp only; omega)]
  have htotal : (c.file dt).length = 8 + (c.header dt).length + bodySize dt c.tensors := by
    simp [Checkpoint.file, body_length, Nat.add_assoc]
  have hread : ∃ r, ByteReader.readBytes ⟨c.file dt, 8 + (c.header dt).length + p.first⟩ (p.tensor.data.length * elemBytes dt) =
      .ok (p.tensor.data.flatMap (packedBytes dt), r) := by
    rw [ByteReader.readBytes_of_le (by dsimp only; omega), body_slice (by omega) hp]
    exact ⟨_, rfl⟩
  obtain ⟨r, hread⟩ := hread
  rw [load_of hinfo hfs hnumel (by unfold maxFloats; omega) hstored (by rw [hnbytes, hsz, wrap64_of_lt (by omega)]), hstart,
    hnbytes, hread, hsz]
  show Except.ok ((List.range p.tensor.data.length).map _, _) = _
  rw [words_packed]
  rfl

/-- The condition: what the header rounds and the half reader drops does not occur. -/
def Kept (c : Checkpoint) (dtype : String) : Prop :=
  (∀ t ∈ c.tensors, ∀ d ∈ t.shape, 0 ≤ d ∧ toDouble (d : ℚ) = d) ∧
    (upper dtype = "F16" → ∀ t ∈ c.tensors, ∀ x ∈ t.data, ¬ HalfSubnormal x)

section Read

variable {file : SafetensorsFile}

theorem mem_headerFields {dt : String} {kv : String × Value} (h : kv ∈ headerFields dt c.metadata (c.planned dt)) :
    (c.metadata ≠ [] ∧ kv = ("__metadata__", .object (metadataFields c.metadata))) ∨
      ∃ p ∈ c.planned dt, kv = (p.tensor.name, .object (plannedFields dt p)) := by
  rcases List.mem_append.mp h with h | h
  · split at h
    · cases h
    · rename_i hne
      exact .inl ⟨hne, List.mem_singleton.mp h⟩
  · obtain ⟨p, hp, rfl⟩ := List.mem_map.mp h
    exact .inr ⟨p, hp, rfl⟩

/-- The file that the loop over the written header gives. -/
def Walked (order : MapOrder) (c : Checkpoint) (dt path : String) (file : SafetensorsFile) : Prop :=
  Gathered order (order.walk (headerFields dt c.metadata (c.planned dt)))
    ⟨path, (c.header dt).length, 8 + (c.header dt).length, [], []⟩ file

theorem walked_keys (h : Writable c dtype) (order : MapOrder) :
    ((order.walk (headerFields (upper dtype) c.metadata (c.planned (upper dtype)))).map (·.1)).Nodup :=
  ((order.perm _).map _).nodup_iff.mpr (headerFields_keys _ _ (planned_names c _) fun _ hp => h.names _ (planned_mem hp))

theorem same_value {α : Type} {kvs : List (String × α)} (hkeys : (kvs.map (·.1)).Nodup) {key : String} {v w : α}
    (hv : (key, v) ∈ kvs) (hw : (key, w) ∈ kvs) : v = w :=
  (Prod.mk.inj (List.inj_on_of_nodup_map hkeys hv hw rfl)).2

/-- A tensor's entry is found under its name. -/
theorem walked_find (h : Writable c dtype) (hwalk : Walked order c (upper dtype) path file) {p : Planned}
    (hp : p ∈ c.planned (upper dtype)) : ∃ info, tensorInfo p.tensor.name (plannedFields (upper dtype) p) = .ok info ∧
      file.tensors.find? (·.name == p.tensor.name) = some info := by
  have hkeys := walked_keys h order
  have hmem : (p.tensor.name, Value.object (plannedFields (upper dtype) p)) ∈
      order.walk (headerFields (upper dtype) c.metadata (c.planned (upper dtype))) := by
    refine (order.perm _).mem_iff.mpr (List.mem_append.mpr (.inr ?_))
    exact List.mem_map_of_mem (f := fun p : Planned => (p.tensor.name, Value.object (plannedFields (upper dtype) p))) hp
  obtain ⟨info, hinfo, hok⟩ := hwalk.found _ _ hmem (h.names _ (planned_mem hp))
  have hname := tensorInfo_name hok
  have hsome : (file.tensors.find? (·.name == p.tensor.name)).isSome := by
    rw [List.find?_isSome]
    exact ⟨info, hinfo, by simp [hname]⟩
  obtain ⟨info', hfind⟩ := Option.isSome_iff_exists.mp hsome
  have hname' : info'.name = p.tensor.name := by simpa using List.find?_some hfind
  refine ⟨info, hok, ?_⟩
  rcases hwalk.only info' (List.mem_of_find?_eq_some hfind) with hnone | ⟨fields, hmem', hok'⟩
  · cases hnone
  · rw [hname'] at hmem' hok'
    have hfields := Value.object.inj (same_value hkeys hmem' hmem)
    rw [hfields, hok] at hok'
    rw [hfind, Except.ok.inj hok']

/-- The metadata, in some order. -/
theorem walked_metadata (h : Writable c dtype) (hwalk : Walked order c (upper dtype) path file) :
    file.metadata.Perm c.metadata := by
  have hkeys := walked_keys h order
  have hself : ∀ m : List (String × String), (metadataFields m).filterMap metadataEntry = m := by
    intro m
    rw [metadataFields, List.filterMap_map]
    exact List.filterMap_some
  by_cases hne : c.metadata = []
  · have hno : ∀ fields, ("__metadata__", Value.object fields) ∉
        order.walk (headerFields (upper dtype) c.metadata (c.planned (upper dtype))) := by
      intro fields hmem
      rcases mem_headerFields ((order.perm _).mem_iff.mp hmem) with ⟨hm, -⟩ | ⟨p, hp, heq⟩
      · exact hm hne
      · exact h.names _ (planned_mem hp) (Prod.mk.inj heq).1.symm
    rw [hwalk.noMetadata hno, hne]
  · have hmem : ("__metadata__", Value.object (metadataFields c.metadata)) ∈
        order.walk (headerFields (upper dtype) c.metadata (c.planned (upper dtype))) := by
      refine (order.perm _).mem_iff.mpr (List.mem_append.mpr (.inl ?_))
      rw [if_neg hne]
      exact List.mem_singleton_self _
    rw [hwalk.metadata _ hmem fun v hv => same_value hkeys hv hmem]
    have hperm := (order.perm (metadataFields c.metadata)).filterMap metadataEntry
    rwa [hself] at hperm

end Read

/-- What the loop over the written header gives. -/
theorem readHeader_walked (h : Writable c dtype) (hfs : fs path = some (c.file (upper dtype))) {file : SafetensorsFile}
    (hfile : safetensorsReadHeader order fs path = .ok file) : Walked order c (upper dtype) path file := by
  rw [readHeader_eq h hfs] at hfile
  exact addEntries_gathered hfile

/-- What a planned tensor's entry is read as. -/
theorem planned_info (h : Writable c dtype) {p : Planned} (hp : p ∈ c.planned (upper dtype)) :
    tensorInfo p.tensor.name (plannedFields (upper dtype) p) =
      ((p.tensor.shape.map fun d : Int => Value.number (toDouble d)).mapM shapeDim).bind fun shape =>
        .ok ⟨p.tensor.name, upper dtype, shape, p.first, p.last⟩ :=
  tensorInfo_planned (planned_bounds h hp).1 (planned_bounds h hp).2 _

theorem kept_of_round_trips (h : Writable c dtype) : RoundTrips order c dtype → Kept c dtype := by
  intro ⟨bytes, hwrite, hround⟩
  obtain rfl := Except.ok.inj ((write_ok h).symm.trans hwrite)
  obtain ⟨file, hfile, -, hload⟩ := hround (fun _ => some (c.file (upper dtype))) "" rfl
  have hwalk := readHeader_walked h rfl hfile
  have hone : ∀ t ∈ c.tensors, (∀ d ∈ t.shape, 0 ≤ d ∧ toDouble (d : ℚ) = d) ∧ t.data.map (rewritten (upper dtype)) = t.data := by
    intro t ht
    obtain ⟨p, hp, rfl⟩ := mem_planned (upper dtype) ht
    have hloaded := hload _ ht
    obtain ⟨info, hok, hfind⟩ := walked_find h hwalk hp
    obtain ⟨info', data, numel, stored, hfind', hfs, hnumel, hmax, hstored, hnbytes⟩ := load_checked (.inl ⟨_, hloaded⟩)
    obtain rfl := Option.some.inj (hfind.symm.trans hfind')
    have hshape : info.shape = p.tensor.shape := by
      rw [load_of hfind hfs hnumel hmax hstored hnbytes] at hloaded
      obtain ⟨b, -, hb⟩ := bind_ok hloaded
      exact (Prod.mk.inj (Except.ok.inj hb)).2
    rw [planned_info h hp] at hok
    obtain ⟨shape, hdims, hok⟩ := bind_ok hok
    obtain rfl := Except.ok.inj hok
    obtain rfl : shape = p.tensor.shape := hshape
    have hnonneg := (loadNumel_iff.mp hnumel).1
    have hdouble := (dims_read (c.dims _ ht)).mp hdims
    refine ⟨fun d hd => ⟨hnonneg d hd, hdouble d hd⟩, ?_⟩
    rw [load_planned h rfl hwalk.dataOffset hp hfind hnonneg] at hloaded
    exact (Prod.mk.inj (Except.ok.inj hloaded)).1
  refine ⟨fun t ht => (hone t ht).1, fun h16 t ht x hx hsub => ?_⟩
  have hself : rewritten (upper dtype) x = id x := List.map_inj_left.mp ((hone t ht).2.trans (List.map_id _).symm) x hx
  exact (rewritten_iff (h.exact t ht x hx)).mp hself ⟨h16, hsub⟩

theorem round_trips_of_kept (h : Writable c dtype) : Kept c dtype → RoundTrips order c dtype := by
  intro ⟨hdims, hhalf⟩
  refine ⟨_, write_ok h, fun fs path hfs => ?_⟩
  have hread' : ∀ p ∈ c.planned (upper dtype), tensorInfo p.tensor.name (plannedFields (upper dtype) p) =
      .ok ⟨p.tensor.name, upper dtype, p.tensor.shape, p.first, p.last⟩ := by
    intro p hp
    have ht := planned_mem hp
    rw [planned_info h hp, (dims_read (c.dims _ ht)).mpr fun d hd => (hdims _ ht d hd).2]
    rfl
  have htotal : ∀ name fields, (name, Value.object fields) ∈
      order.walk (headerFields (upper dtype) c.metadata (c.planned (upper dtype))) → name ≠ "__metadata__" →
        ∃ info, tensorInfo name fields = .ok info := by
    intro name fields hmem hname
    rcases mem_headerFields ((order.perm _).mem_iff.mp hmem) with ⟨-, heq⟩ | ⟨p, hp, heq⟩
    · exact absurd (Prod.mk.inj heq).1 hname
    · obtain ⟨rfl, hv⟩ := Prod.mk.inj heq
      obtain rfl := Value.object.inj hv
      exact ⟨_, hread' p hp⟩
  obtain ⟨file, hfile⟩ := addEntries_total order
    ⟨path, (c.header (upper dtype)).length, 8 + (c.header (upper dtype)).length, [], []⟩ htotal
  have hwalk : Walked order c (upper dtype) path file := addEntries_gathered hfile
  refine ⟨file, (readHeader_eq h hfs).trans hfile, walked_metadata h hwalk, fun t ht => ?_⟩
  obtain ⟨p, hp, rfl⟩ := mem_planned (upper dtype) ht
  obtain ⟨info, hok, hfind⟩ := walked_find h hwalk hp
  obtain rfl := Except.ok.inj ((hread' p hp).symm.trans hok)
  have hpath : fs file.path = some (c.file (upper dtype)) := by rw [hwalk.path, hfs]
  rw [load_planned h hpath hwalk.dataOffset hp hfind fun d hd => (hdims _ ht d hd).1]
  have hself : ∀ x ∈ p.tensor.data, rewritten (upper dtype) x = id x := fun x hx =>
    (rewritten_iff (h.exact _ ht x hx)).mpr fun hsub => hhalf hsub.1 _ ht x hx hsub.2
  rw [List.map_congr_left hself, List.map_id]

/-- The round trip keeps a checkpoint exactly when nothing it drops occurs. -/
theorem safetensors_round_trip_iff (order : MapOrder) (c : Checkpoint) (dtype : String) (h : Writable c dtype) :
    RoundTrips order c dtype ↔ Kept c dtype :=
  ⟨kept_of_round_trips h, round_trips_of_kept h⟩

end Load

/-- One value under a name to be escaped. -/
def oneValue (x : UInt32) : Checkpoint where
  tensors := [⟨"a\"b", [1], [x]⟩]
  metadata := [("format", "pt")]
  names := by simp
  keys := by decide
  nameBytes t ht := by
    rw [List.mem_singleton.mp ht]
    show ByteText "a\"b".toList
    decide
  metadataBytes := by decide
  dims t ht := by
    rw [List.mem_singleton.mp ht]
    show ∀ d ∈ [1], -2 ^ 63 ≤ d ∧ d < 2 ^ 63
    decide

theorem oneValue_writable {x : UInt32} {dtype dt : String} (hdt : upper dtype = dt) (hsupported : dt = "F16" ∨ dt = "BF16")
    (hexact : Exact dt x) : Writable (oneValue x) dtype := by
  subst hdt
  have hplan : planTensors (elemBytes (upper dtype)) 0 (oneValue x).tensors = [⟨⟨"a\"b", [1], [x]⟩, 0, 2⟩] := by
    rcases hsupported with h | h <;> rw [h] <;> rfl
  refine ⟨by tauto, ?_, ?_, ?_, ?_, ?_⟩
  · simp [oneValue]
  · simp [oneValue]
  · simpa [oneValue] using hexact
  · rcases hsupported with h | h <;> rw [h] <;> simp [oneValue, bodySize, elemBytes]
  · rw [hplan]
    have hlen : ∀ dt, dt = "F16" ∨ dt = "BF16" →
        (headerText dt [("format", "pt")] [⟨⟨"a\"b", [1], [0]⟩, 0, 2⟩]).length < 2 ^ 60 := by
      intro dt hdt
      rcases hdt with rfl | rfl <;> decide
    have hlen := hlen _ hsupported
    show 8 + (headerText _ [("format", "pt")] [⟨⟨"a\"b", [1], [0]⟩, 0, 2⟩]).length < _
    omega

theorem one_round_trips : RoundTrips MapOrder.inserted (oneValue 0x3F800000) "bf16" := by
  have hexact : Exact "BF16" 0x3F800000 := .inr (.inr ⟨rfl, .finite false 1, 0x3F80, by decide +kernel, by decide +kernel⟩)
  have hkept : Kept (oneValue 0x3F800000) "bf16" := by
    refine ⟨?_, fun h => absurd h (by decide)⟩
    have hone : toDouble ((1 : Int) : ℚ) = (1 : Int) := toDouble_int (by norm_num)
    simpa [oneValue] using hone
  exact (safetensors_round_trip_iff _ _ _ (oneValue_writable (by decide) (.inr rfl) hexact)).mpr hkept

/-- 2 ^ -24 is a half; what is read back is 0. -/
theorem smallest_half_lost : Writable (oneValue 0x33800000) "F16" ∧ ¬ RoundTrips MapOrder.inserted (oneValue 0x33800000) "F16" := by
  have hnumber : binary32.number (0x33800000 : UInt32).toNat = some (.finite false ((2 : ℚ) ^ (-24 : ℤ))) := by decide +kernel
  have hexact : Exact "F16" 0x33800000 := .inr (.inl ⟨rfl, _, 1, by decide +kernel, hnumber⟩)
  have hwritable : Writable (oneValue 0x33800000) "F16" := oneValue_writable (by decide) (.inl rfl) hexact
  refine ⟨hwritable, fun hround => ?_⟩
  have hkept := kept_of_round_trips hwritable hround
  refine hkept.2 (by decide) ⟨"a\"b", [1], [0x33800000]⟩ (List.mem_singleton_self _) 0x33800000 (List.mem_singleton_self _) ?_
  exact ⟨false, _, hnumber, by norm_num, by norm_num⟩

end Uaii.Loaders
