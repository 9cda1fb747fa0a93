/-
  Uaii.Ir.SerializeBinary — `graph_to_binary` and `graph_from_binary`
  (`libs/uaii-ir/src/serialize_binary.cpp`).

  A `std::string` is its bytes, one character each, and a `double` its 64 bits. The
  metadata is written in the order in which its map is walked. Outside the model: memory
  that runs out, and a byte that is no enumerator, which the code keeps in its enum.

  Proved: a graph whose version is supported is read back (`graph_reads`), except that
  the quant format of a tensor is neither written nor read: every tensor comes back
  dense. So the graph is the same exactly when every tensor was (`binary_round_trip_iff`).
-/

import Uaii.Ir.Graph
import Uaii.Lib.Codec

namespace Uaii.Ir

open Codec

abbrev Double := BitVec 64

/-- The order in which the metadata is walked. -/
structure MetadataOrder where
  walk : List (String × String) → List (String × String)
  perm : ∀ m, (walk m).Perm m

def MetadataOrder.inserted : MetadataOrder := ⟨id, fun _ => .refl _⟩

def storageHintCode : StorageHint → Nat
  | .unspecified => 0
  | .ram => 1
  | .mmap => 2
  | .external => 3

/-! ## `Writer` -/

def writeI64 (x : Int) : List UInt8 := leBytes 8 (x % 2 ^ 64).toNat

def writeF64 (x : Double) : List UInt8 := leBytes 8 x.toNat

def writeBool (b : Bool) : List UInt8 := leBytes 1 (if b then 1 else 0)

def writeStr (s : String) : List UInt8 := [leBytes 4 s.length, s.toList.map fun c => .ofNat c.toNat].flatten

/-- A length and the elements. -/
def writeAll {α : Type} (w : α → List UInt8) (xs : List α) : List UInt8 := [leBytes 4 xs.length, xs.flatMap w].flatten

def writeValue : AttributeValue Double → List UInt8
  | .string s => writeStr s
  | .int x => writeI64 x
  | .float x => writeF64 x
  | .bool b => writeBool b
  | .intArray xs => writeAll writeI64 xs
  | .floatArray xs => writeAll writeF64 xs

def writeAttr (a : Attribute Double) : List UInt8 :=
  [writeStr a.key, leBytes 1 (attributeTypeCode a.value), writeValue a.value].flatten

def writeTensor (t : Tensor) : List UInt8 :=
  [leBytes 8 t.id, writeStr t.name, leBytes 1 (dtypeCode t.dtype), writeAll writeI64 t.shape,
    leBytes 1 (storageHintCode t.storageHint), writeBool t.isWeight, writeStr t.weightRef].flatten

def writeNode (n : Node Double) : List UInt8 :=
  [leBytes 8 n.id, writeStr n.name, writeStr n.opName, writeStr n.opVersion, writeAll (leBytes 8) n.inputs,
    writeAll (leBytes 8) n.outputs, writeAll writeAttr n.attributes].flatten

def writePair (kv : String × String) : List UInt8 := [writeStr kv.1, writeStr kv.2].flatten

/-- `'U''A''I''R'`. -/
def kBinaryMagic : List UInt8 := [85, 65, 73, 82]

def writeVersion (v : IrVersion) : List UInt8 := [leBytes 4 v.major, leBytes 4 v.minor].flatten

/-- What follows the magic. -/
def writeGraph (order : MetadataOrder) (g : Graph Double) : List UInt8 :=
  [leBytes 4 1, writeVersion g.version, writeStr g.name, writeStr g.producer, writeStr g.domain,
    writeAll writeTensor g.tensors, writeAll writeNode g.nodes, writeAll (leBytes 8) g.inputs,
    writeAll (leBytes 8) g.outputs, writeAll writePair (order.walk g.metadata)].flatten

def graphToBinary (order : MetadataOrder) (g : Graph Double) : List UInt8 := kBinaryMagic ++ writeGraph order g

/-! ## `Reader` -/

def eof : Fault := .error .invalidArgument "truncated UAII binary IR"

abbrev Reader (α : Type) := Codec.Reader UInt8 Fault α

def readI64 : Reader Int := do
  let x ← word eof 8
  pure (toI64 x)

def readF64 : Reader Double := do
  let x ← word eof 8
  pure (BitVec.ofNat 64 x)

def readBool : Reader Bool := do
  let x ← word eof 1
  pure (x != 0)

def readStr : Reader String := do
  let n ← word eof 4
  let bytes ← take eof n
  pure (String.ofList (bytes.map fun b => Char.ofNat b.toNat))

def readAll {α : Type} (r : Reader α) : Reader (List α) := do
  let n ← word eof 4
  many r n

def readValue : Nat → Reader (AttributeValue Double)
  | 0 => do
    let s ← readStr
    pure (.string s)
  | 1 => do
    let x ← readI64
    pure (.int x)
  | 2 => do
    let x ← readF64
    pure (.float x)
  | 3 => do
    let b ← readBool
    pure (.bool b)
  | 4 => do
    let xs ← readAll readI64
    pure (.intArray xs)
  | 5 => do
    let xs ← readAll readF64
    pure (.floatArray xs)
  | _ => throw (.error .invalidArgument "unknown attribute type in binary IR")

def readAttr : Reader (Attribute Double) := do
  let key ← readStr
  let type ← word eof 1
  let value ← readValue type
  pure ⟨key, value⟩

/-- The enumerator of a value. -/
def readEnum {α : Type} (all : List α) : Reader α := do
  let x ← word eof 1
  match all[x]? with
  | some e => pure e
  | none => throw (.undefined "no such enumerator")

def dtypes : List DType := [.unknown, .f32, .f16, .bf16, .i8, .i32, .i64, .u8, .u32, .bool]

def storageHints : List StorageHint := [.unspecified, .ram, .mmap, .external]

/-- `quant_format` keeps the default of `Tensor t`. -/
def readTensor : Reader Tensor := do
  let id ← word eof 8
  let name ← readStr
  let dtype ← readEnum dtypes
  let shape ← readAll readI64
  let hint ← readEnum storageHints
  let isWeight ← readBool
  let weightRef ← readStr
  pure ⟨id, name, dtype, shape, hint, isWeight, weightRef, .f32⟩

def readNode : Reader (Node Double) := do
  let id ← word eof 8
  let name ← readStr
  let opName ← readStr
  let opVersion ← readStr
  let inputs ← readAll (word eof 8)
  let outputs ← readAll (word eof 8)
  let attributes ← readAll readAttr
  pure ⟨id, name, opName, opVersion, inputs, outputs, attributes⟩

def readPair : Reader (String × String) := do
  let key ← readStr
  let value ← readStr
  pure (key, value)

def readCodec : Reader Unit := do
  let codec ← word eof 4
  if codec = 1 then pure ()
  else throw (.error .invalidArgument ("unsupported UAII binary codec version " ++ Nat.repr codec))

def readVersion : Reader IrVersion := do
  let major ← word eof 4
  let minor ← word eof 4
  match checkCompatible ⟨major, minor⟩ with
  | .ok _ => pure ⟨major, minor⟩
  | .error e => throw e

/-- `g.metadata[k] = v` for each pair. -/
def metadataOf (pairs : List (String × String)) : List (String × String) :=
  pairs.foldl (fun m kv => m.filter (·.1 != kv.1) ++ [kv]) []

def readGraph : Reader (Graph Double) := do
  let _ ← readCodec
  let version ← readVersion
  let name ← readStr
  let producer ← readStr
  let domain ← readStr
  let tensors ← readAll readTensor
  let nodes ← readAll readNode
  let inputs ← readAll (word eof 8)
  let outputs ← readAll (word eof 8)
  let pairs ← readAll readPair
  pure ⟨version, name, producer, domain, tensors, nodes, inputs, outputs, metadataOf pairs⟩

def graphFromBinary (bytes : List UInt8) : Result (Graph Double) :=
  if bytes.length < 16 ∨ bytes.take 4 ≠ kBinaryMagic then fail .invalidArgument "not a UAII binary IR file"
  else (readGraph.run (bytes.drop 4)).map (·.1)

/-! ## What fits -/

/-- One character a byte, and a length that is written in full. -/
def StrFits (s : String) : Prop := s.length < 2 ^ 32 ∧ ∀ c ∈ s.toList, c.toNat < 256

instance (s : String) : Decidable (StrFits s) := inferInstanceAs (Decidable (_ ∧ _))

def I64Fits (x : Int) : Prop := -2 ^ 63 ≤ x ∧ x < 2 ^ 63

def ListFits {α : Type} (P : α → Prop) (xs : List α) : Prop := xs.length < 2 ^ 32 ∧ ∀ x ∈ xs, P x

def ValueFits : AttributeValue Double → Prop
  | .string s => StrFits s
  | .int x => I64Fits x
  | .float _ => True
  | .bool _ => True
  | .intArray xs => ListFits I64Fits xs
  | .floatArray xs => xs.length < 2 ^ 32

def AttrFits (a : Attribute Double) : Prop := StrFits a.key ∧ ValueFits a.value

structure TensorFits (t : Tensor) : Prop where
  id : t.id < 2 ^ 64
  name : StrFits t.name
  shape : ListFits I64Fits t.shape
  weightRef : StrFits t.weightRef

structure NodeFits (n : Node Double) : Prop where
  id : n.id < 2 ^ 64
  name : StrFits n.name
  opName : StrFits n.opName
  opVersion : StrFits n.opVersion
  inputs : ListFits (· < 2 ^ 64) n.inputs
  outputs : ListFits (· < 2 ^ 64) n.outputs
  attributes : ListFits AttrFits n.attributes

/-- The values are of their C++ types, and no string or list has 2^32 elements. -/
structure GraphFits (g : Graph Double) : Prop where
  name : StrFits g.name
  producer : StrFits g.producer
  domain : StrFits g.domain
  tensors : ListFits TensorFits g.tensors
  nodes : ListFits NodeFits g.nodes
  inputs : ListFits (· < 2 ^ 64) g.inputs
  outputs : ListFits (· < 2 ^ 64) g.outputs
  metadata : ListFits (fun kv => StrFits kv.1 ∧ StrFits kv.2) g.metadata
  keys : (g.metadata.map (·.1)).Nodup

/-! ## Reading back -/

theorem toI64_word {x : Int} (h : I64Fits x) : toI64 (x % 2 ^ 64).toNat = x := by
  unfold I64Fits at h
  have hlt : (x % 2 ^ 64).toNat < 2 ^ 64 := by omega
  unfold toI64
  rw [wrap64_of_lt hlt]
  by_cases hpos : 0 ≤ x
  · rw [if_pos (by omega)]
    omega
  · rw [if_neg (by omega)]
    omega

theorem i64_reads {x : Int} (h : I64Fits x) : Reads readI64 (writeI64 x) x := by
  have hlt : (x % 2 ^ 64).toNat < 256 ^ 8 := by omega
  have hword : Reads (word eof 8) (leBytes 8 (x % 2 ^ 64).toNat) (x % 2 ^ 64).toNat := leBytes_reads eof hlt
  unfold readI64 writeI64
  refine hword.ret ?_
  rw [toI64_word h]

theorem f64_reads (x : Double) : Reads readF64 (writeF64 x) x := by
  have hlt : x.toNat < 256 ^ 8 := by
    have := x.isLt
    omega
  have hword : Reads (word eof 8) (leBytes 8 x.toNat) x.toNat := leBytes_reads eof hlt
  unfold readF64 writeF64
  refine hword.ret ?_
  rw [BitVec.ofNat_toNat, BitVec.setWidth_eq]

theorem bool_reads (b : Bool) : Reads readBool (writeBool b) b := by
  cases b with
  | false => exact (leBytes_reads eof (show 0 < 256 ^ 1 by decide)).ret rfl
  | true => exact (leBytes_reads eof (show 1 < 256 ^ 1 by decide)).ret rfl

theorem str_reads {s : String} (h : StrFits s) : Reads readStr (writeStr s) s := by
  have hbytes : (bytesOf s.toList).length = s.length := by rw [bytesOf, List.length_map, String.length_toList]
  have htake := Reads.take eof (bytesOf s.toList)
  rw [hbytes] at htake
  refine (leBytes_reads eof (show s.length < 256 ^ 4 from h.1)).chunk (htake.last ?_)
  show pure (String.ofList (textOf (bytesOf s.toList))) = _
  rw [textOf_bytesOf h.2, String.ofList_toList]

theorem all_reads {α β : Type} {r : Reader β} {w : α → List UInt8} {f : α → β} {P : α → Prop} {xs : List α}
    (h : ListFits P xs) (hr : ∀ x, P x → Reads r (w x) (f x)) : Reads (readAll r) (writeAll w xs) (xs.map f) := by
  have hmany := Reads.many fun x hx => hr x (h.2 x hx)
  refine (leBytes_reads eof (show xs.length < 256 ^ 4 from h.1)).chunk ?_
  rwa [List.flatten_singleton]

/-- Elements that are read back as they are. -/
theorem all_reads_self {α : Type} {r : Reader α} {w : α → List UInt8} {P : α → Prop} {xs : List α} (h : ListFits P xs)
    (hr : ∀ x, P x → Reads r (w x) x) : Reads (readAll r) (writeAll w xs) xs := by
  have hall := all_reads (f := id) h hr
  rwa [List.map_id] at hall

theorem ids_reads {ids : List Nat} (h : ListFits (· < 2 ^ 64) ids) :
    Reads (readAll (word eof 8)) (writeAll (leBytes 8) ids) ids := all_reads_self h fun _ hid => leBytes_reads eof hid

theorem value_reads {v : AttributeValue Double} (h : ValueFits v) :
    Reads (readValue (attributeTypeCode v)) (writeValue v) v := by
  cases v with
  | string s => exact (str_reads h).ret rfl
  | int x => exact (i64_reads h).ret rfl
  | float x => exact (f64_reads x).ret rfl
  | bool b => exact (bool_reads b).ret rfl
  | intArray xs => exact (all_reads_self h fun _ hx => i64_reads hx).ret rfl
  | floatArray xs =>
    have hxs : ListFits (fun _ : Double => True) xs := ⟨h, fun _ _ => trivial⟩
    exact (all_reads_self hxs fun x _ => f64_reads x).ret rfl

theorem attributeTypeCode_lt (v : AttributeValue Double) : attributeTypeCode v < 256 ^ 1 := by
  cases v <;> simp [attributeTypeCode]

theorem attr_reads {a : Attribute Double} (h : AttrFits a) : Reads readAttr (writeAttr a) a :=
  (str_reads h.1).chunk ((leBytes_reads eof (attributeTypeCode_lt a.value)).chunk ((value_reads h.2).last rfl))

theorem enum_reads {α : Type} {all : List α} {code : Nat} {e : α} (hlt : code < 256 ^ 1) (h : all[code]? = some e) :
    Reads (readEnum all) (leBytes 1 code) e := by
  refine (leBytes_reads eof hlt).ret ?_
  rw [h]

theorem dtype_reads (d : DType) : Reads (readEnum dtypes) (leBytes 1 (dtypeCode d)) d := by
  cases d <;> exact enum_reads (by decide) rfl

theorem storageHint_reads (hint : StorageHint) : Reads (readEnum storageHints) (leBytes 1 (storageHintCode hint)) hint := by
  cases hint <;> exact enum_reads (by decide) rfl

/-- A tensor without its quant format. -/
def dense (t : Tensor) : Tensor := { t with quantFormat := .f32 }

theorem tensor_reads {t : Tensor} (h : TensorFits t) : Reads readTensor (writeTensor t) (dense t) :=
  (leBytes_reads eof h.id).chunk <| (str_reads h.name).chunk <| (dtype_reads t.dtype).chunk <|
    (all_reads_self h.shape fun _ hd => i64_reads hd).chunk <| (storageHint_reads t.storageHint).chunk <|
      (bool_reads t.isWeight).chunk <| (str_reads h.weightRef).last rfl

theorem node_reads {n : Node Double} (h : NodeFits n) : Reads readNode (writeNode n) n :=
  (leBytes_reads eof h.id).chunk <| (str_reads h.name).chunk <| (str_reads h.opName).chunk <|
    (str_reads h.opVersion).chunk <| (ids_reads h.inputs).chunk <| (ids_reads h.outputs).chunk <|
      (all_reads_self h.attributes fun _ ha => attr_reads ha).last rfl

theorem pair_reads {kv : String × String} (h : StrFits kv.1 ∧ StrFits kv.2) : Reads readPair (writePair kv) kv :=
  (str_reads h.1).chunk ((str_reads h.2).last rfl)

theorem codec_reads : Reads readCodec (leBytes 4 1) () := (leBytes_reads eof (by decide)).ret rfl

/-- A supported version is 1.0. -/
theorem version_reads {v : IrVersion} (h : checkCompatible v = .ok ()) : Reads readVersion (writeVersion v) v := by
  have hv : isCompatible v = true := by
    by_contra hv
    rw [checkCompatible, if_neg hv] at h
    exact fail_ne_ok _ _ _ h
  simp [isCompatible, kCurrentIrVersion] at hv
  refine (leBytes_reads eof (show v.major < 256 ^ 4 by omega)).chunk ?_
  refine (leBytes_reads eof (show v.minor < 256 ^ 4 by omega)).last ?_
  rw [h]

theorem metadataOf_nodup {pairs : List (String × String)} (h : (pairs.map (·.1)).Nodup) : metadataOf pairs = pairs := by
  have hall : ∀ rest done : List (String × String), ((done ++ rest).map (·.1)).Nodup →
      rest.foldl (fun m kv => m.filter (·.1 != kv.1) ++ [kv]) done = done ++ rest := by
    intro rest
    induction rest with
    | nil => exact fun done _ => (List.append_nil done).symm
    | cons kv rest ih =>
      intro done hnd
      have hkeep : done.filter (·.1 != kv.1) = done := by
        refine List.filter_eq_self.mpr fun e he => ?_
        rw [List.map_append, List.nodup_append] at hnd
        simpa using hnd.2.2 e.1 (List.mem_map_of_mem he) kv.1 (List.mem_map_of_mem List.mem_cons_self)
      rw [List.foldl_cons, hkeep, ih, List.append_assoc]
      · rfl
      · rwa [List.append_assoc]
  exact hall pairs [] h

/-- What comes back. -/
def binaryImage (order : MetadataOrder) (g : Graph Double) : Graph Double :=
  { g with tensors := g.tensors.map dense, metadata := order.walk g.metadata }

theorem walked_fits (order : MetadataOrder) {g : Graph Double} (h : GraphFits g) :
    ListFits (fun kv => StrFits kv.1 ∧ StrFits kv.2) (order.walk g.metadata) := by
  have hwalk := order.perm g.metadata
  exact ⟨hwalk.length_eq ▸ h.metadata.1, fun kv hkv => h.metadata.2 kv (hwalk.mem_iff.mp hkv)⟩

theorem graph_reads (order : MetadataOrder) {g : Graph Double} (h : GraphFits g) (hv : checkCompatible g.version = .ok ()) :
    Reads readGraph (writeGraph order g) (binaryImage order g) := by
  have hwalk := order.perm g.metadata
  have hmeta := walked_fits order h
  have hkeys : metadataOf (order.walk g.metadata) = order.walk g.metadata :=
    metadataOf_nodup ((hwalk.map _).nodup_iff.mpr h.keys)
  refine codec_reads.chunk <| (version_reads hv).chunk <| (str_reads h.name).chunk <| (str_reads h.producer).chunk <|
    (str_reads h.domain).chunk <| (all_reads h.tensors fun _ ht => tensor_reads ht).chunk <|
      (all_reads_self h.nodes fun _ hn => node_reads hn).chunk <| (ids_reads h.inputs).chunk <|
        (ids_reads h.outputs).chunk <| (all_reads_self hmeta fun _ hkv => pair_reads hkv).last ?_
  rw [hkeys]
  rfl

theorem graphFromBinary_graphToBinary (order : MetadataOrder) {g : Graph Double} (h : GraphFits g)
    (hv : checkCompatible g.version = .ok ()) : graphFromBinary (graphToBinary order g) = .ok (binaryImage order g) := by
  have hlen : ¬ (graphToBinary order g).length < 16 := by
    simp only [graphToBinary, writeGraph, writeVersion, writeStr, kBinaryMagic, List.flatten_cons, List.length_append,
      leBytes_length, List.length_cons, List.length_nil]
    omega
  have hmagic : (graphToBinary order g).take 4 = kBinaryMagic := rfl
  unfold graphFromBinary
  rw [if_neg (not_or.mpr ⟨hlen, not_not.mpr hmagic⟩)]
  show Except.map _ (readGraph.run (writeGraph order g)) = _
  rw [(graph_reads order h hv).run]
  rfl

theorem binary_round_trip_iff (order : MetadataOrder) {g : Graph Double} (h : GraphFits g)
    (hv : checkCompatible g.version = .ok ()) : ∃ g', graphFromBinary (graphToBinary order g) = .ok g' ∧
      (SameGraph g' g ↔ ∀ t ∈ g.tensors, t.quantFormat = .f32) := by
  refine ⟨_, graphFromBinary_graphToBinary order h hv, ?_⟩
  apply Iff.intro
  · intro hsame t ht
    have htensors : g.tensors.map dense = g.tensors.map id := by
      rw [List.map_id]
      exact congrArg Graph.tensors hsame.1
    exact (congrArg Tensor.quantFormat (List.map_inj_left.mp htensors t ht)).symm
  · intro hdense
    have htensors : g.tensors.map dense = g.tensors := by
      refine (List.map_congr_left fun t ht => ?_).trans (List.map_id _)
      show dense t = t
      rw [dense, ← hdense t ht]
    refine ⟨?_, order.perm _⟩
    simp only [binaryImage, htensors]

/-- One weight. -/
def weightGraph (format : Quant.QuantFormat) : Graph Double :=
  ⟨kCurrentIrVersion, "m", "", "uaii", [⟨1, "w", .i8, [2, 32], .external, true, "m.gguf#w", format⟩], [], [], [1],
    [("k", "v")]⟩

theorem strFits_short {s : String} (hlen : s.length < 256) (hbytes : ∀ c ∈ s.toList, c.toNat < 256) : StrFits s :=
  ⟨by omega, hbytes⟩

theorem weightGraph_fits (format : Quant.QuantFormat) : GraphFits (weightGraph format) := by
  have hshort : ∀ {α : Type} (x : α), [x].length < 2 ^ 32 := fun _ => show 1 < 2 ^ 32 by omega
  have hnone : ∀ {α : Type} (P : α → Prop), ListFits P [] := fun _ => ⟨show 0 < 2 ^ 32 by omega, fun _ h => nomatch h⟩
  have hname : StrFits "m" := strFits_short (by decide) (by simp)
  have hproducer : StrFits "" := strFits_short (by decide) (by simp)
  have hdomain : StrFits "uaii" := strFits_short (by decide) (by simp)
  refine ⟨hname, hproducer, hdomain, ⟨hshort _, ?_⟩, hnone _, hnone _, ⟨hshort _, ?_⟩, ⟨hshort _, ?_⟩,
    List.pairwise_singleton _ _⟩
  · intro t ht
    rw [List.mem_singleton.mp ht]
    have hweight : StrFits "w" := strFits_short (by decide) (by simp)
    have hpath : StrFits "m.gguf#w" := strFits_short (by decide) (by simp)
    refine ⟨show (1 : Nat) < 2 ^ 64 by omega, hweight, ⟨show 2 < 2 ^ 32 by omega, ?_⟩, hpath⟩
    intro d hd
    have hd' : d = 2 ∨ d = 32 := by simpa using hd
    unfold I64Fits
    omega
  · intro id hid
    rw [List.mem_singleton.mp hid]
    show (1 : Nat) < 2 ^ 64
    omega
  · intro kv hkv
    rw [List.mem_singleton.mp hkv]
    exact ⟨strFits_short (by decide) (by simp), strFits_short (by decide) (by simp)⟩

theorem dense_weight_round_trip : ∃ g', graphFromBinary (graphToBinary .inserted (weightGraph .f32)) = .ok g' ∧
    (SameGraph g' (weightGraph .f32) ↔ ∀ t ∈ (weightGraph .f32).tensors, t.quantFormat = .f32) :=
  binary_round_trip_iff .inserted (weightGraph_fits .f32) rfl

/-- A packed weight comes back dense. -/
theorem packed_weight_lost : GraphFits (weightGraph .q4_0) ∧ checkCompatible (weightGraph .q4_0).version = .ok () ∧
    graphFromBinary (graphToBinary .inserted (weightGraph .q4_0)) = .ok (weightGraph .f32) ∧
    ¬ SameGraph (weightGraph .f32) (weightGraph .q4_0) := by
  refine ⟨weightGraph_fits _, rfl, graphFromBinary_graphToBinary .inserted (weightGraph_fits _) rfl, fun h => ?_⟩
  have htensors := congrArg Graph.tensors h.1
  exact absurd htensors (by decide)

end Uaii.Ir
