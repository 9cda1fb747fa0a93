/-
  Uaii.Ir.BinaryStrict — which bytes `graph_from_binary` accepts
  (`libs/uaii-ir/src/serialize_binary.cpp`).

  The reader casts bytes to enumerators and booleans and checks none of them, so what it
  reads is kept here as it stands in the file (`RawGraph`), with the casts beside it.

  Proved: what is accepted is what `graph_to_binary` writes for the graph that is
  returned exactly when nothing is left over and what was read is clean: declared
  enumerators, booleans 0 or 1, no metadata key twice (`strict_iff`).

  As built, none of this is looked at: a byte after the last section is accepted
  (`trailing_byte_accepted`).
-/

import Uaii.Ir.SerializeBinary

namespace Uaii.Ir

open Codec

/-! ## What is read -/

structure RawTensor where
  id : Nat
  name : String
  dtype : Nat
  shape : List Int
  storageHint : Nat
  isWeight : Nat
  weightRef : String

inductive RawValue where
  | bool (byte : Nat)
  /-- Of any other type. -/
  | value (v : AttributeValue Double)

structure RawAttr where
  key : String
  value : RawValue

structure RawNode where
  id : Nat
  name : String
  opName : String
  opVersion : String
  inputs : List Nat
  outputs : List Nat
  attributes : List RawAttr

structure RawGraph where
  version : IrVersion
  name : String
  producer : String
  domain : String
  tensors : List RawTensor
  nodes : List RawNode
  inputs : List Nat
  outputs : List Nat
  metadata : List (String × String)

def readRawTensor : Reader RawTensor := do
  let id ← word eof 8
  let name ← readStr
  let dtype ← word eof 1
  let shape ← readAll readI64
  let hint ← word eof 1
  let isWeight ← word eof 1
  let weightRef ← readStr
  pure ⟨id, name, dtype, shape, hint, isWeight, weightRef⟩

def readRawValue : Nat → Reader RawValue
  | 3 => do
    let b ← word eof 1
    pure (.bool b)
  | type => do
    let v ← readValue type
    pure (.value v)

def readRawAttr : Reader RawAttr := do
  let key ← readStr
  let type ← word eof 1
  let value ← readRawValue type
  pure ⟨key, value⟩

def readRawNode : Reader RawNode := do
  let id ← word eof 8
  let name ← readStr
  let opName ← readStr
  let opVersion ← readStr
  let inputs ← readAll (word eof 8)
  let outputs ← readAll (word eof 8)
  let attributes ← readAll readRawAttr
  pure ⟨id, name, opName, opVersion, inputs, outputs, attributes⟩

def readRawGraph : Reader RawGraph := do
  let _ ← readCodec
  let version ← readVersion
  let name ← readStr
  let producer ← readStr
  let domain ← readStr
  let tensors ← readAll readRawTensor
  let nodes ← readAll readRawNode
  let inputs ← readAll (word eof 8)
  let outputs ← readAll (word eof 8)
  let pairs ← readAll readPair
  pure ⟨version, name, producer, domain, tensors, nodes, inputs, outputs, pairs⟩

/-- The sections of a file that is accepted, and the bytes after them. -/
def sections (bytes : List UInt8) : Result (RawGraph × List UInt8) :=
  if bytes.length < 16 ∨ bytes.take 4 ≠ kBinaryMagic then fail .invalidArgument "not a UAII binary IR file"
  else readRawGraph.run (bytes.drop 4)

theorem readRawValue_of_ne {type : Nat} (h : type ≠ 3) :
    readRawValue type = readValue type >>= fun v => pure (.value v) := by
  unfold readRawValue
  split
  · exact absurd rfl h
  · rfl

/-! ## The casts -/

/-- An enumerator that is not declared has no name here. -/
def RawTensor.tensor (t : RawTensor) : Tensor :=
  ⟨t.id, t.name, dtypes.getD t.dtype .unknown, t.shape, storageHints.getD t.storageHint .unspecified, t.isWeight != 0, t.weightRef, .f32⟩

def RawValue.cast : RawValue → AttributeValue Double
  | .bool b => .bool (b != 0)
  | .value v => v

def RawAttr.attr (a : RawAttr) : Attribute Double := ⟨a.key, a.value.cast⟩

def RawNode.node (n : RawNode) : Node Double :=
  ⟨n.id, n.name, n.opName, n.opVersion, n.inputs, n.outputs, n.attributes.map RawAttr.attr⟩

/-- The graph that is returned. -/
def RawGraph.graph (g : RawGraph) : Graph Double :=
  ⟨g.version, g.name, g.producer, g.domain, g.tensors.map RawTensor.tensor, g.nodes.map RawNode.node, g.inputs, g.outputs,
    metadataOf g.metadata⟩

def RawTensor.Clean (t : RawTensor) : Prop := t.dtype < dtypes.length ∧ t.storageHint < storageHints.length ∧ t.isWeight ≤ 1

def RawValue.Clean : RawValue → Prop
  | .bool b => b ≤ 1
  | .value _ => True

def RawNode.Clean (n : RawNode) : Prop := ∀ a ∈ n.attributes, a.value.Clean

/-- Declared enumerators, booleans of 0 and 1, and no key twice. -/
structure RawGraph.Clean (g : RawGraph) : Prop where
  tensors : ∀ t ∈ g.tensors, t.Clean
  nodes : ∀ n ∈ g.nodes, n.Clean
  keys : (g.metadata.map (·.1)).Nodup

/-- What is accepted is an encoding of what is returned. -/
def ReadsStrictly (bytes : List UInt8) : Prop :=
  ∀ raw rest, sections bytes = .ok (raw, rest) → ∃ g order, graphFromBinary bytes = .ok g ∧ GraphFits g ∧
    bytes = graphToBinary order g

/-! ## What was taken -/

theorem i64_echoes : Echoes readI64 (fun _ => True) id writeI64 I64Fits := by
  intro s x rest hrun _
  obtain ⟨n, s', hword, hrun⟩ := bind_taken hrun
  cases hrun
  obtain ⟨rfl, hlt⟩ := word_echoes eof 8 s n rest hword trivial
  rw [id] at hlt ⊢
  have hsame : (toI64 n % 2 ^ 64).toNat = n := by
    unfold toI64
    rw [wrap64_of_lt (by omega)]
    split <;> omega
  refine ⟨by rw [id, writeI64, hsame], ?_⟩
  unfold I64Fits id toI64
  rw [wrap64_of_lt (by omega)]
  split <;> omega

theorem f64_echoes : Echoes readF64 (fun _ => True) id writeF64 (fun _ => True) := by
  intro s x rest hrun _
  obtain ⟨n, s', hword, hrun⟩ := bind_taken hrun
  cases hrun
  obtain ⟨rfl, hlt⟩ := word_echoes eof 8 s n rest hword trivial
  rw [id] at hlt ⊢
  refine ⟨?_, trivial⟩
  rw [id, writeF64, BitVec.toNat_ofNat, Nat.mod_eq_of_lt (by omega)]

theorem char_byte (b : UInt8) : (Char.ofNat b.toNat).toNat = b.toNat := by
  have hall : ∀ n : Fin 256, (Char.ofNat n.val).toNat = n.val := by decide +kernel
  exact hall ⟨b.toNat, b.toNat_lt⟩

theorem str_echoes : Echoes readStr (fun _ => True) id writeStr StrFits := by
  intro s x rest hrun _
  obtain ⟨n, s', hword, hrun⟩ := bind_taken hrun
  obtain ⟨bytes, s'', htake, hrun⟩ := bind_taken hrun
  cases hrun
  obtain ⟨rfl, hlt⟩ := word_echoes eof 4 s n s' hword trivial
  obtain ⟨rfl, hlen⟩ := take_taken htake
  have hback : (bytes.map fun b => Char.ofNat b.toNat).map (fun c => UInt8.ofNat c.toNat) = bytes := by
    rw [List.map_map]
    refine (List.map_congr_left fun b _ => ?_).trans (List.map_id bytes)
    show UInt8.ofNat (Char.ofNat b.toNat).toNat = b
    rw [char_byte, UInt8.ofNat_toNat]
  refine ⟨?_, ?_, ?_⟩
  · rw [id, id, writeStr, String.toList_ofList, hback, String.length_ofList, List.length_map, hlen]
    simp
  · rw [id, String.length_ofList, List.length_map, hlen]
    exact hlt
  · rw [id, String.toList_ofList]
    intro c hc
    obtain ⟨b, -, rfl⟩ := List.mem_map.mp hc
    rw [char_byte]
    exact b.toNat_lt

theorem all_echoes {α β : Type} {r : Reader α} {clean : α → Prop} {f : α → β} {w : β → List UInt8} {P : β → Prop}
    (h : Echoes r clean f w P) :
    Echoes (readAll r) (fun xs => ∀ x ∈ xs, clean x) (List.map f) (writeAll w) (ListFits P) := by
  intro s xs rest hrun hclean
  obtain ⟨n, s', hword, hmany⟩ := bind_taken hrun
  obtain ⟨rfl, hlt⟩ := word_echoes eof 4 s n s' hword trivial
  obtain ⟨rfl, hlen, hP⟩ := h.many n s' xs rest hmany hclean
  refine ⟨?_, ?_, hP⟩
  · rw [id, writeAll, hlen]
    simp
  · rw [hlen]
    exact hlt

theorem all_echoes_self {α : Type} {r : Reader α} {w : α → List UInt8} {P : α → Prop} (h : Echoes r (fun _ => True) id w P) :
    Echoes (readAll r) (fun _ => True) id (writeAll w) (ListFits P) := by
  intro s xs rest hrun _
  have hall := all_echoes h s xs rest hrun fun _ _ => trivial
  rwa [List.map_id] at hall

theorem ids_echo : Echoes (readAll (word eof 8)) (fun _ => True) id (writeAll (leBytes 8)) (ListFits (· < 2 ^ 64)) :=
  all_echoes_self (word_echoes eof 8)

theorem dtypeCode_declared : ∀ n < dtypes.length, dtypeCode (dtypes.getD n .unknown) = n := by decide

theorem storageHintCode_declared : ∀ n < storageHints.length, storageHintCode (storageHints.getD n .unspecified) = n := by decide

/-- A boolean byte is the one written for it. -/
theorem writeBool_byte {b : Nat} (h : b ≤ 1) : writeBool (b != 0) = leBytes 1 b := by
  rcases Nat.le_one_iff_eq_zero_or_eq_one.mp h with rfl | rfl
  · rfl
  · rfl

theorem tensor_echoes : Echoes readRawTensor RawTensor.Clean RawTensor.tensor writeTensor TensorFits := by
  intro s t rest hrun hclean
  obtain ⟨tid, s₁, hid, hrun⟩ := bind_taken hrun
  obtain ⟨name, s₂, hname, hrun⟩ := bind_taken hrun
  obtain ⟨dtype, s₃, hdtype, hrun⟩ := bind_taken hrun
  obtain ⟨shape, s₄, hshape, hrun⟩ := bind_taken hrun
  obtain ⟨hint, s₅, hhint, hrun⟩ := bind_taken hrun
  obtain ⟨isWeight, s₆, hweight, hrun⟩ := bind_taken hrun
  obtain ⟨weightRef, s₇, href, hrun⟩ := bind_taken hrun
  cases hrun
  obtain ⟨hd, hh, hw⟩ := hclean
  obtain ⟨rfl, hidFits⟩ := word_echoes eof 8 _ _ _ hid trivial
  obtain ⟨rfl, hnameFits⟩ := str_echoes _ _ _ hname trivial
  obtain ⟨rfl, -⟩ := word_echoes eof 1 _ _ _ hdtype trivial
  obtain ⟨rfl, hshapeFits⟩ := all_echoes_self i64_echoes _ _ _ hshape trivial
  obtain ⟨rfl, -⟩ := word_echoes eof 1 _ _ _ hhint trivial
  obtain ⟨rfl, -⟩ := word_echoes eof 1 _ _ _ hweight trivial
  obtain ⟨rfl, hrefFits⟩ := str_echoes _ _ _ href trivial
  refine ⟨?_, hidFits, hnameFits, hshapeFits, hrefFits⟩
  have hdtypeByte : dtypeCode (dtypes.getD dtype .unknown) = dtype := dtypeCode_declared dtype hd
  have hhintByte : storageHintCode (storageHints.getD hint .unspecified) = hint := storageHintCode_declared hint hh
  have hweightByte : writeBool (isWeight != 0) = leBytes 1 isWeight := writeBool_byte hw
  simp only [writeTensor, RawTensor.tensor, hdtypeByte, hhintByte, hweightByte, id_eq, List.flatten_cons, List.flatten_nil,
    List.append_nil, List.append_assoc]

/-- A value tells its type. -/
theorem value_echoes {type : Nat} (h : type ≠ 3) : Echoes (readValue type) (fun _ => True) id writeValue
    fun v => attributeTypeCode v = type ∧ ValueFits v := by
  intro s v rest hrun _
  rcases type with _ | _ | _ | _ | _ | _ | type
  · obtain ⟨x, s', hx, hrun⟩ := bind_taken hrun
    cases hrun
    obtain ⟨rfl, hfits⟩ := str_echoes _ _ _ hx trivial
    exact ⟨rfl, rfl, hfits⟩
  · obtain ⟨x, s', hx, hrun⟩ := bind_taken hrun
    cases hrun
    obtain ⟨rfl, hfits⟩ := i64_echoes _ _ _ hx trivial
    exact ⟨rfl, rfl, hfits⟩
  · obtain ⟨x, s', hx, hrun⟩ := bind_taken hrun
    cases hrun
    obtain ⟨rfl, -⟩ := f64_echoes _ _ _ hx trivial
    exact ⟨rfl, rfl, trivial⟩
  · exact absurd rfl h
  · obtain ⟨x, s', hx, hrun⟩ := bind_taken hrun
    cases hrun
    obtain ⟨rfl, hfits⟩ := all_echoes_self i64_echoes _ _ _ hx trivial
    exact ⟨rfl, rfl, hfits⟩
  · obtain ⟨x, s', hx, hrun⟩ := bind_taken hrun
    cases hrun
    obtain ⟨rfl, hfits⟩ := all_echoes_self f64_echoes _ _ _ hx trivial
    exact ⟨rfl, rfl, hfits.1⟩
  · cases hrun

theorem attr_echoes : Echoes readRawAttr (fun a => a.value.Clean) RawAttr.attr writeAttr AttrFits := by
  intro s a rest hrun hclean
  obtain ⟨key, s₁, hkey, hrun⟩ := bind_taken hrun
  obtain ⟨type, s₂, htype, hrun⟩ := bind_taken hrun
  obtain ⟨value, s₃, hvalue, hrun⟩ := bind_taken hrun
  cases hrun
  obtain ⟨rfl, hkeyFits⟩ := str_echoes _ _ _ hkey trivial
  obtain ⟨rfl, -⟩ := word_echoes eof 1 _ _ _ htype trivial
  by_cases hbool : type = 3
  · subst hbool
    obtain ⟨b, s', hb, hrun⟩ := bind_taken hvalue
    cases hrun
    obtain ⟨rfl, -⟩ := word_echoes eof 1 _ _ _ hb trivial
    refine ⟨?_, hkeyFits, trivial⟩
    have hbyte : writeBool (b != 0) = leBytes 1 b := writeBool_byte hclean
    simp [writeAttr, RawAttr.attr, RawValue.cast, writeValue, attributeTypeCode, hbyte]
  · rw [readRawValue_of_ne hbool] at hvalue
    obtain ⟨v, s', hv, hrun⟩ := bind_taken hvalue
    cases hrun
    obtain ⟨rfl, hcode, hfits⟩ := value_echoes hbool _ _ _ hv trivial
    refine ⟨?_, hkeyFits, hfits⟩
    have hcode' : attributeTypeCode v = type := hcode
    simp [writeAttr, RawAttr.attr, RawValue.cast, hcode']

theorem node_echoes : Echoes readRawNode RawNode.Clean RawNode.node writeNode NodeFits := by
  intro s n rest hrun hclean
  obtain ⟨tid, s₁, hid, hrun⟩ := bind_taken hrun
  obtain ⟨name, s₂, hname, hrun⟩ := bind_taken hrun
  obtain ⟨opName, s₃, hop, hrun⟩ := bind_taken hrun
  obtain ⟨opVersion, s₄, hversion, hrun⟩ := bind_taken hrun
  obtain ⟨inputs, s₅, hin, hrun⟩ := bind_taken hrun
  obtain ⟨outputs, s₆, hout, hrun⟩ := bind_taken hrun
  obtain ⟨attributes, s₇, hattrs, hrun⟩ := bind_taken hrun
  cases hrun
  obtain ⟨rfl, hidFits⟩ := word_echoes eof 8 _ _ _ hid trivial
  obtain ⟨rfl, hnameFits⟩ := str_echoes _ _ _ hname trivial
  obtain ⟨rfl, hopFits⟩ := str_echoes _ _ _ hop trivial
  obtain ⟨rfl, hversionFits⟩ := str_echoes _ _ _ hversion trivial
  obtain ⟨rfl, hinFits⟩ := ids_echo _ _ _ hin trivial
  obtain ⟨rfl, houtFits⟩ := ids_echo _ _ _ hout trivial
  obtain ⟨rfl, hattrsFit⟩ := all_echoes attr_echoes _ _ _ hattrs hclean
  refine ⟨?_, hidFits, hnameFits, hopFits, hversionFits, hinFits, houtFits, hattrsFit⟩
  simp [writeNode, RawNode.node]

theorem pair_echoes : Echoes readPair (fun _ => True) id writePair fun kv => StrFits kv.1 ∧ StrFits kv.2 := by
  intro s kv rest hrun _
  obtain ⟨key, s₁, hkey, hrun⟩ := bind_taken hrun
  obtain ⟨value, s₂, hvalue, hrun⟩ := bind_taken hrun
  cases hrun
  obtain ⟨rfl, hkeyFits⟩ := str_echoes _ _ _ hkey trivial
  obtain ⟨rfl, hvalueFits⟩ := str_echoes _ _ _ hvalue trivial
  exact ⟨by simp [writePair], hkeyFits, hvalueFits⟩

theorem codec_echoes : Echoes readCodec (fun _ => True) id (fun _ => leBytes 4 1) fun _ => True := by
  intro s x rest hrun _
  obtain ⟨codec, s', hword, hcheck⟩ := bind_taken hrun
  obtain ⟨rfl, -⟩ := word_echoes eof 4 _ _ _ hword trivial
  by_cases h : codec = 1
  · subst h
    cases hcheck
    exact ⟨rfl, trivial⟩
  · rw [if_neg h] at hcheck
    cases hcheck

theorem version_echoes : Echoes readVersion (fun _ => True) id writeVersion fun v => checkCompatible v = .ok () := by
  intro s v rest hrun _
  obtain ⟨major, s₁, hmajor, hrun⟩ := bind_taken hrun
  obtain ⟨minor, s₂, hminor, hcheck⟩ := bind_taken hrun
  obtain ⟨rfl, -⟩ := word_echoes eof 4 _ _ _ hmajor trivial
  obtain ⟨rfl, -⟩ := word_echoes eof 4 _ _ _ hminor trivial
  cases hc : checkCompatible ⟨major, minor⟩ with
  | error e => rw [hc] at hcheck; cases hcheck
  | ok u =>
    rw [hc] at hcheck
    cases hcheck
    exact ⟨by simp [writeVersion], hc⟩

/-- What is written after the magic for a graph that is read clean. -/
theorem graph_echoes : Echoes readRawGraph RawGraph.Clean RawGraph.graph (writeGraph .inserted)
    fun g => GraphFits g ∧ checkCompatible g.version = .ok () := by
  intro s g rest hrun hclean
  obtain ⟨_, s₁, hcodec, hrun⟩ := bind_taken hrun
  obtain ⟨version, s₂, hversion, hrun⟩ := bind_taken hrun
  obtain ⟨name, s₃, hname, hrun⟩ := bind_taken hrun
  obtain ⟨producer, s₄, hproducer, hrun⟩ := bind_taken hrun
  obtain ⟨domain, s₅, hdomain, hrun⟩ := bind_taken hrun
  obtain ⟨tensors, s₆, htensors, hrun⟩ := bind_taken hrun
  obtain ⟨nodes, s₇, hnodes, hrun⟩ := bind_taken hrun
  obtain ⟨inputs, s₈, hin, hrun⟩ := bind_taken hrun
  obtain ⟨outputs, s₉, hout, hrun⟩ := bind_taken hrun
  obtain ⟨pairs, s₁₀, hpairs, hrun⟩ := bind_taken hrun
  cases hrun
  have hkeys : (pairs.map (·.1)).Nodup := hclean.keys
  obtain ⟨rfl, -⟩ := codec_echoes _ _ _ hcodec trivial
  obtain ⟨rfl, hcompat⟩ := version_echoes _ _ _ hversion trivial
  obtain ⟨rfl, hnameFits⟩ := str_echoes _ _ _ hname trivial
  obtain ⟨rfl, hproducerFits⟩ := str_echoes _ _ _ hproducer trivial
  obtain ⟨rfl, hdomainFits⟩ := str_echoes _ _ _ hdomain trivial
  obtain ⟨rfl, htensorsFit⟩ := all_echoes tensor_echoes _ _ _ htensors hclean.tensors
  obtain ⟨rfl, hnodesFit⟩ := all_echoes node_echoes _ _ _ hnodes hclean.nodes
  obtain ⟨rfl, hinFits⟩ := ids_echo _ _ _ hin trivial
  obtain ⟨rfl, houtFits⟩ := ids_echo _ _ _ hout trivial
  obtain ⟨rfl, hpairsFit⟩ := all_echoes_self pair_echoes _ _ _ hpairs trivial
  have hmetadata : metadataOf pairs = pairs := metadataOf_nodup hkeys
  refine ⟨?_, ⟨hnameFits, hproducerFits, hdomainFits, htensorsFit, hnodesFit, hinFits, houtFits, ?_, ?_⟩, hcompat⟩
  · simp [writeGraph, RawGraph.graph, hmetadata, MetadataOrder.inserted]
  · show ListFits _ (metadataOf pairs)
    rw [hmetadata]
    exact hpairsFit
  · show ((metadataOf pairs).map (·.1)).Nodup
    rw [hmetadata]
    exact hkeys

/-! ## What is written is clean -/

/-- What stands in a file for a tensor. -/
def rawTensor (t : Tensor) : RawTensor :=
  ⟨t.id, t.name, dtypeCode t.dtype, t.shape, storageHintCode t.storageHint, if t.isWeight then 1 else 0, t.weightRef⟩

def rawValue : AttributeValue Double → RawValue
  | .bool b => .bool (if b then 1 else 0)
  | v => .value v

def rawAttr (a : Attribute Double) : RawAttr := ⟨a.key, rawValue a.value⟩

def rawNode (n : Node Double) : RawNode :=
  ⟨n.id, n.name, n.opName, n.opVersion, n.inputs, n.outputs, n.attributes.map rawAttr⟩

def rawGraph (order : MetadataOrder) (g : Graph Double) : RawGraph :=
  ⟨g.version, g.name, g.producer, g.domain, g.tensors.map rawTensor, g.nodes.map rawNode, g.inputs, g.outputs,
    order.walk g.metadata⟩

theorem rawTensor_clean (t : Tensor) : (rawTensor t).Clean := by
  refine ⟨?_, ?_, ?_⟩
  · show dtypeCode t.dtype < dtypes.length
    cases t.dtype <;> decide
  · show storageHintCode t.storageHint < storageHints.length
    cases t.storageHint <;> decide
  · show (if t.isWeight then 1 else 0) ≤ 1
    cases t.isWeight <;> decide

theorem rawValue_clean (v : AttributeValue Double) : (rawValue v).Clean := by
  cases v with
  | bool b =>
    show (if b then 1 else 0) ≤ 1
    cases b <;> decide
  | _ => trivial

theorem rawNode_clean (n : Node Double) : (rawNode n).Clean := by
  intro a ha
  obtain ⟨b, -, rfl⟩ := List.mem_map.mp ha
  exact rawValue_clean b.value

theorem rawGraph_clean (order : MetadataOrder) {g : Graph Double} (h : GraphFits g) : (rawGraph order g).Clean := by
  refine ⟨?_, ?_, ?_⟩
  · intro t ht
    obtain ⟨u, -, rfl⟩ := List.mem_map.mp ht
    exact rawTensor_clean u
  · intro n hn
    obtain ⟨m, -, rfl⟩ := List.mem_map.mp hn
    exact rawNode_clean m
  · exact ((order.perm g.metadata).map (·.1)).nodup_iff.mpr h.keys

theorem byte_reads {n : Nat} (h : n < 256) : Reads (word eof 1) (leBytes 1 n) n := leBytes_reads eof (by omega)

theorem raw_tensor_reads {t : Tensor} (h : TensorFits t) : Reads readRawTensor (writeTensor t) (rawTensor t) := by
  have hdtype : dtypeCode t.dtype < 256 := by cases t.dtype <;> decide
  have hhint : storageHintCode t.storageHint < 256 := by cases t.storageHint <;> decide
  have hweight : (if t.isWeight then 1 else 0) < 256 := by split <;> decide
  exact (leBytes_reads eof h.id).chunk <| (str_reads h.name).chunk <| (byte_reads hdtype).chunk <|
    (all_reads_self h.shape fun _ hd => i64_reads hd).chunk <| (byte_reads hhint).chunk <| (byte_reads hweight).chunk <|
      (str_reads h.weightRef).last rfl

theorem raw_value_reads {v : AttributeValue Double} (h : ValueFits v) :
    Reads (readRawValue (attributeTypeCode v)) (writeValue v) (rawValue v) := by
  cases v with
  | bool b =>
    have hbyte : (if b then 1 else 0) < 256 := by split <;> decide
    exact (byte_reads hbyte).ret rfl
  | string s =>
    rw [readRawValue_of_ne (by simp [attributeTypeCode])]
    exact (value_reads h).ret rfl
  | int x =>
    rw [readRawValue_of_ne (by simp [attributeTypeCode])]
    exact (value_reads h).ret rfl
  | float x =>
    rw [readRawValue_of_ne (by simp [attributeTypeCode])]
    exact (value_reads h).ret rfl
  | intArray xs =>
    rw [readRawValue_of_ne (by simp [attributeTypeCode])]
    exact (value_reads h).ret rfl
  | floatArray xs =>
    rw [readRawValue_of_ne (by simp [attributeTypeCode])]
    exact (value_reads h).ret rfl

theorem raw_attr_reads {a : Attribute Double} (h : AttrFits a) : Reads readRawAttr (writeAttr a) (rawAttr a) :=
  (str_reads h.1).chunk ((leBytes_reads eof (attributeTypeCode_lt a.value)).chunk ((raw_value_reads h.2).last rfl))

theorem raw_node_reads {n : Node Double} (h : NodeFits n) : Reads readRawNode (writeNode n) (rawNode n) :=
  (leBytes_reads eof h.id).chunk <| (str_reads h.name).chunk <| (str_reads h.opName).chunk <|
    (str_reads h.opVersion).chunk <| (ids_reads h.inputs).chunk <| (ids_reads h.outputs).chunk <|
      (all_reads h.attributes fun _ ha => raw_attr_reads ha).last rfl

theorem raw_graph_reads (order : MetadataOrder) {g : Graph Double} (h : GraphFits g) (hv : checkCompatible g.version = .ok ()) :
    Reads readRawGraph (writeGraph order g) (rawGraph order g) := by
  have hmeta := walked_fits order h
  exact codec_reads.chunk <| (version_reads hv).chunk <| (str_reads h.name).chunk <| (str_reads h.producer).chunk <|
    (str_reads h.domain).chunk <| (all_reads h.tensors fun _ ht => raw_tensor_reads ht).chunk <|
      (all_reads h.nodes fun _ hn => raw_node_reads hn).chunk <| (ids_reads h.inputs).chunk <|
        (ids_reads h.outputs).chunk <| (all_reads_self hmeta fun _ hkv => pair_reads hkv).last rfl

/-! ## What is accepted -/

theorem readVersion_gives : Gives readVersion fun v => checkCompatible v = .ok () := fun s v rest h =>
  (version_echoes s v rest h trivial).2

/-- What is returned is of a version that is supported. -/
theorem readGraph_gives : Gives readGraph fun g => checkCompatible g.version = .ok () :=
  (Gives.any _).bind fun _ _ => readVersion_gives.bind fun _ hv => (Gives.any _).bind fun _ _ => (Gives.any _).bind fun _ _ =>
    (Gives.any _).bind fun _ _ => (Gives.any _).bind fun _ _ => (Gives.any _).bind fun _ _ => (Gives.any _).bind fun _ _ =>
      (Gives.any _).bind fun _ _ => (Gives.any _).bind fun _ _ => Gives.pure hv

theorem graphFromBinary_version {bytes : List UInt8} {g : Graph Double} (h : graphFromBinary bytes = .ok g) :
    checkCompatible g.version = .ok () := by
  unfold graphFromBinary at h
  split at h
  · cases h
  · cases hr : readGraph.run (bytes.drop 4) with
    | error e => rw [hr] at h; cases h
    | ok p =>
      obtain ⟨g', rest⟩ := p
      rw [hr] at h
      cases h
      exact readGraph_gives _ _ _ hr

theorem graphToBinary_drop (order : MetadataOrder) (g : Graph Double) : (graphToBinary order g).drop 4 = writeGraph order g := rfl

theorem sections_run {bytes rest : List UInt8} {raw : RawGraph} (h : sections bytes = .ok (raw, rest)) :
    readRawGraph.run (bytes.drop 4) = .ok (raw, rest) ∧ bytes = kBinaryMagic ++ bytes.drop 4 := by
  unfold sections at h
  split at h
  · cases h
  · rename_i hmagic
    refine ⟨h, ?_⟩
    rw [← not_not.mp (not_or.mp hmagic).2, List.take_append_drop]

/-- Nothing of a clean graph is lost. -/
theorem RawGraph.graph_dense {g : RawGraph} (order : MetadataOrder) (h : order.walk g.graph.metadata = g.graph.metadata) :
    binaryImage order g.graph = g.graph := by
  have htensors : g.graph.tensors.map dense = g.graph.tensors := by
    show (g.tensors.map RawTensor.tensor).map dense = g.tensors.map RawTensor.tensor
    rw [List.map_map]
    rfl
  unfold binaryImage
  rw [htensors, h]

/-- What is accepted is what is written for the graph that is returned, up to the order of
    the metadata, exactly when nothing is left over and what was read is clean. -/
theorem strict_iff (bytes : List UInt8) :
    ReadsStrictly bytes ↔ ∀ raw rest, sections bytes = .ok (raw, rest) → rest = [] ∧ raw.Clean := by
  apply Iff.intro
  · intro hstrict raw rest hsections
    obtain ⟨g, order, hread, hfits, rfl⟩ := hstrict raw rest hsections
    have hrun := (sections_run hsections).1
    rw [graphToBinary_drop, (raw_graph_reads order hfits (graphFromBinary_version hread)).run] at hrun
    cases hrun
    exact ⟨rfl, rawGraph_clean order hfits⟩
  · intro hclean raw rest hsections
    obtain ⟨rfl, hraw⟩ := hclean raw rest hsections
    obtain ⟨hrun, hbytes⟩ := sections_run hsections
    obtain ⟨hwritten, hfits, hv⟩ := graph_echoes _ _ _ hrun hraw
    rw [List.append_nil] at hwritten
    have hwhole : bytes = graphToBinary .inserted raw.graph := by rw [hbytes, hwritten, graphToBinary]
    refine ⟨raw.graph, .inserted, ?_, hfits, hwhole⟩
    rw [hwhole, graphFromBinary_graphToBinary .inserted hfits hv, RawGraph.graph_dense .inserted rfl]

/-- What follows the last section is not looked at. -/
theorem appended_accepted (order : MetadataOrder) {g : Graph Double} (h : GraphFits g) (hv : checkCompatible g.version = .ok ())
    (rest : List UInt8) : graphFromBinary (graphToBinary order g ++ rest) = .ok (binaryImage order g) ∧
      sections (graphToBinary order g ++ rest) = .ok (rawGraph order g, rest) := by
  have hlen : ¬ (graphToBinary order g ++ rest).length < 16 := by
    simp only [graphToBinary, writeGraph, writeVersion, writeStr, kBinaryMagic, List.flatten_cons, List.length_append,
      leBytes_length, List.length_cons, List.length_nil]
    omega
  have hmagic : (graphToBinary order g ++ rest).take 4 = kBinaryMagic := rfl
  have hguard : ¬ ((graphToBinary order g ++ rest).length < 16 ∨ (graphToBinary order g ++ rest).take 4 ≠ kBinaryMagic) :=
    not_or.mpr ⟨hlen, not_not.mpr hmagic⟩
  apply And.intro
  · unfold graphFromBinary
    rw [if_neg hguard]
    show Except.map _ (readGraph.run (writeGraph order g ++ rest)) = _
    rw [graph_reads order h hv rest]
    rfl
  · unfold sections
    rw [if_neg hguard]
    exact raw_graph_reads order h hv rest

/-- A byte after the last section. -/
theorem trailing_byte_accepted :
    graphFromBinary (graphToBinary .inserted (weightGraph .f32) ++ [0]) = .ok (weightGraph .f32) ∧
    ¬ ReadsStrictly (graphToBinary .inserted (weightGraph .f32) ++ [0]) := by
  obtain ⟨hread, hsections⟩ := appended_accepted .inserted (weightGraph_fits .f32) rfl [0]
  refine ⟨hread, fun hstrict => ?_⟩
  obtain ⟨g, order, hg, hfits, hbytes⟩ := hstrict _ _ hsections
  have hagain := (appended_accepted order hfits (graphFromBinary_version hg) []).2
  rw [List.append_nil, ← hbytes, hsections] at hagain
  have hleft : [0] = ([] : List UInt8) := (Prod.mk.inj (Except.ok.inj hagain)).2
  exact List.cons_ne_nil _ _ hleft

end Uaii.Ir
