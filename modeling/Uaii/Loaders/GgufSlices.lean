/-
  Uaii.Loaders.GgufSlices — one expert of a bank, and the bank
  (`libs/uaii-loaders/src/gguf.cpp`: `gguf_load_tensor_f32` and `gguf_load_tensor_raw` of
  `name#e=k` and of `name`).

  Each stored type is blocks of one size, of one element for the dense types
  (`loaderKernel`), so a load is a read and the decoding of what was read.

  Proved: where the bank is loaded, its `k`-th expert is loaded as the bank's `k`-th part
  exactly when the number of elements is a multiple of the experts and, of an `I8` bank,
  the bytes at four times the offset are the expert's (`expert_slice_iff`).

  As built, the offset into an `I8` bank is that of floats (`i8_expert_differs`).
-/

import Mathlib.Data.Int.Cast.Lemmas
import Uaii.Lib.TextStream
import Uaii.Loaders.GgufPaths
import Uaii.Quant.GgufRows

namespace Uaii.Loaders

open Uaii.Quant
open TextStream (decimal)

/-! ## Names -/

/-- `name + "#e=" + std::to_string(e)`. -/
def sliceName (name : String) (e : Nat) : String := String.ofList (name.toList ++ ['#', 'e', '='] ++ decimal e)

/-- The suffix does not begin in what it is added to. -/
theorem not_prefix_added {c : Char} {cs : List Char} (h : ¬ ['#', 'e', '='].isPrefixOf (c :: cs) = true) (rest : List Char) :
    ¬ ['#', 'e', '='].isPrefixOf (c :: (cs ++ ['#', 'e', '='] ++ rest)) = true := by
  rcases cs with _ | ⟨d, _ | ⟨d', cs⟩⟩
  · simp [List.isPrefixOf]
  · simp [List.isPrefixOf]
  · simpa [List.isPrefixOf] using h

/-- The suffix is found where it was added. -/
theorem findSlice_added {cs : List Char} (h : findSlice cs = none) (rest : List Char) :
    findSlice (cs ++ ['#', 'e', '='] ++ rest) = some (cs, rest) := by
  induction cs with
  | nil => rfl
  | cons c cs ih =>
    unfold findSlice at h
    split at h
    · cases h
    · rename_i hprefix
      have hrest : findSlice cs = none := by simpa using h
      show findSlice (c :: (cs ++ ['#', 'e', '='] ++ rest)) = _
      rw [findSlice, if_neg (not_prefix_added hprefix rest), ih hrest]
      rfl

theorem digit_not_space {c : Char} (h : c.isDigit = true) : c.isWhitespace = false := by
  have hcode : 48 ≤ c.toNat := by
    simp only [Char.isDigit, ge_iff_le, Bool.and_eq_true, decide_eq_true_eq] at h
    exact h.1
  by_contra hspace
  simp only [Char.isWhitespace, Bool.not_eq_false, Bool.or_eq_true, decide_eq_true_eq] at hspace
  rcases hspace with ((rfl | rfl) | rfl) | rfl <;> exact absurd hcode (by decide)

/-- `atoi` of what `to_string` prints for an `int`. -/
theorem atoi_decimal {e : Nat} (he : e < 2 ^ 31) : atoi (decimal e) = e := by
  obtain ⟨d, ds, hds, hd⟩ := TextStream.decimal_head e
  have hdigits : ∀ c ∈ d :: ds, c.isDigit = true := fun c hc => Decimal.toDigits_isDigit (n := e) (by rw [← hds] at hc; exact hc)
  have hvalue : (d :: ds).foldl (fun n c => n * 10 + (c.toNat - 48)) 0 = e := by
    have hten := Decimal.digits_toDigits e
    rw [← hds]
    rw [Decimal.digits, Nat.ofDigitChars_eq_foldl] at hten
    refine Eq.trans (congrArg (fun f => List.foldl f 0 (decimal e)) ?_) hten
    funext n c
    rw [Nat.mul_comm]
    rfl
  have hminus : d ≠ '-' := by
    rintro rfl
    cases hd
  have hplus : d ≠ '+' := by
    rintro rfl
    cases hd
  have hdrop : (d :: ds).dropWhile (·.isWhitespace) = d :: ds := List.dropWhile_cons_of_neg (by rw [digit_not_space hd]; exact Bool.false_ne_true)
  have htake : (d :: ds).takeWhile (·.isDigit) = d :: ds := List.takeWhile_eq_self_iff.mpr hdigits
  unfold atoi
  rw [hds]
  simp only [hdrop]
  split
  · rename_i h
    exact absurd (List.cons.inj h).1 hminus
  · rename_i h
    exact absurd (List.cons.inj h).1 hplus
  · simp only [htake, hvalue, Bool.false_eq_true, if_false]
    omega

theorem parseExpertSlice_name {name : String} (h : findSlice name.toList = none) : parseExpertSlice name = (name, -1) := by
  rw [parseExpertSlice, h]

theorem parseExpertSlice_sliceName {name : String} (h : findSlice name.toList = none) {e : Nat} (he : e < 2 ^ 31) :
    parseExpertSlice (sliceName name e) = (name, (e : Int)) := by
  rw [parseExpertSlice, sliceName, String.toList_ofList, findSlice_added h]
  show (String.ofList name.toList, atoi (decimal e)) = _
  rw [atoi_decimal he, String.ofList_toList]

/-! ## What is loaded, and from where -/

section Resolve

variable {file : GgufFile} {name : String} {info : GgufTensorInfo}

/-- The number of elements of the bank, of experts, and of elements of one expert. -/
def bankElems (info : GgufTensorInfo) : Nat := numelOf info.dims
def experts (info : GgufTensorInfo) : Nat := info.dims.getLast?.getD 0
def expertElems (info : GgufTensorInfo) : Nat := bankElems info / experts info

def wholeSlice (info : GgufTensorInfo) : TensorSlice := ⟨info, -1, 0, bankElems info⟩

def expertSlice (info : GgufTensorInfo) (e : Nat) : TensorSlice := ⟨info, e, e, expertElems info⟩

theorem resolve_whole (m : String) (hname : findSlice name.toList = none) (hinfo : file.tensors.find? (·.name == name) = some info) :
    resolveSlice m file name = .ok (wholeSlice info) := by
  unfold resolveSlice
  rw [parseExpertSlice_name hname]
  dsimp only
  rw [hinfo]
  rfl

theorem resolve_expert (m : String) (hname : findSlice name.toList = none) (hinfo : file.tensors.find? (·.name == name) = some info)
    (hrank : 3 ≤ info.dims.length) {e : Nat} (he : e < experts info) (hint : e < 2 ^ 31) :
    resolveSlice m file (sliceName name e) =
      if bankElems info % experts info = 0 then .ok (expertSlice info e)
      else fail .invalidArgument ("GGUF expert slice out of range for " ++ name) := by
  have hpos : experts info ≠ 0 := by omega
  have hneg : ¬ (e : Int) < 0 := by omega
  have hrank' : ¬ info.dims.length < 3 := by omega
  have hlt : ¬ (experts info : Int) ≤ e := by omega
  unfold resolveSlice
  rw [parseExpertSlice_sliceName hname hint]
  dsimp only
  rw [hinfo]
  dsimp only
  rw [if_neg hneg, if_neg hrank']
  show (if experts info = 0 ∨ bankElems info % experts info ≠ 0 ∨ (experts info : Int) ≤ e then _ else _) = _
  by_cases hmod : bankElems info % experts info = 0
  · rw [if_neg (by simp [hpos, hmod, he]), if_pos hmod]
    rfl
  · rw [if_pos (.inr (.inl hmod)), if_neg hmod]

end Resolve

section Load

variable {K : Type} [Ring K] (F : FloatBits K)

/-- `gguf_load_tensor_raw` of a slice, from the file's bytes. -/
def rawAt (data : List UInt8) (t : GgufType) (start nbytes : Nat) : Result (List UInt8) :=
  if !ggufTypeSupported t then fail .notImplemented ("unsupported GGUF type for raw load: " ++ t.toString)
  else if nbytes = 0 then fail .notImplemented ("unsupported GGUF type for raw load: " ++ t.toString)
  else (ByteReader.readBytes ⟨data, start⟩ nbytes).map (·.1)

theorem loadRaw_eq {fs : FileSystem} {file : GgufFile} {name : String} {s : TensorSlice} {data : List UInt8}
    (hs : resolveSlice "tensor not in gguf: " file name = .ok s) (hfs : fs file.path = some data) :
    ggufLoadTensorRaw fs file name = (rawAt data s.info.type (s.start file) s.nbytes).map fun b => (b, s.shape, s.info.type) := by
  simp only [ggufLoadTensorRaw, hs, ok_bind, rawAt, ByteReader.fromFile, hfs]
  split
  · rfl
  · split
    · rfl
    · show (ByteReader.readBytes ⟨data, s.start file⟩ s.nbytes >>= _) = _
      cases ByteReader.readBytes ⟨data, s.start file⟩ s.nbytes <;> rfl

/-- `gguf_load_tensor_f32` of a slice, from the file's bytes. -/
def loadAt (data : List UInt8) (t : GgufType) (start n nbytes : Nat) : Result (List K) :=
  if n > maxFloats then .error (.thrown "std::length_error")
  else
    match t with
    | .f32 => (ByteReader.readBytes ⟨data, start⟩ (wrap64 (n * 4))).map fun p => (List.range n).map fun i => F.f32 (u32At p.1 (4 * i))
    | .f16 => (ByteReader.readBytes ⟨data, start⟩ (wrap64 (n * 2))).map fun p => (List.range n).map fun i => F.f16 (u16At p.1 (2 * i))
    | .q8_0 =>
      if n % 32 ≠ 0 then fail .invalidArgument "Q8_0 numel not multiple of 32"
      else readBlocks (readBlockQ8_0 F) (n / 32) ⟨data, start⟩
    | .q4_0 =>
      if n % 32 ≠ 0 then fail .invalidArgument "Q4_0 numel not multiple of 32"
      else readBlocks (readBlockQ4_0 F) (n / 32) ⟨data, start⟩
    | .i8 => (ByteReader.readBytes ⟨data, start⟩ n).map fun p => p.1.map fun x => ((Quant.i8 x : Int) : K)
    | .q4_1 | .q5_0 | .q5_1 | .q2_k | .q3_k | .q4_k | .q5_k | .q6_k | .iq4_nl =>
      (rawAt data t start nbytes).bind fun packed => dequantGgufRow F (ggufTypeToQuant t) packed (toI64 n)
    | t =>
      fail .notImplemented ("unsupported GGUF dtype for f32 load: " ++ t.toString ++
        " (supported: F32/F16/Q4_0/Q4_1/Q5_*/Q8_0/Q*_K/IQ4_NL/I8)")

theorem loadF32_eq {fs : FileSystem} {file : GgufFile} {name : String} {s : TensorSlice} {data : List UInt8}
    (hs : ∀ m, resolveSlice m file name = .ok s) (hfs : fs file.path = some data) :
    ggufLoadTensorF32 F fs file name =
      (loadAt F data s.info.type (s.start file) s.n s.nbytes).map fun out => (out, s.shape) := by
  have hraw := loadRaw_eq (hs _) hfs
  simp only [ggufLoadTensorF32, hs, ok_bind, loadAt, ByteReader.fromFile, hfs, ByteReader.seek, hraw]
  split
  · rfl
  · have hq8 : ∀ x : Result (List K), (x >>= fun out => .ok (out, s.shape)) = x.map fun out => (out, s.shape) := by
      intro x
      cases x <;> rfl
    cases ht : s.info.type
    case q8_0 =>
      dsimp only
      split
      · rfl
      · exact hq8 _
    case q4_0 =>
      dsimp only
      split
      · rfl
      · exact hq8 _
    case f32 | f16 | i8 =>
      dsimp only
      generalize ByteReader.readBytes _ _ = x
      cases x <;> rfl
    case q4_1 | q5_0 | q5_1 | q2_k | q3_k | q4_k | q5_k | q6_k | iq4_nl =>
      dsimp only
      generalize rawAt _ _ _ _ = x
      cases x with
      | error e => rfl
      | ok packed =>
        have hqf : s.qf = ggufTypeToQuant s.info.type := rfl
        rw [hqf, ht]
        exact hq8 (dequantGgufRow F _ packed (toI64 s.n))
    all_goals rfl

end Load

/-! ## Blocks -/

section Blocks

variable {K : Type} [CommRing K] (F : FloatBits K)

/-- The loader's own `Q4_0`. -/
def pairKernelQ4_0 : RowKernel K where
  name := "Q4_0"
  qk := 32
  size := 18
  elem b t := F.f16 (u16At b 0) * (((pairNibble b t).toNat - 8 : Int) : K)

/-- How the loader decodes a type: a dense one is in blocks of one element. -/
def loaderKernel : GgufType → Option (RowKernel K)
  | .f32 => some ⟨"F32", 1, 4, fun b _ => F.f32 (u32At b 0)⟩
  | .f16 => some ⟨"F16", 1, 2, fun b _ => F.f16 (u16At b 0)⟩
  | .i8 => some ⟨"I8", 1, 1, fun b _ => ((Quant.i8 (byteAt b 0) : Int) : K)⟩
  | .q4_0 => some (pairKernelQ4_0 F)
  | t => rowKernel F (ggufTypeToQuant t)

omit [CommRing K] in
/-- Blocks of one element. -/
theorem decode_dense (k : RowKernel K) (hqk : k.qk = 1) (b : List UInt8) (n : Nat) :
    k.decode b n = (List.range n).map fun i => k.elem (blockAt k.size b i) 0 := by
  unfold RowKernel.decode
  rw [hqk]
  exact List.map_eq_flatMap.symm

theorem read_ok_iff {α : Type} {data : List UInt8} {start m : Nat} (f : List UInt8 → α) (x : α) :
    (ByteReader.readBytes ⟨data, start⟩ m).map (fun p => f p.1) = .ok x ↔
      start + m ≤ data.length ∧ x = f ((data.drop start).take m) := by
  by_cases hin : start + m ≤ data.length
  · rw [ByteReader.readBytes_of_le hin]
    show Except.ok (f ((data.drop start).take m)) = .ok x ↔ _
    rw [Except.ok.injEq, eq_comm]
    simp only [hin, true_and]
  · refine iff_of_false (fun h => ?_) fun h => hin h.1
    cases hr : ByteReader.readBytes ⟨data, start⟩ m with
    | error e =>
      rw [hr] at h
      cases h
    | ok p => exact hin (ByteReader.readBytes_ok hr).1

omit [CommRing K] in
/-- A loop of blocks that succeeds has read them. -/
theorem readBlocks_inside {readBlock : ByteReader → Result (List K × ByteReader)} {size : Nat}
    (hread : ∀ r x r', readBlock r = .ok (x, r') → r.pos + size ≤ r.data.length ∧ r' = { r with pos := r.pos + size }) :
    ∀ (nb : Nat) (r : ByteReader) (xs : List K), nb ≠ 0 → readBlocks readBlock nb r = .ok xs → r.pos + nb * size ≤ r.data.length
  | 0, _, _, hnb, _ => absurd rfl hnb
  | nb + 1, r, xs, _, h => by
    obtain ⟨⟨x, r'⟩, hx, h⟩ := bind_ok h
    obtain ⟨rest, hrest, -⟩ := bind_ok h
    obtain ⟨hin, rfl⟩ := hread r x r' hx
    by_cases hnb : nb = 0
    · subst hnb
      omega
    · have hle := readBlocks_inside hread nb _ rest hnb hrest
      rw [Nat.succ_mul]
      dsimp only at hle
      omega

/-- A scale and `m` bytes. -/
theorem scaled_inside {m : Nat} {r r₁ r' : ByteReader} {d : UInt16} {qs : List UInt8} (hd : r.readU16 = .ok (d, r₁))
    (hqs : r₁.readBytes m = .ok (qs, r')) :
    r.pos + (2 + m) ≤ r.data.length ∧ r' = { r with pos := r.pos + (2 + m) } := by
  obtain ⟨⟨b, r₃⟩, hb, hd⟩ := bind_ok hd
  cases hd
  obtain ⟨hin, -, rfl⟩ := ByteReader.readBytes_ok hb
  obtain ⟨hin', -, rfl⟩ := ByteReader.readBytes_ok hqs
  dsimp only at hin' ⊢
  exact ⟨by omega, by rw [Nat.add_assoc]⟩

theorem readBlockQ8_0_inside {r r' : ByteReader} {x : List K} (h : readBlockQ8_0 F r = .ok (x, r')) :
    r.pos + 34 ≤ r.data.length ∧ r' = { r with pos := r.pos + 34 } := by
  obtain ⟨⟨d, r₁⟩, hd, h⟩ := bind_ok h
  obtain ⟨⟨qs, r₂⟩, hqs, h⟩ := bind_ok h
  cases h
  exact scaled_inside hd hqs

theorem readBlockQ4_0_inside {r r' : ByteReader} {x : List K} (h : readBlockQ4_0 F r = .ok (x, r')) :
    r.pos + 18 ≤ r.data.length ∧ r' = { r with pos := r.pos + 18 } := by
  obtain ⟨⟨d, r₁⟩, hd, h⟩ := bind_ok h
  obtain ⟨⟨qs, r₂⟩, hqs, h⟩ := bind_ok h
  cases h
  exact scaled_inside hd hqs

omit [CommRing K] in
theorem blocks_ok_iff {readBlock : ByteReader → Result (List K × ByteReader)} (k : RowKernel K)
    (hblock : ∀ r b r', r.readBytes k.size = .ok (b, r') → readBlock r = .ok (blockRow k.qk k.elem b, r'))
    (hread : ∀ r x r', readBlock r = .ok (x, r') → r.pos + k.size ≤ r.data.length ∧ r' = { r with pos := r.pos + k.size })
    {data : List UInt8} {start nb : Nat} (hnb : nb ≠ 0) (xs : List K) :
    readBlocks readBlock nb ⟨data, start⟩ = .ok xs ↔
      start + nb * k.size ≤ data.length ∧ xs = k.decode (data.drop start) nb := by
  have hvalue : start + nb * k.size ≤ data.length →
      readBlocks readBlock nb ⟨data, start⟩ = .ok (k.decode (data.drop start) nb) := by
    intro hin
    rw [readBlocks_eq hblock nb ⟨data, start⟩ _ _ (ByteReader.readBytes_of_le hin)]
    exact congrArg Except.ok (decode_take k (data.drop start) (Nat.le_refl _))
  apply Iff.intro
  · intro h
    have hin := readBlocks_inside hread nb _ xs hnb h
    refine ⟨hin, ?_⟩
    rw [hvalue hin] at h
    exact (Except.ok.inj h).symm
  · rintro ⟨hin, rfl⟩
    exact hvalue hin

theorem q8_0_ok_iff {data : List UInt8} {start nb : Nat} (hnb : nb ≠ 0) (xs : List K) :
    readBlocks (readBlockQ8_0 F) nb ⟨data, start⟩ = .ok xs ↔
      start + nb * 34 ≤ data.length ∧ xs = (kernelQ8_0 F).decode (data.drop start) nb :=
  blocks_ok_iff (kernelQ8_0 F) (readBlockQ8_0_eq F) (fun _ _ _ h => readBlockQ8_0_inside F h) hnb xs

theorem q4_0_ok_iff {data : List UInt8} {start nb : Nat} (hnb : nb ≠ 0) (xs : List K) :
    readBlocks (readBlockQ4_0 F) nb ⟨data, start⟩ = .ok xs ↔
      start + nb * 18 ≤ data.length ∧ xs = (pairKernelQ4_0 F).decode (data.drop start) nb :=
  blocks_ok_iff (pairKernelQ4_0 F) (readBlockQ4_0_eq F) (fun _ _ _ h => readBlockQ4_0_inside F h) hnb xs

omit [CommRing K] in
theorem f32_decode {data : List UInt8} (n : Nat) :
    (List.range n).map (fun i => F.f32 (u32At (data.take (n * 4)) (4 * i))) =
      RowKernel.decode ⟨"F32", 1, 4, fun b _ => F.f32 (u32At b 0)⟩ data n := by
  rw [decode_dense _ rfl]
  refine List.map_congr_left fun i hi => ?_
  have hlt := List.mem_range.mp hi
  rw [u32At_take_of_lt (by omega)]
  show _ = F.f32 (u32At ((data.drop (i * 4)).take 4) 0)
  rw [u32At_take_of_lt (by decide), u32At_drop, Nat.mul_comm, Nat.add_zero]

omit [CommRing K] in
theorem f16_decode {data : List UInt8} (n : Nat) :
    (List.range n).map (fun i => F.f16 (u16At (data.take (n * 2)) (2 * i))) =
      RowKernel.decode ⟨"F16", 1, 2, fun b _ => F.f16 (u16At b 0)⟩ data n := by
  rw [decode_dense _ rfl]
  refine List.map_congr_left fun i hi => ?_
  have hlt := List.mem_range.mp hi
  rw [u16At_take_of_lt (by omega)]
  show _ = F.f16 (u16At ((data.drop (i * 2)).take 2) 0)
  rw [u16At_take_of_lt (by decide), u16At_drop, Nat.mul_comm, Nat.add_zero]

theorem i8_decode {data : List UInt8} {n : Nat} (h : n ≤ data.length) :
    (data.take n).map (fun x => ((Quant.i8 x : Int) : K)) =
      RowKernel.decode ⟨"I8", 1, 1, fun b _ => ((Quant.i8 (byteAt b 0) : Int) : K)⟩ data n := by
  rw [decode_dense _ rfl]
  apply List.ext_getElem
  · simp only [List.length_map, List.length_take, List.length_range]
    omega
  · intro i hi hi'
    simp only [List.length_map, List.length_range] at hi'
    have hlt : i < data.length := by omega
    simp only [List.getElem_map, List.getElem_take, List.getElem_range, blockAt, byteAt_take_of_lt (show 0 < 1 by decide),
      byteAt_drop, Nat.mul_one, Nat.add_zero]
    rw [byteAt, List.getD_eq_getElem _ _ hlt]

/-- The row kernel decodes whole blocks only. -/
theorem dequant_ok_iff {f : QuantFormat} {k : RowKernel K} (hk : rowKernel F f = some k) {b : List UInt8} {n : Nat}
    (hb : b.length = n / k.qk * k.size) (xs : List K) :
    dequantGgufRow F f b n = .ok xs ↔ n % k.qk = 0 ∧ xs = k.decode b (n / k.qk) := by
  by_cases hmod : n % k.qk = 0
  · simp only [dequantGgufRow, hk, dequantRow_ok k b hmod hb.ge, Except.ok.injEq, hmod, true_and]
    exact eq_comm
  · refine iff_of_false (fun h => ?_) fun h => hmod h.1
    have htmod : (n : Int).tmod k.qk ≠ 0 := by
      rw [Int.tmod_eq_emod_of_nonneg (by omega)]
      exact_mod_cast hmod
    simp only [dequantGgufRow, hk, dequantRow, htmod, ne_eq, not_false_eq_true, if_true] at h
    exact absurd h (fail_ne_ok _ _ _)

theorem raw_ok_iff {data : List UInt8} {t : GgufType} {start nbytes : Nat} (b : List UInt8) :
    rawAt data t start nbytes = .ok b ↔
      ggufTypeSupported t = true ∧ nbytes ≠ 0 ∧ start + nbytes ≤ data.length ∧ b = (data.drop start).take nbytes := by
  unfold rawAt
  by_cases hsup : ggufTypeSupported t = true
  · rw [hsup]
    by_cases hzero : nbytes = 0
    · exact iff_of_false (by simp [hzero]) (by simp [hzero])
    · simp only [Bool.not_true, Bool.false_eq_true, if_false, hzero, ne_eq, not_false_eq_true, true_and]
      exact read_ok_iff id b
  · exact iff_of_false (by simp [hsup]) fun h => hsup h.1

/-- The formats that are loaded raw and given to the row kernel. -/
theorem rawBlocks_ok_iff {data : List UInt8} {t : GgufType} {start n nbytes : Nat} {k : RowKernel K} (hblock : t.isBlock = true)
    (hsup : ggufTypeSupported t = true) (hk : rowKernel F (ggufTypeToQuant t) = some k) (hn : n ≠ 0) (hsmall : n < 2 ^ 61)
    (hbytes : nbytes = n / blockElems (ggufTypeToQuant t) * blockBytes (ggufTypeToQuant t)) (xs : List K) :
    (rawAt data t start nbytes).bind (fun packed => dequantGgufRow F (ggufTypeToQuant t) packed (toI64 n)) = .ok xs ↔
      n % k.qk = 0 ∧ start + n / k.qk * k.size ≤ data.length ∧ xs = k.decode (data.drop start) (n / k.qk) := by
  obtain ⟨k', hk', hqk, hsize⟩ := rowKernel_spec F (f := ggufTypeToQuant t) hblock
  rw [hk] at hk'
  cases hk'
  rw [← hqk, ← hsize] at hbytes
  have hcols : toI64 n = n := toI64_of_lt (by omega)
  have hpos : 0 < k.qk ∧ 0 < k.size := by
    rw [hqk, hsize]
    exact ⟨blockElems_pos _, blockBytes_pos hblock⟩
  rw [hcols]
  apply Iff.intro
  · intro h
    obtain ⟨b, hb, hrow⟩ := bind_ok h
    obtain ⟨-, -, hin, rfl⟩ := (raw_ok_iff b).mp hb
    have hlen : ((data.drop start).take nbytes).length = n / k.qk * k.size := by
      rw [List.length_take, List.length_drop]
      omega
    obtain ⟨hmod, hxs⟩ := (dequant_ok_iff F hk hlen xs).mp hrow
    rw [hbytes] at hin
    exact ⟨hmod, hin, by rw [hxs, hbytes, decode_take k _ (Nat.le_refl _)]⟩
  · rintro ⟨hmod, hin, rfl⟩
    have hblocks : n / k.qk ≠ 0 := by
      intro hzero
      have hdiv := Nat.div_add_mod n k.qk
      rw [hzero, hmod, Nat.mul_zero] at hdiv
      omega
    have hne : nbytes ≠ 0 := by
      rw [hbytes]
      exact Nat.mul_ne_zero hblocks (by omega)
    have hraw := (raw_ok_iff (t := t) ((data.drop start).take nbytes)).mpr ⟨hsup, hne, by rw [hbytes]; exact hin, rfl⟩
    rw [hraw]
    refine (dequant_ok_iff F hk ?_ _).mpr ⟨hmod, ?_⟩
    · rw [List.length_take, List.length_drop]
      omega
    · rw [hbytes, decode_take k _ (Nat.le_refl _)]

/-- The load of a slice that has elements is the decoding of its bytes. -/
theorem loadAt_ok_iff {data : List UInt8} {t : GgufType} {start n nbytes : Nat} (hn : n ≠ 0)
    (hbytes : t.isBlock = true → n ≤ maxFloats → nbytes = n / blockElems (ggufTypeToQuant t) * blockBytes (ggufTypeToQuant t))
    (xs : List K) :
    loadAt F data t start n nbytes = .ok xs ↔ n ≤ maxFloats ∧ ∃ k, loaderKernel F t = some k ∧ n % k.qk = 0 ∧
      start + n / k.qk * k.size ≤ data.length ∧ xs = k.decode (data.drop start) (n / k.qk) := by
  unfold loadAt
  by_cases hmax : n ≤ maxFloats
  · rw [if_neg (Nat.not_lt.mpr hmax)]
    have hsmall : n < 2 ^ 61 := by
      unfold maxFloats at hmax
      omega
    have hone : ∀ (k : RowKernel K), loaderKernel F t = some k → ((∃ k', loaderKernel F t = some k' ∧ n % k'.qk = 0 ∧
        start + n / k'.qk * k'.size ≤ data.length ∧ xs = k'.decode (data.drop start) (n / k'.qk)) ↔
          n % k.qk = 0 ∧ start + n / k.qk * k.size ≤ data.length ∧ xs = k.decode (data.drop start) (n / k.qk)) := by
      intro k hk
      rw [hk]
      apply Iff.intro
      · rintro ⟨k', hk', h⟩
        cases hk'
        exact h
      · exact fun h => ⟨k, rfl, h⟩
    simp only [hmax, true_and]
    cases t
    case f32 =>
      rw [hone _ rfl]
      dsimp only
      rw [wrap64_of_lt (by omega), read_ok_iff (fun b => (List.range n).map fun i => F.f32 (u32At b (4 * i))), f32_decode,
        Nat.div_one]
      simp only [Nat.mod_one, true_and]
    case f16 =>
      rw [hone _ rfl]
      dsimp only
      rw [wrap64_of_lt (by omega), read_ok_iff (fun b => (List.range n).map fun i => F.f16 (u16At b (2 * i))), f16_decode,
        Nat.div_one]
      simp only [Nat.mod_one, true_and]
    case i8 =>
      rw [hone _ rfl]
      dsimp only
      rw [read_ok_iff (fun b => b.map fun x => ((Quant.i8 x : Int) : K)), Nat.div_one, Nat.mul_one]
      simp only [Nat.mod_one, true_and]
      refine and_congr_right fun hin => ?_
      rw [i8_decode (by rw [List.length_drop]; omega)]
    case q8_0 =>
      rw [hone (kernelQ8_0 F) rfl]
      dsimp only
      split
      · rename_i hmod
        exact iff_of_false (fail_ne_ok _ _ _) fun h => hmod h.1
      · rename_i hmod
        rw [q8_0_ok_iff F (by omega)]
        exact (and_iff_right (not_not.mp hmod)).symm
    case q4_0 =>
      rw [hone (pairKernelQ4_0 F) rfl]
      dsimp only
      split
      · rename_i hmod
        exact iff_of_false (fail_ne_ok _ _ _) fun h => hmod h.1
      · rename_i hmod
        rw [q4_0_ok_iff F (by omega)]
        exact (and_iff_right (not_not.mp hmod)).symm
    case q4_1 | q5_0 | q5_1 | q2_k | q3_k | q4_k | q5_k | q6_k | iq4_nl =>
      rw [hone _ rfl]
      exact rawBlocks_ok_iff F rfl rfl rfl hn hsmall (hbytes rfl hmax) xs
    all_goals
      refine iff_of_false (fail_ne_ok _ _ _) ?_
      rintro ⟨k, hk, -⟩
      cases hk
  · rw [if_pos (Nat.lt_of_not_le hmax)]
    exact iff_of_false (fun h => nomatch h) fun h => hmax h.1

omit [CommRing K] in
/-- Some of the blocks. -/
theorem decode_slice (k : RowKernel K) (b : List UInt8) {a c total : Nat} (h : a + c ≤ total) :
    ((k.decode b total).drop (a * k.qk)).take (c * k.qk) = k.decode (b.drop (a * k.size)) c := by
  obtain ⟨rest, rfl⟩ := Nat.exists_eq_add_of_le h
  rw [decode_append, decode_append, List.append_assoc, List.drop_left' (RowKernel.decode_length k b a),
    List.take_left' (RowKernel.decode_length k _ c)]

theorem loadAt_zero {data : List UInt8} {t : GgufType} {start nbytes : Nat} {xs : List K}
    (h : loadAt F data t start 0 nbytes = .ok xs) : xs = [] := by
  unfold loadAt at h
  rw [if_neg (by unfold maxFloats; omega)] at h
  cases t
  case f32 | f16 =>
    dsimp only at h
    generalize ByteReader.readBytes _ _ = x at h
    cases x with
    | error e => cases h
    | ok p =>
      cases h
      rfl
  case i8 =>
    dsimp only at h
    rw [read_ok_iff (fun b => b.map fun x => ((Quant.i8 x : Int) : K))] at h
    rw [h.2, List.take_zero]
    rfl
  case q8_0 | q4_0 =>
    cases h
    rfl
  case q4_1 | q5_0 | q5_1 | q2_k | q3_k | q4_k | q5_k | q6_k | iq4_nl =>
    obtain ⟨packed, -, hrow⟩ := bind_ok h
    exact List.length_eq_zero_iff.mp (dequantGgufRow_length F (n := 0) rfl rfl hrow)
  all_goals exact absurd h (fail_ne_ok _ _ _)

theorem loaderKernel_qk {t : GgufType} {k : RowKernel K} (hk : loaderKernel F t = some k) :
    k.qk = blockElems (ggufTypeToQuant t) := by
  cases t <;> cases hk <;> rfl

/-- The packed size, or the size of the elements where that is 0. -/
theorem fallback_eq {p q m : Nat} (hp : p = m) (hq : m = 0 → q = 0) : (if p = 0 then q else p) = m := by
  split
  · rename_i hzero
    rw [hq (by omega)]
    omega
  · exact hp

/-- Whole blocks of a type, in bytes. -/
theorem packed_eq {t : GgufType} {k : RowKernel K} (hk : loaderKernel F t = some k) (ht : t ≠ .i8) {m : Nat} (hm : m < 2 ^ 61) :
    packedNbytes (ggufTypeToQuant t) m = m / k.qk * k.size := by
  by_cases hblock : isGgufBlockQuant (ggufTypeToQuant t) = true
  · rw [packedNbytes_of_lt hblock (by omega)]
    revert hk hblock
    cases t
    all_goals
      intro hk hblock
      first
      | cases hk; rfl
      | cases hblock
  · cases t
    case f32 =>
      cases hk
      exact (wrap64_of_lt (by omega)).trans (by rw [Nat.div_one])
    case f16 =>
      cases hk
      exact (wrap64_of_lt (by omega)).trans (by rw [Nat.div_one])
    all_goals first
      | exact absurd rfl hblock
      | exact absurd rfl ht
      | cases hk

/-- The size by elements is none or the same. -/
theorem elems_zero {t : GgufType} {k : RowKernel K} (hk : loaderKernel F t = some k) (ht : t ≠ .i8) {m : Nat}
    (h : m / k.qk * k.size = 0) : wrap64 (m * ggufTypeNbytesPerElem t) = 0 := by
  cases t
  case f32 | f16 =>
    cases hk
    have hm : m = 0 := by
      rcases Nat.mul_eq_zero.mp h with hm | hsize
      · rwa [Nat.div_one] at hm
      · cases hsize
    rw [hm, Nat.zero_mul]
    rfl
  case i8 => exact absurd rfl ht
  all_goals
    cases hk
  all_goals rfl

/-- The bytes of a slice. -/
theorem slice_nbytes {s : TensorSlice} {k : RowKernel K} (hk : loaderKernel F s.info.type = some k) (ht : s.info.type ≠ .i8)
    (hsmall : s.n < 2 ^ 61) : s.nbytes = s.n / k.qk * k.size :=
  fallback_eq (packed_eq F hk ht hsmall) (elems_zero F hk ht)

/-- The bytes before a slice, but of `I8`. -/
theorem slice_before {s : TensorSlice} {k : RowKernel K} (hk : loaderKernel F s.info.type = some k) (ht : s.info.type ≠ .i8)
    (hmod : s.n % k.qk = 0) (hsmall : s.eIdx * s.n < 2 ^ 61) : s.packedBefore = s.eIdx * (s.n / k.qk * k.size) := by
  have hblocks : s.eIdx * s.n / k.qk * k.size = s.eIdx * (s.n / k.qk * k.size) := by
    rw [Nat.mul_div_assoc _ (Nat.dvd_of_mod_eq_zero hmod), Nat.mul_assoc]
  rw [← hblocks]
  refine fallback_eq ?_ (elems_zero F hk ht)
  rw [wrap64_of_lt (by omega)]
  exact packed_eq F hk ht hsmall

omit [CommRing K] in
theorem slice_before_i8 {s : TensorSlice} (ht : s.info.type = .i8) (hsmall : s.eIdx * s.n < 2 ^ 61) :
    s.packedBefore = 4 * (s.eIdx * s.n) := by
  refine fallback_eq ?_ fun hzero => ?_
  · show packedNbytes (ggufTypeToQuant s.info.type) _ = _
    rw [ht, wrap64_of_lt (by omega)]
    exact (wrap64_of_lt (by omega)).trans (Nat.mul_comm _ _)
  · have hnone : s.eIdx * s.n = 0 := by omega
    rw [hnone, Nat.zero_mul]
    rfl

end Blocks

/-! ## An expert and its bank -/

section Expert

variable {K : Type} [CommRing K] (F : FloatBits K) {fs : FileSystem} {file : GgufFile} {name : String} {info : GgufTensorInfo}
  {data : List UInt8} {e : Nat}

/-- Where the bank starts in the file. -/
def bankStart (file : GgufFile) (info : GgufTensorInfo) : Nat := wrap64 (file.dataOffset + info.offset)

/-- What the offset of an `I8` expert has to leave out: that `n` bytes are the same at
    `4 * e * n` and at `e * n`. -/
def I8Agrees (file : GgufFile) (info : GgufTensorInfo) (data : List UInt8) (e : Nat) : Prop :=
  info.type = .i8 → (data.drop (bankStart file info + 4 * (e * expertElems info))).take (expertElems info) =
    (data.drop (bankStart file info + e * expertElems info)).take (expertElems info)

theorem before_zero {s : TensorSlice} (h : s.eIdx * s.n = 0) : s.packedBefore = 0 := by
  refine fallback_eq ?_ fun _ => ?_
  · show packedNbytes s.qf (wrap64 (s.eIdx * s.n)) = 0
    rw [h]
    generalize s.qf = f
    cases f <;> rfl
  · rw [h, Nat.zero_mul]
    rfl

theorem wholeSlice_start (file : GgufFile) (info : GgufTensorInfo) : (wholeSlice info).start file = bankStart file info := by
  rw [TensorSlice.start, before_zero (Nat.zero_mul _)]
  rfl

theorem expertSlice_start {m : Nat} (hm : (expertSlice info e).packedBefore = m) (hlt : bankStart file info + m < 2 ^ 64) :
    (expertSlice info e).start file = bankStart file info + m := by
  rw [TensorSlice.start, hm]
  show (file.dataOffset + info.offset + m) % 2 ^ 64 = bankStart file info + m
  rw [Nat.add_mod]
  show (bankStart file info + m % 2 ^ 64) % 2 ^ 64 = _
  rw [Nat.add_mod_mod, Nat.mod_eq_of_lt hlt]

theorem expertSlice_shape (info : GgufTensorInfo) (e : Nat) : (expertSlice info e).shape = (dimsToShape info.dims).drop 1 := by
  show (if 0 ≤ (e : Int) then (dimsToShape info.dims).drop 1 else dimsToShape info.dims) = _
  rw [if_pos (Int.natCast_nonneg e)]

/-- The experts' elements are the bank's. -/
theorem bank_parts (hmod : bankElems info % experts info = 0) (he : e < experts info) :
    bankElems info = experts info * expertElems info ∧ e * expertElems info + expertElems info ≤ bankElems info := by
  have hall : bankElems info = experts info * expertElems info := (Nat.mul_div_cancel' (Nat.dvd_of_mod_eq_zero hmod)).symm
  refine ⟨hall, ?_⟩
  rw [hall, ← Nat.succ_mul]
  exact Nat.mul_le_mul_right _ he

theorem map_ok_iff {α β : Type} {x : Result α} {g : α → β} {b : β} : x.map g = .ok b ↔ ∃ a, x = .ok a ∧ g a = b := by
  cases x with
  | error e => exact iff_of_false (fun h => nomatch h) fun ⟨a, h, _⟩ => nomatch h
  | ok a =>
    apply Iff.intro
    · intro h
      exact ⟨a, rfl, Except.ok.inj h⟩
    · rintro ⟨a', ha, rfl⟩
      cases ha
      rfl

theorem i8_inj {x y : UInt8} (h : Quant.i8 x = Quant.i8 y) : x = y := by
  have hx := x.toNat_lt
  have hy := y.toNat_lt
  unfold Quant.i8 at h
  rw [← UInt8.toNat_inj]
  simp only [UInt8.lt_iff_toNat_lt] at h
  have h128 : (128 : UInt8).toNat = 128 := rfl
  rw [h128] at h
  split at h <;> split at h <;> omega

/-- The bytes of an `I8` slice tell its elements. -/
theorem i8_decode_inj [CharZero K] {k : RowKernel K} (hk : loaderKernel F .i8 = some k) {b c : List UInt8} {n : Nat}
    (hb : n ≤ b.length) (hc : n ≤ c.length) : k.decode b n = k.decode c n ↔ b.take n = c.take n := by
  cases hk
  rw [← i8_decode hb, ← i8_decode hc]
  refine List.map_inj_right fun x y h => ?_
  exact i8_inj (Int.cast_injective h)

/-- `e` is an expert of a bank, each of whole blocks. The bank's name has no suffix of its
    own, and an expert's number is an `int`. -/
structure IsExpert (file : GgufFile) (name : String) (info : GgufTensorInfo) (e : Nat) : Prop where
  bare : findSlice name.toList = none
  found : file.tensors.find? (·.name == name) = some info
  rank : 3 ≤ info.dims.length
  expert : e < experts info
  int : e < 2 ^ 31
  blocks : expertElems info % blockElems (ggufTypeToQuant info.type) = 0

theorem IsExpert.resolve (h : IsExpert file name info e) (m : String) : resolveSlice m file (sliceName name e) =
    if bankElems info % experts info = 0 then .ok (expertSlice info e)
    else fail .invalidArgument ("GGUF expert slice out of range for " ++ name) :=
  resolve_expert m h.bare h.found h.rank h.expert h.int

theorem whole_loaded (h : IsExpert file name info e) (hfs : fs file.path = some data) {xs : List K} {shape : List Int}
    (hload : ggufLoadTensorF32 F fs file name = .ok (xs, shape)) :
    loadAt F data info.type (bankStart file info) (bankElems info) (wholeSlice info).nbytes = .ok xs ∧
      shape = dimsToShape info.dims := by
  rw [loadF32_eq F (fun m => resolve_whole m h.bare h.found) hfs, map_ok_iff] at hload
  obtain ⟨ys, hys, heq⟩ := hload
  cases heq
  rw [wholeSlice_start] at hys
  exact ⟨hys, rfl⟩

theorem expert_loaded (h : IsExpert file name info e) (hfs : fs file.path = some data)
    (hmod : bankElems info % experts info = 0) (xs : List K) :
    ggufLoadTensorF32 F fs file (sliceName name e) = .ok (xs, (dimsToShape info.dims).drop 1) ↔
      loadAt F data info.type ((expertSlice info e).start file) (expertElems info) (expertSlice info e).nbytes = .ok xs := by
  have hresolve : ∀ m, resolveSlice m file (sliceName name e) = .ok (expertSlice info e) := fun m => by
    rw [h.resolve, if_pos hmod]
  rw [loadF32_eq F hresolve hfs, map_ok_iff, expertSlice_shape]
  apply Iff.intro
  · rintro ⟨ys, hys, heq⟩
    cases heq
    exact hys
  · exact fun h => ⟨xs, h, rfl⟩

theorem slice_bytes (info : GgufTensorInfo) (s : TensorSlice) (hs : s.info = info) (hblock : info.type.isBlock = true)
    (hn : s.n ≤ maxFloats) :
    s.nbytes = s.n / blockElems (ggufTypeToQuant info.type) * blockBytes (ggufTypeToQuant info.type) := by
  subst hs
  exact nbytes_eq hblock hn

omit [CommRing K] in
/-- The part of the bank that is an expert's, in bytes and in elements. -/
theorem expert_part {k : RowKernel K} {n N E b : Nat} (hmod : n % k.qk = 0)
    (hall : N = E * n) (he : e < E) (hin : b + N / k.qk * k.size ≤ data.length) :
    b + e * (n / k.qk * k.size) + n / k.qk * k.size ≤ data.length ∧
      ((k.decode (data.drop b) (N / k.qk)).drop (e * n)).take n =
        k.decode (data.drop (b + e * (n / k.qk * k.size))) (n / k.qk) := by
  have hblocks : N / k.qk = E * (n / k.qk) := by
    rw [hall]
    exact Nat.mul_div_assoc E (Nat.dvd_of_mod_eq_zero hmod)
  have hn : n / k.qk * k.qk = n := Nat.div_mul_cancel (Nat.dvd_of_mod_eq_zero hmod)
  have hle : e * (n / k.qk) + n / k.qk ≤ E * (n / k.qk) := by
    rw [← Nat.succ_mul]
    exact Nat.mul_le_mul_right _ he
  have hbytes := Nat.mul_le_mul_right k.size hle
  rw [Nat.add_mul, Nat.mul_assoc] at hbytes
  rw [hblocks] at hin ⊢
  refine ⟨by omega, ?_⟩
  have hslice := decode_slice k (data.drop b) hle
  rwa [Nat.mul_assoc, hn, List.drop_drop, Nat.mul_assoc] at hslice

/-- Of `I8`, what is loaded is the part exactly when the bytes are the same. -/
theorem i8_part [CharZero K] (ht : info.type = .i8) {k : RowKernel K} (hk : loaderKernel F info.type = some k)
    (hin : bankStart file info + e * (expertElems info / k.qk * k.size) + expertElems info / k.qk * k.size ≤ data.length)
    (hn : expertElems info ≠ 0) (hsmall : e * expertElems info + expertElems info ≤ maxFloats) (hdata : data.length < 2 ^ 63) :
    (expertElems info ≤ maxFloats ∧ ∃ k', loaderKernel F info.type = some k' ∧ expertElems info % k'.qk = 0 ∧
      (expertSlice info e).start file + expertElems info / k'.qk * k'.size ≤ data.length ∧
      k.decode (data.drop (bankStart file info + e * (expertElems info / k.qk * k.size))) (expertElems info / k.qk) =
        k'.decode (data.drop ((expertSlice info e).start file)) (expertElems info / k'.qk)) ↔
      (data.drop (bankStart file info + 4 * (e * expertElems info))).take (expertElems info) =
        (data.drop (bankStart file info + e * expertElems info)).take (expertElems info) := by
  unfold maxFloats at hsmall
  have hk' : loaderKernel F .i8 = some k := by rw [← ht]; exact hk
  have hunit : k.qk = 1 ∧ k.size = 1 := by
    cases hk'
    exact ⟨rfl, rfl⟩
  rw [hunit.1, hunit.2, Nat.div_one, Nat.mul_one] at hin
  have hbefore : (expertSlice info e).packedBefore = 4 * (e * expertElems info) :=
    slice_before_i8 (s := expertSlice info e) ht (show e * expertElems info < 2 ^ 61 by omega)
  rw [expertSlice_start hbefore (by omega)]
  have hlen : expertElems info ≤ (data.drop (bankStart file info + e * expertElems info)).length := by
    rw [List.length_drop]
    omega
  apply Iff.intro
  · rintro ⟨-, k', hsame, -, hread, hdecode⟩
    rw [hk] at hsame
    cases hsame
    rw [hunit.1, hunit.2, Nat.div_one, Nat.mul_one] at hread hdecode
    refine ((i8_decode_inj F hk' hlen ?_).mp hdecode).symm
    rw [List.length_drop]
    omega
  · intro hbytes
    have hread : expertElems info ≤ (data.drop (bankStart file info + 4 * (e * expertElems info))).length := by
      have hcount := congrArg List.length hbytes
      rw [List.length_take, List.length_take] at hcount
      omega
    refine ⟨by unfold maxFloats; omega, k, hk, by rw [hunit.1, Nat.mod_one], ?_, ?_⟩
    · rw [List.length_drop] at hread
      rw [hunit.1, hunit.2, Nat.div_one, Nat.mul_one]
      omega
    · rw [hunit.1, hunit.2, Nat.div_one, Nat.mul_one]
      exact (i8_decode_inj F hk' hlen hread).mpr hbytes.symm

/-- An expert, and the bank's part: the same, but that an `I8` expert is looked for at the
    offset of floats. -/
theorem f32_slice_iff [CharZero K] (h : IsExpert file name info e) (hfs : fs file.path = some data) (hdata : data.length < 2 ^ 63)
    {xs : List K} {shape : List Int} (hload : ggufLoadTensorF32 F fs file name = .ok (xs, shape)) :
    ggufLoadTensorF32 F fs file (sliceName name e) =
        .ok ((xs.drop (e * expertElems info)).take (expertElems info), shape.drop 1) ↔
      bankElems info % experts info = 0 ∧ I8Agrees file info data e := by
  obtain ⟨hwhole, rfl⟩ := whole_loaded F h hfs hload
  by_cases hmod : bankElems info % experts info = 0
  · rw [expert_loaded F h hfs hmod]
    simp only [hmod, true_and]
    obtain ⟨hall, hpart⟩ := bank_parts hmod h.expert
    by_cases hN : bankElems info = 0
    · have hn : expertElems info = 0 := by
        rw [expertElems, hN, Nat.zero_div]
      rw [hN] at hwhole
      cases loadAt_zero F hwhole
      have hsame : (expertSlice info e).start file = bankStart file info := by
        have hzero : (expertSlice info e).packedBefore = 0 := before_zero (by
          show e * expertElems info = 0
          rw [hn, Nat.mul_zero])
        rw [TensorSlice.start, hzero]
        rfl
      have hbytes : (expertSlice info e).nbytes = (wholeSlice info).nbytes := by
        show TensorSlice.nbytes ⟨info, e, e, expertElems info⟩ = TensorSlice.nbytes ⟨info, -1, 0, bankElems info⟩
        rw [hn, hN]
        rfl
      rw [hsame, hn, hbytes]
      refine iff_of_true hwhole fun _ => ?_
      rw [hn, List.take_zero, List.take_zero]
    · have hn : expertElems info ≠ 0 := by
        intro hzero
        rw [hzero, Nat.mul_zero] at hall
        exact hN hall
      obtain ⟨hmax, k, hk, hmodk, hin, rfl⟩ := (loadAt_ok_iff F hN (fun hb hm => slice_bytes info _ rfl hb hm) xs).mp hwhole
      rw [loadAt_ok_iff F hn (fun hb hm => slice_bytes info _ rfl hb hm)]
      have hmodn : expertElems info % k.qk = 0 := by
        rw [loaderKernel_qk F hk]
        exact h.blocks
      obtain ⟨hpartBytes, hslice⟩ := expert_part hmodn hall h.expert hin
      have hsmall : e * expertElems info < 2 ^ 61 := by
        unfold maxFloats at hmax
        omega
      rw [hslice]
      by_cases ht : info.type = .i8
      · rw [i8_part F ht hk hpartBytes hn (by omega) hdata]
        exact ⟨fun h _ => h, fun h => h ht⟩
      · have hbefore : (expertSlice info e).packedBefore = e * (expertElems info / k.qk * k.size) :=
          slice_before F (s := expertSlice info e) hk ht hmodn hsmall
        rw [expertSlice_start hbefore (by omega)]
        exact iff_of_true ⟨by omega, k, hk, hmodn, hpartBytes, rfl⟩ fun h => absurd h ht
  · refine iff_of_false (fun hslice => ?_) fun h => hmod h.1
    have hfail : ggufLoadTensorF32 F fs file (sliceName name e) =
        fail .invalidArgument ("GGUF expert slice out of range for " ++ name) := by
      rw [ggufLoadTensorF32, h.resolve, if_neg hmod]
      rfl
    rw [hfail] at hslice
    exact absurd hslice (fail_ne_ok _ _ _)

theorem supported_kernel {t : GgufType} (h : ggufTypeSupported t = true) : ∃ k : RowKernel K, loaderKernel F t = some k ∧ t ≠ .i8 := by
  cases t
  case f32 | f16 | q4_0 | q4_1 | q5_0 | q5_1 | q8_0 | q2_k | q3_k | q4_k | q5_k | q6_k | iq4_nl => exact ⟨_, rfl, by decide⟩
  all_goals cases h

include F in
/-- The packed bytes of an expert are the bank's part. -/
theorem raw_slice_iff (h : IsExpert file name info e) (hfs : fs file.path = some data) (hdata : data.length < 2 ^ 63)
    (hmax : bankElems info ≤ maxFloats) {bytes : List UInt8} {shape : List Int} {ty : GgufType}
    (hload : ggufLoadTensorRaw fs file name = .ok (bytes, shape, ty)) :
    ggufLoadTensorRaw fs file (sliceName name e) =
        .ok ((bytes.drop (e * (bytes.length / experts info))).take (bytes.length / experts info), shape.drop 1, ty) ↔
      bankElems info % experts info = 0 := by
  by_cases hmod : bankElems info % experts info = 0
  · refine iff_of_true ?_ hmod
    rw [loadRaw_eq (resolve_whole _ h.bare h.found) hfs, map_ok_iff, wholeSlice_start] at hload
    obtain ⟨b, hraw, heq⟩ := hload
    cases heq
    obtain ⟨hsup, hne, hin, rfl⟩ := (raw_ok_iff _).mp hraw
    obtain ⟨k, hk, ht⟩ := supported_kernel F hsup
    obtain ⟨hall, hpart⟩ := bank_parts hmod h.expert
    have hsmall : bankElems info < 2 ^ 61 := by
      unfold maxFloats at hmax
      omega
    have hmodn : expertElems info % k.qk = 0 := by
      rw [loaderKernel_qk F hk]
      exact h.blocks
    have hbank : (wholeSlice info).nbytes = bankElems info / k.qk * k.size := slice_nbytes F (s := wholeSlice info) hk ht hsmall
    have hexpert : (expertSlice info e).nbytes = expertElems info / k.qk * k.size :=
      slice_nbytes F (s := expertSlice info e) hk ht (show expertElems info < 2 ^ 61 by omega)
    have hblocks : bankElems info / k.qk * k.size = experts info * (expertElems info / k.qk * k.size) := by
      rw [hall, Nat.mul_div_assoc _ (Nat.dvd_of_mod_eq_zero hmodn), Nat.mul_assoc]
    have hlen : ((data.drop (bankStart file info)).take (wholeSlice info).nbytes).length =
        experts info * (expertElems info / k.qk * k.size) := by
      rw [List.length_take, List.length_drop, ← hblocks, ← hbank]
      omega
    have hpos : 0 < experts info := Nat.zero_lt_of_lt h.expert
    rw [hlen, Nat.mul_div_cancel_left _ hpos]
    have hbefore : (expertSlice info e).packedBefore = e * (expertElems info / k.qk * k.size) :=
      slice_before F (s := expertSlice info e) hk ht hmodn (show e * expertElems info < 2 ^ 61 by omega)
    have hle : e * (expertElems info / k.qk * k.size) + expertElems info / k.qk * k.size ≤ (wholeSlice info).nbytes := by
      rw [hbank, hblocks, ← Nat.succ_mul]
      exact Nat.mul_le_mul_right _ h.expert
    have hresolve : resolveSlice "tensor not in gguf: " file (sliceName name e) = .ok (expertSlice info e) := by
      rw [h.resolve, if_pos hmod]
    rw [loadRaw_eq hresolve hfs, map_ok_iff, expertSlice_shape, expertSlice_start hbefore (by omega), hexpert]
    refine ⟨_, (raw_ok_iff _).mpr ⟨hsup, ?_, by omega, rfl⟩, ?_⟩
    · intro hzero
      rw [hbank, hblocks, hzero, Nat.mul_zero] at hne
      exact hne rfl
    · rw [List.drop_take, List.take_take, List.drop_drop, Nat.min_eq_left (by omega)]
      rfl
  · refine iff_of_false (fun hslice => ?_) hmod
    have hfail : ggufLoadTensorRaw fs file (sliceName name e) =
        fail .invalidArgument ("GGUF expert slice out of range for " ++ name) := by
      rw [ggufLoadTensorRaw, h.resolve, if_neg hmod]
      rfl
    rw [hfail] at hslice
    exact absurd hslice (fail_ne_ok _ _ _)

/-- Where the bank is loaded, as floats and as it is packed, an expert is loaded as its
    part exactly when the experts divide the number of elements and, of `I8`, the bytes
    at the offset of floats are the expert's. -/
theorem expert_slice_iff [CharZero K] (h : IsExpert file name info e) (hfs : fs file.path = some data)
    (hdata : data.length < 2 ^ 63) :
    (∀ xs shape, ggufLoadTensorF32 F fs file name = .ok (xs, shape) →
      (ggufLoadTensorF32 F fs file (sliceName name e) =
          .ok ((xs.drop (e * expertElems info)).take (expertElems info), shape.drop 1) ↔
        bankElems info % experts info = 0 ∧ I8Agrees file info data e)) ∧
    (bankElems info ≤ maxFloats → ∀ bytes shape ty, ggufLoadTensorRaw fs file name = .ok (bytes, shape, ty) →
      (ggufLoadTensorRaw fs file (sliceName name e) =
          .ok ((bytes.drop (e * (bytes.length / experts info))).take (bytes.length / experts info), shape.drop 1, ty) ↔
        bankElems info % experts info = 0)) :=
  ⟨fun _ _ hload => f32_slice_iff F h hfs hdata hload, fun hmax _ _ _ hload => raw_slice_iff F h hfs hdata hmax hload⟩

end Expert

/-! ## A bank of two -/

def pairBank (t : GgufType) : GgufFile := ⟨[⟨"w", [32, 1, 2], t, 0⟩], 0, "m.gguf"⟩

/-- Two `Q8_0` blocks. -/
def pairBankFs : FileSystem := fun _ => some (List.replicate 34 1 ++ List.replicate 34 2)

theorem pairBank_expert : IsExpert (pairBank .q8_0) "w" ⟨"w", [32, 1, 2], .q8_0, 0⟩ 1 := by
  refine ⟨by decide, by decide, by decide, by decide, by decide, by decide⟩

theorem q8_0_expert_loaded :
    (∀ xs shape, ggufLoadTensorF32 oneBits pairBankFs (pairBank .q8_0) "w" = .ok (xs, shape) →
      (ggufLoadTensorF32 oneBits pairBankFs (pairBank .q8_0) (sliceName "w" 1) =
          .ok ((xs.drop (1 * expertElems ⟨"w", [32, 1, 2], .q8_0, 0⟩)).take (expertElems ⟨"w", [32, 1, 2], .q8_0, 0⟩),
            shape.drop 1) ↔
        bankElems ⟨"w", [32, 1, 2], .q8_0, 0⟩ % experts ⟨"w", [32, 1, 2], .q8_0, 0⟩ = 0 ∧
          I8Agrees (pairBank .q8_0) ⟨"w", [32, 1, 2], .q8_0, 0⟩ (List.replicate 34 1 ++ List.replicate 34 2) 1)) ∧
    (bankElems ⟨"w", [32, 1, 2], .q8_0, 0⟩ ≤ maxFloats → ∀ bytes shape ty,
      ggufLoadTensorRaw pairBankFs (pairBank .q8_0) "w" = .ok (bytes, shape, ty) →
      (ggufLoadTensorRaw pairBankFs (pairBank .q8_0) (sliceName "w" 1) =
          .ok ((bytes.drop (1 * (bytes.length / experts ⟨"w", [32, 1, 2], .q8_0, 0⟩))).take
            (bytes.length / experts ⟨"w", [32, 1, 2], .q8_0, 0⟩), shape.drop 1, ty) ↔
        bankElems ⟨"w", [32, 1, 2], .q8_0, 0⟩ % experts ⟨"w", [32, 1, 2], .q8_0, 0⟩ = 0)) :=
  expert_slice_iff oneBits pairBank_expert rfl (by simp)

/-- Two experts of one byte, and three bytes after them. -/
def byteBank : GgufFile := ⟨[⟨"w", [1, 1, 2], .i8, 0⟩], 0, "m.gguf"⟩

def byteBankFs : FileSystem := fun _ => some [1, 2, 3, 4, 5]

/-- The second expert of an `I8` bank is read four bytes after the first. -/
theorem i8_expert_differs : IsExpert byteBank "w" ⟨"w", [1, 1, 2], .i8, 0⟩ 1 ∧
    ggufLoadTensorF32 oneBits byteBankFs byteBank "w" = .ok ([1, 2], [2, 1, 1]) ∧
    ggufLoadTensorF32 oneBits byteBankFs byteBank (sliceName "w" 1) = .ok ([5], [1, 1]) ∧
    ggufLoadTensorF32 oneBits byteBankFs byteBank (sliceName "w" 1) ≠ .ok (([1, 2].drop 1).take 1, [2, 1, 1].drop 1) := by
  refine ⟨⟨by decide, by decide, by decide, by decide, by decide, by decide⟩, by decide, by decide, by decide⟩

end Uaii.Loaders
