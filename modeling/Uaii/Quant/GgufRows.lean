/-
  Uaii.Quant.GgufRows — a packed matrix, as a whole and row by row
  (`libs/uaii-quant/src/gguf_dequant.cpp`).

  Proved, for every format: an element is computed from the bytes of its own block
  (`elem_local`), so rows of whole blocks are decoded alike together and one by one, each
  from the bytes its stride gives it (`dequantGgufRow_rows`).
-/

import Mathlib.Data.List.Basic
import Uaii.Lib.Lists
import Uaii.Quant.GgufDequant

namespace Uaii.Quant

variable {K : Type}

/-! ## Block by block -/

theorem byteAt_take_of_lt {b : List UInt8} {n i : Nat} (h : i < n) : byteAt (b.take n) i = byteAt b i := by
  simp only [byteAt, List.getD_eq_getElem?_getD, List.getElem?_take_of_lt h]

theorem u16At_take_of_lt {b : List UInt8} {n i : Nat} (h : i + 1 < n) : u16At (b.take n) i = u16At b i := by
  rw [u16At, u16At, byteAt_take_of_lt (by omega), byteAt_take_of_lt h]

theorem u32At_take_of_lt {b : List UInt8} {n i : Nat} (h : i + 3 < n) : u32At (b.take n) i = u32At b i := by
  rw [u32At, u32At, u16At_take_of_lt (by omega), u16At_take_of_lt (by omega)]

theorem byteAt_drop (b : List UInt8) (n i : Nat) : byteAt (b.drop n) i = byteAt b (n + i) := by
  simp only [byteAt, List.getD_eq_getElem?_getD, List.getElem?_drop]

theorem u16At_drop (b : List UInt8) (n i : Nat) : u16At (b.drop n) i = u16At b (n + i) := by
  rw [u16At, u16At, byteAt_drop, byteAt_drop, Nat.add_assoc]

theorem u32At_drop (b : List UInt8) (n i : Nat) : u32At (b.drop n) i = u32At b (n + i) := by
  rw [u32At, u32At, u16At_drop, u16At_drop, Nat.add_assoc]

theorem nibble_take {b : List UInt8} {n o t : Nat} (ht : t < 32) (h : o + 16 ≤ n) : nibble (b.take n) o t = nibble b o t := by
  unfold nibble
  split
  · rw [byteAt_take_of_lt (by omega)]
  · rw [byteAt_take_of_lt (by omega)]

/-- The twelve bytes of scales in a block of the formats with minima. -/
theorem scales_take (b : List UInt8) {n : Nat} (h : 16 ≤ n) : ((b.take n).drop 4).take 12 = (b.drop 4).take 12 := by
  rw [List.drop_take, List.take_take, Nat.min_eq_left (by omega)]

theorem scalesQ3_K_take (b : List UInt8) (k : Nat) : scalesQ3_K ((b.take 110).drop 96) k = scalesQ3_K (b.drop 96) k := by
  unfold scalesQ3_K
  rw [List.drop_take, u32At_take_of_lt (by omega), u32At_take_of_lt (by omega), u32At_take_of_lt (by omega)]

section Kernels

variable [Ring K] (F : FloatBits K)

/-- The bytes an element is computed from lie in its block. -/
theorem elem_local {f : QuantFormat} {k : RowKernel K} (hk : rowKernel F f = some k) (b : List UInt8) {t : Nat} (ht : t < k.qk) :
    k.elem (b.take k.size) t = k.elem b t := by
  cases f with
  | q4_0 =>
    cases hk
    simp only [kernelQ4_0] at ht ⊢
    rw [nibble_take ht (by omega), u16At_take_of_lt (by omega)]
  | q4_1 =>
    cases hk
    simp only [kernelQ4_1] at ht ⊢
    rw [nibble_take ht (by omega), u16At_take_of_lt (by omega), u16At_take_of_lt (by omega)]
  | q5_0 =>
    cases hk
    simp only [kernelQ5_0] at ht ⊢
    rw [nibble_take ht (by omega), u32At_take_of_lt (by omega), u16At_take_of_lt (by omega)]
  | q5_1 =>
    cases hk
    simp only [kernelQ5_1] at ht ⊢
    rw [nibble_take ht (by omega), u32At_take_of_lt (by omega), u16At_take_of_lt (by omega), u16At_take_of_lt (by omega)]
  | q8_0 =>
    cases hk
    simp only [kernelQ8_0] at ht ⊢
    rw [byteAt_take_of_lt (by omega), u16At_take_of_lt (by omega)]
  | q2_k =>
    cases hk
    simp only [kernelQ2_K] at ht ⊢
    rw [byteAt_take_of_lt (by omega), byteAt_take_of_lt (by omega), u16At_take_of_lt (by omega), u16At_take_of_lt (by omega)]
  | q3_k =>
    cases hk
    simp only [kernelQ3_K] at ht ⊢
    rw [byteAt_take_of_lt (by omega), byteAt_take_of_lt (by omega), u16At_take_of_lt (by omega), scalesQ3_K_take]
  | q4_k =>
    cases hk
    simp only [kernelQ4_K] at ht ⊢
    rw [byteAt_take_of_lt (by omega), u16At_take_of_lt (by omega), u16At_take_of_lt (by omega), scales_take b (by omega)]
  | q5_k =>
    cases hk
    simp only [kernelQ5_K] at ht ⊢
    rw [byteAt_take_of_lt (by omega), byteAt_take_of_lt (by omega), u16At_take_of_lt (by omega), u16At_take_of_lt (by omega),
      scales_take b (by omega)]
  | q6_k =>
    cases hk
    simp only [kernelQ6_K] at ht ⊢
    have hlow : 64 * (t / 128) + t % 32 + (if t % 128 / 32 % 2 = 0 then 0 else 32) < 210 := by
      split <;> omega
    rw [byteAt_take_of_lt hlow, byteAt_take_of_lt (by omega), byteAt_take_of_lt (by omega), u16At_take_of_lt (by omega)]
  | iq4_nl =>
    cases hk
    simp only [kernelIq4Nl] at ht ⊢
    rw [nibble_take ht (by omega), u16At_take_of_lt (by omega)]
  | _ => cases hk

end Kernels

/-! ## Row by row -/

theorem blockAt_add (size : Nat) (packed : List UInt8) (a i : Nat) :
    blockAt size packed (a + i) = blockAt size (packed.drop (a * size)) i := by
  unfold blockAt
  rw [List.drop_drop, Nat.add_mul]

theorem decode_append (k : RowKernel K) (packed : List UInt8) (a b : Nat) :
    k.decode packed (a + b) = k.decode packed a ++ k.decode (packed.drop (a * k.size)) b := by
  unfold RowKernel.decode
  rw [List.range_add, List.flatMap_append, List.flatMap_map]
  refine congrArg _ (List.flatMap_congr fun i _ => ?_)
  rw [blockAt_add]

/-- The blocks that are decoded are all that is read. -/
theorem decode_take (k : RowKernel K) (packed : List UInt8) {nb n : Nat} (h : nb * k.size ≤ n) :
    k.decode (packed.take n) nb = k.decode packed nb := by
  unfold RowKernel.decode
  refine List.flatMap_congr fun i hi => ?_
  have hle : (i + 1) * k.size ≤ n := (Nat.mul_le_mul_right _ (List.mem_range.mp hi)).trans h
  rw [Nat.succ_mul] at hle
  have hblock : blockAt k.size (packed.take n) i = blockAt k.size packed i := by
    unfold blockAt
    rw [List.drop_take, List.take_take, Nat.min_eq_left (by omega)]
  rw [hblock]

/-- The rows of a matrix, one after the other. -/
theorem decode_rows (k : RowKernel K) (packed : List UInt8) (nb : Nat) : ∀ rows,
    k.decode packed (rows * nb) = (List.range rows).flatMap fun r => k.decode (packed.drop (r * (nb * k.size))) nb
  | 0 => by
    rw [Nat.zero_mul]
    rfl
  | rows + 1 => by
    rw [Nat.succ_mul, decode_append, decode_rows k packed nb rows, List.range_succ, List.flatMap_append, List.flatMap_singleton,
      Nat.mul_assoc]

/-- No format has more than 34 bytes for 32 elements. -/
theorem packedNbytes_of_i64 {f : QuantFormat} (hf : isGgufBlockQuant f = true) {n : Nat} (hn : n < 2 ^ 63) :
    packedNbytes f n = n / blockElems f * blockBytes f := by
  rw [packedNbytes_block hf]
  apply wrap64_of_lt
  cases f <;> simp_all only [isGgufBlockQuant, blockElems, blockBytes]
  all_goals omega

theorem blockBytes_pos {f : QuantFormat} (hf : isGgufBlockQuant f = true) : 0 < blockBytes f := by
  cases f <;> first | decide | cases hf

theorem blockElems_pos (f : QuantFormat) : 0 < blockElems f := by cases f <;> decide

/-- The rows of a packed matrix, from its payload. -/
def packedRow [Ring K] (F : FloatBits K) (f : QuantFormat) (packed : List UInt8) (cols r : Nat) : Result (List K) :=
  dequantGgufRow F f (packed.drop (r * packedNbytes f cols)) cols

section Matrix

variable [Ring K] (F : FloatBits K) {f : QuantFormat} {packed : List UInt8} {rows cols : Nat}

/-- The row stride goes through the payload row by row. -/
theorem packedNbytes_rows (hf : isGgufBlockQuant f = true) (hcols : cols % blockElems f = 0) (hn : rows * cols < 2 ^ 63)
    (hrows : 0 < rows) : packedNbytes f (rows * cols) = rows * packedNbytes f cols := by
  have hle : cols ≤ rows * cols := Nat.le_mul_of_pos_left cols hrows
  rw [packedNbytes_of_i64 hf hn, packedNbytes_of_i64 hf (by omega), Nat.mul_div_assoc rows (Nat.dvd_of_mod_eq_zero hcols),
    Nat.mul_assoc]

/-- A matrix is dequantised alike as one row and row by row, each row from its own bytes. -/
theorem dequantGgufRow_rows (hf : isGgufBlockQuant f = true) (hcols : cols % blockElems f = 0) (hn : rows * cols < 2 ^ 63)
    (hlen : packedNbytes f (rows * cols) ≤ packed.length) :
    ∃ row : Nat → List K, dequantGgufRow F f packed (rows * cols : Nat) = .ok ((List.range rows).flatMap row) ∧
      ∀ r < rows, r * packedNbytes f cols + packedNbytes f cols ≤ packed.length ∧
        packedRow F f packed cols r = .ok (row r) ∧
        dequantGgufRow F f ((packed.drop (r * packedNbytes f cols)).take (packedNbytes f cols)) cols = .ok (row r) ∧
        (row r).length = cols := by
  obtain ⟨k, hk, hqk, hsize⟩ := rowKernel_spec F hf
  have hdecode : ∀ (bytes : List UInt8) {n : Nat}, n % blockElems f = 0 → n / blockElems f * blockBytes f ≤ bytes.length →
      dequantGgufRow F f bytes n = .ok (k.decode bytes (n / blockElems f)) := by
    intro bytes n hmod hbytes
    obtain ⟨k', hk', hrow⟩ := dequantGgufRow_eq F hf hmod hbytes
    rw [hk] at hk'
    cases hk'
    rwa [hqk] at hrow
  have hblocks : rows * cols / blockElems f = rows * (cols / blockElems f) := Nat.mul_div_assoc rows (Nat.dvd_of_mod_eq_zero hcols)
  have hall : rows * cols % blockElems f = 0 := by rw [Nat.mul_mod, hcols, Nat.mul_zero, Nat.zero_mod]
  refine ⟨fun r => k.decode (packed.drop (r * (cols / blockElems f * k.size))) (cols / blockElems f), ?_, fun r hr => ?_⟩
  · rw [hdecode packed hall (by rwa [← packedNbytes_of_i64 hf hn]), hblocks, decode_rows]
  · have hpos : 0 < rows := by omega
    have hle : cols ≤ rows * cols := Nat.le_mul_of_pos_left cols hpos
    have hstride : packedNbytes f cols = cols / blockElems f * blockBytes f := packedNbytes_of_i64 hf (by omega)
    have hin : r * packedNbytes f cols + packedNbytes f cols ≤ packed.length := by
      have hmul : (r + 1) * packedNbytes f cols ≤ rows * packedNbytes f cols := Nat.mul_le_mul_right _ hr
      rw [Nat.succ_mul] at hmul
      rw [packedNbytes_rows hf hcols hn hpos] at hlen
      omega
    rw [hsize, ← hstride]
    have hdrop : packedNbytes f cols ≤ (packed.drop (r * packedNbytes f cols)).length := by
      rw [List.length_drop]
      omega
    refine ⟨hin, ?_, ?_, ?_⟩
    · exact hdecode _ hcols (by rwa [← hstride])
    · rw [hdecode _ hcols (by rw [List.length_take, ← hstride]; omega), decode_take k _ (by rw [hsize, hstride])]
    · rw [RowKernel.decode_length, hqk]
      exact Nat.div_mul_cancel (Nat.dvd_of_mod_eq_zero hcols)

end Matrix

end Uaii.Quant
