/-
  Uaii.Loaders.GgufPaths — the two ways a GGUF tensor becomes numbers.

  Streamed, reused or quantised weights are loaded raw and decoded by the row kernel;
  the others are decoded by `gguf_load_tensor_f32`. The loader's `Q8_0` loop and the
  kernel read one layout. Its `Q4_0` loop does not: it takes elements `2k` and `2k + 1`
  from the nibbles of byte `k`, the kernel takes `k` and `k + 16`.

  Proved: the paths agree on a tensor exactly when it fits a vector and, for `Q4_0`,
  no block tells the two nibble orders apart (`paths_agree_iff`).
-/

import Mathlib.Algebra.Ring.Int.Defs
import Mathlib.Algebra.CharZero.Defs
import Mathlib.Algebra.GroupWithZero.Basic
import Mathlib.Data.Int.Cast.Lemmas
import Uaii.Lib.Lists
import Uaii.Loaders.GgufTensor
import Uaii.Quant.GgufRows

namespace Uaii.Loaders

open Uaii.Quant

/-! ## Blocks read one by one -/

/-- The elements of one block, as the loader's loop and as the row kernel compute them. -/
def blockRow {K : Type} (qk : Nat) (elem : List UInt8 → Nat → K) (b : List UInt8) : List K := (List.range qk).map (elem b)

theorem blockAt_drop (size : Nat) (bytes : List UInt8) (i : Nat) :
    blockAt size (bytes.drop size) i = blockAt size bytes (i + 1) := by
  unfold blockAt
  rw [List.drop_drop, Nat.add_comm size, Nat.succ_mul]

section ReadBlocks

variable {K : Type}

/-- A loop that reads a block of `size` bytes at a time decodes the blocks of the bytes
    read at once. -/
theorem readBlocks_eq {readBlock : ByteReader → Result (List K × ByteReader)} {size : Nat} {row : List UInt8 → List K}
    (hblock : ∀ r b r', r.readBytes size = .ok (b, r') → readBlock r = .ok (row b, r')) :
    ∀ (nb : Nat) (r : ByteReader) (bytes : List UInt8) (r' : ByteReader), r.readBytes (nb * size) = .ok (bytes, r') →
      readBlocks readBlock nb r = .ok ((List.range nb).flatMap fun i => row (blockAt size bytes i)) := by
  intro nb
  induction nb with
  | zero => intro r bytes r' _; rfl
  | succ nb ih =>
    intro r bytes r' h
    rw [Nat.succ_mul, Nat.add_comm] at h
    obtain ⟨hhead, htail⟩ := ByteReader.readBytes_split h
    have hrest := ih _ _ _ htail
    have hfirst : bytes.take size = blockAt size bytes 0 := by simp [blockAt]
    simp only [readBlocks, hblock _ _ _ hhead, ok_bind, hrest, hfirst, List.range_succ_eq_map, List.flatMap_cons,
      List.flatMap_map, blockAt_drop, Nat.succ_eq_add_one]

end ReadBlocks

/-! ## The loader's own decoders -/

section Decoders

variable {K : Type} [CommRing K] (F : FloatBits K)

/-- A scale and `n` bytes: the shape of both loops' blocks. -/
theorem readScaled {r r' : ByteReader} {b : List UInt8} {n : Nat} (h : r.readBytes (2 + n) = .ok (b, r')) :
    ∃ r₁, r.readU16 = .ok (u16At b 0, r₁) ∧ r₁.readBytes n = .ok (b.drop 2, r') := by
  obtain ⟨hscale, hqs⟩ := ByteReader.readBytes_split h
  have htake : u16At (b.take 2) 0 = u16At b 0 := u16At_take_of_lt (by decide)
  refine ⟨_, ?_, hqs⟩
  simp only [ByteReader.readU16, hscale, ok_bind, htake]

theorem readBlockQ8_0_eq (r : ByteReader) (b : List UInt8) (r' : ByteReader) (h : r.readBytes 34 = .ok (b, r')) :
    readBlockQ8_0 F r = .ok (blockRow 32 (kernelQ8_0 F).elem b, r') := by
  obtain ⟨r₁, hd, hqs⟩ := readScaled (n := 32) h
  simp only [readBlockQ8_0, hd, ok_bind, hqs, blockRow, kernelQ8_0, byteAt_drop, mul_comm]

/-- The nibble the loader's loop gives element `t`. -/
def pairNibble (b : List UInt8) (t : Nat) : UInt8 :=
  if t % 2 = 0 then byteAt b (2 + t / 2) &&& 0x0F else byteAt b (2 + t / 2) >>> 4

theorem readBlockQ4_0_eq (r : ByteReader) (b : List UInt8) (r' : ByteReader) (h : r.readBytes 18 = .ok (b, r')) :
    readBlockQ4_0 F r =
      .ok (blockRow 32 (fun b t => F.f16 (u16At b 0) * (((pairNibble b t).toNat - 8 : Int) : K)) b, r') := by
  obtain ⟨r₁, hd, hqs⟩ := readScaled (n := 16) h
  simp only [readBlockQ4_0, hd, ok_bind, hqs, blockRow, byteAt_drop, pairNibble]

/-- A block both nibble orders read the same: its scale is zero, or each element has one
    nibble in both. -/
def BlockAgrees (b : List UInt8) : Prop := F.f16 (u16At b 0) = 0 ∨ ∀ t < 32, pairNibble b t = nibble b 2 t

theorem blockAgrees_iff [IsDomain K] [CharZero K] (b : List UInt8) :
    blockRow 32 (fun b t => F.f16 (u16At b 0) * (((pairNibble b t).toNat - 8 : Int) : K)) b =
      blockRow 32 (kernelQ4_0 F).elem b ↔ BlockAgrees F b := by
  have helem : ∀ t, F.f16 (u16At b 0) * (((pairNibble b t).toNat - 8 : Int) : K) = (kernelQ4_0 F).elem b t ↔
      F.f16 (u16At b 0) = 0 ∨ pairNibble b t = nibble b 2 t := by
    intro t
    rw [show (kernelQ4_0 F).elem b t = F.f16 (u16At b 0) * (((nibble b 2 t).toNat - 8 : Int) : K) from mul_comm _ _]
    rw [mul_eq_mul_left_iff, Int.cast_inj, or_comm]
    refine or_congr Iff.rfl ⟨fun h => UInt8.toNat_inj.mp (by omega), fun h => by rw [h]⟩
  rw [blockRow, blockRow, Lists.map_range_inj]
  simp only [helem, BlockAgrees]
  constructor
  · intro h
    by_cases hd : F.f16 (u16At b 0) = 0
    · exact Or.inl hd
    · exact Or.inr fun t ht => (h t ht).resolve_left hd
  · rintro (hd | hn) t ht
    · exact Or.inl hd
    · exact Or.inr (hn t ht)

theorem readBlocks_q8_0 {n : Nat} {r r' : ByteReader} {bytes : List UInt8}
    (h : r.readBytes (n * 34) = .ok (bytes, r')) :
    readBlocks (readBlockQ8_0 F) n r = .ok ((kernelQ8_0 F).decode bytes n) := by
  rw [readBlocks_eq (readBlockQ8_0_eq F) n _ _ _ h]
  rfl

theorem readBlocks_q4_0_iff [IsDomain K] [CharZero K] {n : Nat} {r r' : ByteReader} {bytes : List UInt8}
    (h : r.readBytes (n * 18) = .ok (bytes, r')) :
    readBlocks (readBlockQ4_0 F) n r = .ok ((kernelQ4_0 F).decode bytes n) ↔
      ∀ i < n, BlockAgrees F (blockAt 18 bytes i) := by
  have hdecode : (kernelQ4_0 F).decode bytes n =
      (List.range n).flatMap fun i => blockRow 32 (kernelQ4_0 F).elem (blockAt 18 bytes i) := rfl
  rw [readBlocks_eq (readBlockQ4_0_eq F) n _ _ _ h, hdecode, Except.ok.injEq]
  rw [Lists.flatMap_range_inj (m := 32) (by simp [blockRow]) (by simp [blockRow])]
  exact forall₂_congr fun i _ => blockAgrees_iff F _

end Decoders

/-! ## The two paths -/

section Paths

variable {K : Type} [CommRing K] (F : FloatBits K) (fs : FileSystem) (file : GgufFile) (name : String)

/-- The message is all the two lookups differ in. -/
theorem resolveSlice_message {m m' : String} {s : TensorSlice} (h : resolveSlice m file name = .ok s) :
    resolveSlice m' file name = .ok s := by
  unfold resolveSlice at h ⊢
  dsimp only at h ⊢
  split at h
  · exact absurd h (fail_ne_ok _ _ _)
  · exact h

/-- A raw load that succeeds read `nbytes` bytes where the slice starts. -/
theorem rawLoad_ok {s : TensorSlice} (hs : resolveSlice "tensor not in gguf: " file name = .ok s)
    {bytes : List UInt8} {shape : List Int} {ty : GgufType}
    (h : ggufLoadTensorRaw fs file name = .ok (bytes, shape, ty)) :
    ∃ r r', ByteReader.fromFile fs file.path = .ok r ∧ (r.seek (s.start file)).readBytes s.nbytes = .ok (bytes, r') := by
  simp only [ggufLoadTensorRaw, hs, ok_bind] at h
  split at h
  · exact absurd h (fail_ne_ok _ _ _)
  · split at h
    · exact absurd h (fail_ne_ok _ _ _)
    · obtain ⟨r, hr, h⟩ := bind_ok h
      obtain ⟨⟨b, r'⟩, hb, h⟩ := bind_ok h
      cases h
      exact ⟨r, r', hr, hb⟩

/-- Nothing in the row kernels throws. -/
theorem dequantGgufRow_ne_thrown (f : QuantFormat) (packed : List UInt8) (cols : Int) (what : String) :
    dequantGgufRow F f packed cols ≠ .error (.thrown what) := by
  intro h
  unfold dequantGgufRow at h
  split at h
  · unfold dequantRow at h
    split at h
    · cases h
    · dsimp only at h
      split at h <;> cases h
  · cases h

/-- A slice that fits a vector has the bytes of its whole blocks. -/
theorem nbytes_eq {s : TensorSlice} (hb : s.info.type.isBlock = true) (hn : s.n ≤ maxFloats) :
    s.nbytes = s.n / blockElems s.qf * blockBytes s.qf := by
  have hp : packedNbytes s.qf s.n = s.n / blockElems s.qf * blockBytes s.qf :=
    packedNbytes_of_lt hb (by unfold maxFloats at hn; omega)
  have h0 : ggufTypeNbytesPerElem s.info.type = 0 := by
    revert hb
    unfold GgufType.isBlock
    cases s.info.type <;> simp [ggufTypeToQuant, isGgufBlockQuant, ggufTypeNbytesPerElem]
  unfold TensorSlice.nbytes
  dsimp only
  split
  · next hz => rw [h0, Nat.mul_zero, ← hp, hz]; rfl
  · exact hp

/-- What the loader computes for a `Q4_0` or `Q8_0` slice, decided by its block loop. -/
theorem loadF32_blocks {s : TensorSlice} (hs : resolveSlice "tensor not in gguf: " file name = .ok s)
    (hn : s.n ≤ maxFloats) {r : ByteReader} (hr : ByteReader.fromFile fs file.path = .ok r) (h32 : s.n % 32 = 0) :
    (s.info.type = .q8_0 → (ggufLoadTensorF32 F fs file name).map Prod.fst =
      readBlocks (readBlockQ8_0 F) (s.n / 32) (r.seek (s.start file))) ∧
    (s.info.type = .q4_0 → (ggufLoadTensorF32 F fs file name).map Prod.fst =
      readBlocks (readBlockQ4_0 F) (s.n / 32) (r.seek (s.start file))) := by
  have hfits : ¬ s.n > maxFloats := Nat.not_lt.mpr hn
  constructor
  all_goals
    intro ht
    simp only [ggufLoadTensorF32, resolveSlice_message file name hs, ok_bind, hr, if_neg hfits, ht, h32, ne_eq,
      not_true_eq_false, if_false]
  · cases readBlocks (readBlockQ8_0 F) (s.n / 32) (r.seek (s.start file)) <;> rfl
  · cases readBlocks (readBlockQ4_0 F) (s.n / 32) (r.seek (s.start file)) <;> rfl

/-- The other block formats are loaded raw and given to the row kernel. -/
theorem loadF32_kernel {s : TensorSlice} (hs : resolveSlice "tensor not in gguf: " file name = .ok s)
    (hb : s.info.type.isBlock = true) (h8 : s.info.type ≠ .q8_0) (h4 : s.info.type ≠ .q4_0) (hn : s.n ≤ maxFloats)
    {bytes : List UInt8} {shape : List Int} {ty : GgufType}
    (h : ggufLoadTensorRaw fs file name = .ok (bytes, shape, ty)) :
    (ggufLoadTensorF32 F fs file name).map Prod.fst = dequantGgufRow F s.qf bytes (toI64 s.n) := by
  obtain ⟨r, r', hr, -⟩ := rawLoad_ok fs file name hs h
  have hfits : ¬ s.n > maxFloats := Nat.not_lt.mpr hn
  have hload : ggufLoadTensorF32 F fs file name = (dequantGgufRow F s.qf bytes (toI64 s.n) >>= fun out => .ok (out, s.shape)) := by
    revert hb h8 h4
    simp only [ggufLoadTensorF32, resolveSlice_message file name hs, ok_bind, hr, if_neg hfits, h]
    cases ht : s.info.type <;> simp [GgufType.isBlock, ggufTypeToQuant, isGgufBlockQuant]
  rw [hload]
  cases dequantGgufRow F s.qf bytes (toI64 s.n) <;> rfl

/-- For a block-quantised tensor whose raw load succeeds, decoding in the loader and
    decoding the raw bytes with the row kernel give the same numbers exactly when the
    tensor fits a vector and, if it is `Q4_0`, every block agrees under both orders. -/
theorem paths_agree_iff [IsDomain K] [CharZero K] {s : TensorSlice}
    (hs : resolveSlice "tensor not in gguf: " file name = .ok s) (hb : s.info.type.isBlock = true)
    (hn : s.n % blockElems s.qf = 0) {bytes : List UInt8} {shape : List Int} {ty : GgufType}
    (hraw : ggufLoadTensorRaw fs file name = .ok (bytes, shape, ty)) :
    (ggufLoadTensorF32 F fs file name).map Prod.fst = dequantGgufRow F s.qf bytes (toI64 s.n) ↔
      s.n ≤ maxFloats ∧ (s.info.type = .q4_0 → ∀ i < s.n / 32, BlockAgrees F (blockAt 18 bytes i)) := by
  obtain ⟨r, r', hr, hbytes⟩ := rawLoad_ok fs file name hs hraw
  by_cases hfits : s.n ≤ maxFloats
  · have hlen := ByteReader.readBytes_length hbytes
    rw [nbytes_eq hb hfits] at hlen hbytes
    have hcols : toI64 s.n = s.n := toI64_of_lt (by unfold maxFloats at hfits; omega)
    obtain ⟨k, hk, hrow⟩ := dequantGgufRow_eq (f := s.qf) F hb hn (Nat.le_of_eq hlen.symm)
    by_cases h4 : s.info.type = .q4_0
    · have hqf : s.qf = .q4_0 := by rw [TensorSlice.qf, h4]; rfl
      rw [hqf] at hn hbytes hk
      cases hk
      rw [hcols, hrow, (loadF32_blocks F fs file name hs hfits hr hn).2 h4]
      exact (readBlocks_q4_0_iff F (n := s.n / 32) hbytes).trans (by simp only [hfits, h4, true_and, forall_const])
    · refine iff_of_true ?_ ⟨hfits, fun h => absurd h h4⟩
      by_cases h8 : s.info.type = .q8_0
      · have hqf : s.qf = .q8_0 := by rw [TensorSlice.qf, h8]; rfl
        rw [hqf] at hn hbytes hk
        cases hk
        rw [hcols, hrow, (loadF32_blocks F fs file name hs hfits hr hn).1 h8]
        exact readBlocks_q8_0 F hbytes
      · exact loadF32_kernel F fs file name hs hb h8 h4 hfits hraw
  · refine iff_of_false ?_ fun h => hfits h.1
    have hload : (ggufLoadTensorF32 F fs file name).map Prod.fst = .error (.thrown "std::length_error") := by
      simp only [ggufLoadTensorF32, resolveSlice_message file name hs, ok_bind, hr, if_pos (Nat.not_le.mp hfits)]
      rfl
    rw [hload]
    exact (dequantGgufRow_ne_thrown F _ _ _ _).symm

end Paths

/-! ## One block -/

/-- The bit pattern of 1.0; the scale of the block below. -/
def oneBits : FloatBits Int where
  f16 b := if b = 0x3C00 then 1 else 0
  f32 _ := 0

def q4File : GgufFile := ⟨[⟨"w", [32], .q4_0, 0⟩], 0, "m.gguf"⟩

def q4Slice : TensorSlice := ⟨⟨"w", [32], .q4_0, 0⟩, -1, 0, 32⟩

/-- One `Q4_0` block: scale 1.0, then sixteen bytes of nibbles. -/
def q4Block (qs : List UInt8) : List UInt8 := [0x00, 0x3C] ++ qs

def q4Fs (qs : List UInt8) : FileSystem := fun _ => some (q4Block qs)

/-- With one nibble at 1 and the rest at 0 the loader sets element 1, the kernel element 16. -/
theorem q4_0_paths_differ :
    ∃ (fs : FileSystem) (file : GgufFile) (name : String) (s : TensorSlice) (bytes : List UInt8) (shape : List Int),
      resolveSlice "tensor not in gguf: " file name = .ok s ∧ s.n % blockElems s.qf = 0 ∧
      ggufLoadTensorRaw fs file name = .ok (bytes, shape, .q4_0) ∧
      (ggufLoadTensorF32 oneBits fs file name).map Prod.fst ≠ dequantGgufRow oneBits .q4_0 bytes (toI64 s.n) := by
  refine ⟨q4Fs (0x10 :: List.replicate 15 0), q4File, "w", q4Slice, q4Block (0x10 :: List.replicate 15 0), [32],
    by decide, by decide, by decide, by decide⟩

/-- With equal nibbles throughout both paths read the same row. -/
theorem paths_agree_equal_nibbles :
    (ggufLoadTensorF32 oneBits (q4Fs (List.replicate 16 0x77)) q4File "w").map Prod.fst =
      dequantGgufRow oneBits .q4_0 (q4Block (List.replicate 16 0x77)) (toI64 32) :=
  (paths_agree_iff oneBits (q4Fs (List.replicate 16 0x77)) q4File "w" (s := q4Slice) (by decide) (by decide) (by decide)
    (by decide : ggufLoadTensorRaw (q4Fs (List.replicate 16 0x77)) q4File "w" =
      .ok (q4Block (List.replicate 16 0x77), [32], .q4_0))).mpr ⟨by decide, fun _ i hi => by
      obtain rfl : i = 0 := by simpa [q4Slice] using hi
      exact Or.inr (by decide)⟩

end Uaii.Loaders
