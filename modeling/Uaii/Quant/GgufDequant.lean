/-
  Uaii.Quant.GgufDequant — the GGUF row kernels (`libs/uaii-quant/src/gguf_dequant.cpp`:
  `dequant_row_q4_0` … `dequant_row_iq4_nl`, `dequant_gguf_row`).

  A row is a sequence of blocks of one size; every kernel walks them the same way and
  differs in how one block's bytes give its elements (`RowKernel.elem`). Element `t`
  of a block is the one the kernel's nested loops write at offset `t`.

  Numbers are exact, in any ring `K`; `f16_to_f32` of a block's scale is a parameter.

  Proved: a row of `n` elements has `n` results (`dequantGgufRow_length`), each computed
  from its own block alone (`dequantGgufRow_eq`).
-/

import Mathlib.Algebra.Ring.Defs
import Mathlib.Data.Int.Cast.Defs
import Mathlib.Tactic.SplitIfs
import Uaii.Quant.Formats

namespace Uaii.Quant

/-- `data[i]`. -/
def byteAt (b : List UInt8) (i : Nat) : UInt8 := b.getD i 0

/-- Little-endian words. -/
def u16At (b : List UInt8) (i : Nat) : UInt16 := (byteAt b i).toUInt16 ||| ((byteAt b (i + 1)).toUInt16 <<< 8)

def u32At (b : List UInt8) (i : Nat) : UInt32 := (u16At b i).toUInt32 ||| ((u16At b (i + 2)).toUInt32 <<< 16)

/-- `static_cast<std::int8_t>`. -/
def i8 (x : UInt8) : Int := if x < 128 then x.toNat else (x.toNat : Int) - 256

/-- How stored bit patterns become numbers. -/
structure FloatBits (K : Type) where
  f16 : UInt16 → K
  f32 : UInt32 → K

structure RowKernel (K : Type) where
  name : String
  /-- Elements and bytes of a block. -/
  qk : Nat
  size : Nat
  /-- A block's element at an offset. -/
  elem : List UInt8 → Nat → K

variable {K : Type}

/-- The `i`-th block of a packed row. -/
def blockAt (size : Nat) (packed : List UInt8) (i : Nat) : List UInt8 := (packed.drop (i * size)).take size

def RowKernel.decode (k : RowKernel K) (packed : List UInt8) (nb : Nat) : List K :=
  (List.range nb).flatMap fun i => (List.range k.qk).map (k.elem (blockAt k.size packed i))

def dequantRow (k : RowKernel K) (packed : List UInt8) (cols : Int) : Result (List K) :=
  if cols.tmod k.qk ≠ 0 then fail .invalidArgument s!"{k.name} cols not multiple of {k.qk}"
  else
    let nb := (cols.tdiv k.qk).toNat
    if packed.length < nb * k.size then .error (.undefined "read past the packed row")
    else .ok (k.decode packed nb)

section Kernels

variable [Ring K] (F : FloatBits K)

/-- The nibble of element `t` of a 32-element block whose nibbles start at byte `o`:
    low nibbles first, then the high ones. -/
def nibble (b : List UInt8) (o t : Nat) : UInt8 :=
  if t < 16 then byteAt b (o + t) &&& 0x0F else byteAt b (o + (t - 16)) >>> 4

/-- The fifth bit of element `t`, in place (`xh_0`, `xh_1`). -/
def fifthBit (qh : UInt32) (t : Nat) : UInt8 :=
  if t < 16 then (((qh >>> t.toUInt32) <<< 4) &&& 0x10).toUInt8
  else ((qh >>> (t - 16 + 12).toUInt32) &&& 0x10).toUInt8

def kernelQ4_0 : RowKernel K where
  name := "Q4_0"
  qk := 32
  size := 18
  elem b t := (((nibble b 2 t).toNat - 8 : Int) : K) * F.f16 (u16At b 0)

def kernelQ4_1 : RowKernel K where
  name := "Q4_1"
  qk := 32
  size := 20
  elem b t := (((nibble b 4 t).toNat : Int) : K) * F.f16 (u16At b 0) + F.f16 (u16At b 2)

def kernelQ5_0 : RowKernel K where
  name := "Q5_0"
  qk := 32
  size := 22
  elem b t := (((nibble b 6 t ||| fifthBit (u32At b 2) t).toNat - 16 : Int) : K) * F.f16 (u16At b 0)

def kernelQ5_1 : RowKernel K where
  name := "Q5_1"
  qk := 32
  size := 24
  elem b t :=
    (((nibble b 8 t ||| fifthBit (u32At b 4) t).toNat : Int) : K) * F.f16 (u16At b 0) + F.f16 (u16At b 2)

def kernelQ8_0 : RowKernel K where
  name := "Q8_0"
  qk := 32
  size := 34
  elem b t := ((i8 (byteAt b (2 + t)) : Int) : K) * F.f16 (u16At b 0)

/-- `t = 128 n + 32 j + 16 h + l` in the K-quants' loops; `scales[is++]` is at
    `8 n + 2 j + h`. -/
def kernelQ2_K : RowKernel K where
  name := "Q2_K"
  qk := 256
  size := 84
  elem b t :=
    let n := t / 128
    let j := t % 128 / 32
    let h := t % 32 / 16
    let l := t % 16
    let sc := byteAt b (8 * n + 2 * j + h)
    let q := byteAt b (16 + 32 * n + 16 * h + l)
    let dl := F.f16 (u16At b 80) * ((sc &&& 0xF).toNat : Int)
    let ml := F.f16 (u16At b 82) * ((sc >>> 4).toNat : Int)
    dl * ((i8 ((q >>> (2 * j).toUInt8) &&& 3) : Int) : K) - ml

/-- The sixteen 6-bit scales of a `Q3_K` block, unpacked through `aux[4]`. -/
def scalesQ3_K (s : List UInt8) (k : Nat) : UInt8 :=
  let kmask1 : UInt32 := 0x03030303
  let kmask2 : UInt32 := 0x0f0f0f0f
  let aux0 := u32At s 0
  let aux1 := u32At s 4
  let tmp := u32At s 8
  let aux : UInt32 :=
    match k / 4 with
    | 0 => (aux0 &&& kmask2) ||| (((tmp >>> 0) &&& kmask1) <<< 4)
    | 1 => (aux1 &&& kmask2) ||| (((tmp >>> 2) &&& kmask1) <<< 4)
    | 2 => ((aux0 >>> 4) &&& kmask2) ||| (((tmp >>> 4) &&& kmask1) <<< 4)
    | _ => ((aux1 >>> 4) &&& kmask2) ||| (((tmp >>> 6) &&& kmask1) <<< 4)
  (aux >>> (8 * (k % 4)).toUInt32).toUInt8

def kernelQ3_K : RowKernel K where
  name := "Q3_K"
  qk := 256
  size := 110
  elem b t :=
    let n := t / 128
    let j := t % 128 / 32
    let h := t % 32 / 16
    let l := t % 16
    let m : UInt8 := 1 <<< (4 * n + j).toUInt8
    let hm := byteAt b (16 * h + l)
    let q := byteAt b (32 + 32 * n + 16 * h + l)
    let dl := F.f16 (u16At b 108) * (i8 (scalesQ3_K (b.drop 96) (8 * n + 2 * j + h)) - 32 : Int)
    dl * ((i8 ((q >>> (2 * j).toUInt8) &&& 3) - (if hm &&& m ≠ 0 then 0 else 4) : Int) : K)

/-- The scale and the minimum of sub-block `j`. -/
def getScaleMinK4 (j : Nat) (q : List UInt8) : UInt8 × UInt8 :=
  if j < 4 then ⟨byteAt q j &&& 63, byteAt q (j + 4) &&& 63⟩
  else
    ⟨(byteAt q (j + 4) &&& (0xF : UInt8)) ||| ((byteAt q (j - 4) >>> 6) <<< (4 : UInt8)),
     (byteAt q (j + 4) >>> 4) ||| ((byteAt q j >>> 6) <<< (4 : UInt8))⟩

/-- `t = 64 j + 32 h + l`: the low nibbles of 32 bytes, then the high ones. -/
def kernelQ4_K : RowKernel K where
  name := "Q4_K"
  qk := 256
  size := 144
  elem b t :=
    let j := t / 64
    let h := t % 64 / 32
    let l := t % 32
    let (sc, m) := getScaleMinK4 (2 * j + h) ((b.drop 4).take 12)
    let q := byteAt b (16 + 32 * j + l)
    let x := if h = 0 then q &&& 0xF else q >>> 4
    F.f16 (u16At b 0) * (sc.toNat : Int) * (x.toNat : Int) - F.f16 (u16At b 2) * (m.toNat : Int)

def kernelQ5_K : RowKernel K where
  name := "Q5_K"
  qk := 256
  size := 176
  elem b t :=
    let j := t / 64
    let h := t % 64 / 32
    let l := t % 32
    let (sc, m) := getScaleMinK4 (2 * j + h) ((b.drop 4).take 12)
    let ql := byteAt b (48 + 32 * j + l)
    let qh := byteAt b (16 + l)
    let u : UInt8 := (if h = 0 then 1 else 2) <<< (2 * j).toUInt8
    let x := (if h = 0 then ql &&& 0xF else ql >>> 4).toNat + (if qh &&& u ≠ 0 then 16 else 0)
    F.f16 (u16At b 0) * (sc.toNat : Int) * (x : Int) - F.f16 (u16At b 2) * (m.toNat : Int)

/-- `t = 128 n + 32 c + l`: `q1` … `q4` for `c = 0` … `3`. -/
def kernelQ6_K : RowKernel K where
  name := "Q6_K"
  qk := 256
  size := 210
  elem b t :=
    let n := t / 128
    let c := t % 128 / 32
    let l := t % 32
    let ql := byteAt b (64 * n + l + (if c % 2 = 0 then 0 else 32))
    let qh := byteAt b (128 + 32 * n + l)
    let x := (if c < 2 then ql &&& 0xF else ql >>> 4) ||| (((qh >>> (2 * c).toUInt8) &&& 3) <<< 4)
    let sc := byteAt b (192 + 8 * n + l / 16 + 2 * c)
    F.f16 (u16At b 208) * (i8 sc : Int) * ((i8 x - 32 : Int) : K)

def kvaluesIq4nl : List Int := [-127, -104, -83, -65, -49, -35, -22, -10, 1, 13, 25, 38, 53, 69, 89, 113]

def kernelIq4Nl : RowKernel K where
  name := "IQ4_NL"
  qk := 32
  size := 18
  elem b t := F.f16 (u16At b 0) * ((kvaluesIq4nl.getD (nibble b 2 t).toNat 0 : Int) : K)

def rowKernel : QuantFormat → Option (RowKernel K)
  | .q4_0 => some (kernelQ4_0 F)
  | .q4_1 => some (kernelQ4_1 F)
  | .q5_0 => some (kernelQ5_0 F)
  | .q5_1 => some (kernelQ5_1 F)
  | .q8_0 => some (kernelQ8_0 F)
  | .q2_k => some (kernelQ2_K F)
  | .q3_k => some (kernelQ3_K F)
  | .q4_k => some (kernelQ4_K F)
  | .q5_k => some (kernelQ5_K F)
  | .q6_k => some (kernelQ6_K F)
  | .iq4_nl => some (kernelIq4Nl F)
  | _ => none

def dequantGgufRow (format : QuantFormat) (packed : List UInt8) (cols : Int) : Result (List K) :=
  match rowKernel F format with
  | some k => dequantRow k packed cols
  | none => fail .notImplemented "unsupported gguf dequant format"

/-! ## Rows and their blocks -/

/-- The kernels' loop bounds are the sizes `packed_nbytes` counts with. -/
theorem rowKernel_spec {f : QuantFormat} (hf : isGgufBlockQuant f = true) :
    ∃ k, rowKernel F f = some k ∧ k.qk = blockElems f ∧ k.size = blockBytes f := by
  cases f <;> first | exact ⟨_, rfl, rfl, rfl⟩ | cases hf

omit [Ring K] in
theorem RowKernel.decode_length (k : RowKernel K) (packed : List UInt8) (nb : Nat) :
    (k.decode packed nb).length = nb * k.qk := by
  simp [RowKernel.decode, List.length_flatMap]

theorem blockCount (n m : Nat) : ((n : Int).tdiv m).toNat = n / m := by
  rw [Int.tdiv_eq_ediv_of_nonneg (by omega), ← Int.natCast_ediv, Int.toNat_natCast]

omit [Ring K] in
theorem dequantRow_ok (k : RowKernel K) (packed : List UInt8) {n : Nat} (hn : n % k.qk = 0)
    (hp : n / k.qk * k.size ≤ packed.length) : dequantRow k packed n = .ok (k.decode packed (n / k.qk)) := by
  have hm : (n : Int).tmod k.qk = 0 := by
    rw [Int.tmod_eq_emod_of_nonneg (by omega)]; exact_mod_cast hn
  unfold dequantRow
  simp only [hm, ne_eq, not_true_eq_false, if_false, blockCount, Nat.not_lt.mpr hp]

/-- On whole blocks and enough bytes the kernel succeeds, and writes each block's elements
    in place. -/
theorem dequantGgufRow_eq {f : QuantFormat} (hf : isGgufBlockQuant f = true) {packed : List UInt8} {n : Nat}
    (hn : n % blockElems f = 0) (hp : n / blockElems f * blockBytes f ≤ packed.length) :
    ∃ k, rowKernel F f = some k ∧ dequantGgufRow F f packed n = .ok (k.decode packed (n / k.qk)) := by
  obtain ⟨k, hk, hq, hs⟩ := rowKernel_spec F hf
  refine ⟨k, hk, ?_⟩
  simp only [dequantGgufRow, hk]
  exact dequantRow_ok k packed (hq ▸ hn) (by rw [hq, hs]; exact hp)

theorem dequantGgufRow_length {f : QuantFormat} (hf : isGgufBlockQuant f = true) {packed : List UInt8} {n : Nat}
    (hn : n % blockElems f = 0) {row : List K} (h : dequantGgufRow F f packed n = .ok row) : row.length = n := by
  obtain ⟨k, hk, hq, hs⟩ := rowKernel_spec F hf
  simp only [dequantGgufRow, hk] at h
  have hp : n / k.qk * k.size ≤ packed.length := by
    by_contra hlt
    unfold dequantRow at h
    simp only [blockCount, Nat.not_le.mp hlt, if_true] at h
    split at h
    · exact fail_ne_ok _ _ _ h
    · cases h
  rw [dequantRow_ok k packed (hq ▸ hn) hp] at h
  injection h with h
  rw [← h, RowKernel.decode_length, hq]
  exact Nat.div_mul_cancel (Nat.dvd_of_mod_eq_zero hn)

end Kernels

end Uaii.Quant
